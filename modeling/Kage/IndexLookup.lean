import Kage.SegmentAtomicity
import Kage.SegmentRuns
import Kage.SparseMarks

/-!
# Looking up records of a growing segment

A segment tells its index about every record it accepts, and the index keeps an
entry for some of them. `Appended` says what one accepted record does to both.
From it follows, for a segment that was empty when it was opened, which records
have an entry: those that bring the bytes since the last entry to the interval.
The entries are then sorted, a lookup finds the last one that is not behind the
target, and from the record it leads to less than an interval of other records
has to be skipped.

Offsets are sixty-four bits wide and positions thirty-two, so the two agree
while the segment is no larger than `2^32` bytes.
-/
namespace Kage.IndexLookup
open ByteStrings LengthPrefixed FaultyDisk SparseIndex SegmentLog SegmentFaults SegmentRuns
open SparseMarks
open SegmentAtomicity (largeRecord largeRecord_length)

/-- The entry written for a record that starts at `o`. -/
def entryAt (o : ℕ) : Entry := ⟨UInt64.ofNat o,(UInt64.ofNat o).toUInt32⟩

/-- What an accepted record does to a segment and its index. -/
structure Appended (s : Segment) (p : Bytes) (o : UInt64) (t : Segment) : Prop where
  offset : o = UInt64.ofNat s.size
  size : t.size = s.size+frameSize p
  fits : (t.size : ℤ) ≤ t.maxSize.toInt
  maxSize : t.maxSize = s.maxSize
  index : (s.idx.bytesWrittenSinceLastEntry+frameSize p < IndexIntervalBytes ∧
      t.idx.bytesWrittenSinceLastEntry = s.idx.bytesWrittenSinceLastEntry+frameSize p ∧
      t.idx.entries = s.idx.entries) ∨
    (¬s.idx.bytesWrittenSinceLastEntry+frameSize p < IndexIntervalBytes ∧
      t.idx.bytesWrittenSinceLastEntry = 0 ∧
      t.idx.entries = s.idx.entries++[entryAt s.size])

theorem append_appended {s t : Segment} {p : Bytes} {d e : Disk} {o : UInt64}
    (h : s.append p d = (.ok o,t,e)) : Appended s p o t := by
  have hp : frameSize p = recordHeaderSize+p.length := frameSize_eq p
  cases Segment.appending h with
  | @written x _ _ idx _ _ _ _ hfit _ _ hi hr =>
      cases x with
      | some c => cases hr
      | none =>
          refine ⟨Except.ok.inj hr,?_,?_,rfl,?_⟩
          · rw [hp]
          · push_cast at hfit ⊢
            omega
          · rw [hp]
            cases Index.considering hi with
            | early hn => exact .inl ⟨hn,rfl,rfl⟩
            | written hn _ => exact .inr ⟨hn,rfl,rfl⟩

/-- Only buffered bytes were moved. -/
def Resting (s t : Segment) : Prop :=
  ∃ bw iw, t = {s with bw := bw, idx := {s.idx with bw := iw}}

section Rest
variable {s t : Segment} {d e : Disk}

theorem Resting.refl (s : Segment) : Resting s s := ⟨s.bw,s.idx.bw,rfl⟩

theorem index_flush {x y : Index} {r : Option Err} (h : x.flush d = (r,y,e)) :
    ∃ bw, y = {x with bw := bw} := by
  unfold Index.flush at h
  split at h
  · cases h
    exact ⟨_,rfl⟩
  · split at h <;> cases h <;> exact ⟨_,rfl⟩

theorem flush_resting {r : Option Err} (h : s.flush d = (r,t,e)) : Resting s t := by
  cases Segment.flushing h with
  | log => exact ⟨_,s.idx.bw,rfl⟩
  | sync => exact ⟨_,s.idx.bw,rfl⟩
  | index _ _ hi =>
      obtain ⟨iw,rfl⟩ := index_flush hi
      exact ⟨_,iw,rfl⟩

theorem looked_resting (h : s.Looked d t e) : Resting s t := by
  obtain ⟨r,bw,d₁,-,rfl,-⟩ := h
  exact ⟨bw,s.idx.bw,rfl⟩

theorem read_resting {o : UInt64} {n : Int32} {r : Except Err SectionReader}
    (h : s.read o n d = (r,t,e)) : Resting s t := by
  rcases Segment.read_looked h with ⟨rfl,rfl⟩ | hl
  · exact .refl t
  · exact looked_resting hl

end Rest

/-- One step of a session that stays open. -/
inductive Stepping (σ τ : Session) : Prop
  | appended {p : Bytes} {o : UInt64} : σ.seg.append p σ.disk = (.ok o,τ.seg,τ.disk) →
      τ.accepted = σ.accepted++[(p,o)] → Stepping σ τ
  | rested : Resting σ.seg τ.seg → (Sound σ.seg σ.disk → Sound τ.seg τ.disk) →
      τ.accepted = σ.accepted → Stepping σ τ

/-- No operation closes the segment. -/
def StaysOpen (ops : List Op) : Prop := ∀ cfg, .reopen cfg ∉ ops

theorem stepping {dir : List Bytes} {b : ℕ} {σ τ : Session} {op : Op}
    (h : σ.step dir b op = .ok τ) (hop : ∀ cfg, op ≠ .reopen cfg) : Stepping σ τ := by
  cases op with
  | append p =>
      simp only [Session.step] at h
      rcases ha : σ.seg.append p σ.disk with ⟨x|o,t,e⟩
      · rw [ha] at h
        cases Segment.appending ha with
        | full =>
            simp only [if_pos] at h
            cases h
            exact .rested (.refl _) id rfl
        | header => simp [ErrSegmentFull] at h
        | payload => simp [ErrSegmentFull] at h
        | @written y _ _ _ _ _ _ _ _ _ _ _ hr =>
            cases y with
            | none => cases hr
            | some y =>
                cases hr
                simp [ErrSegmentFull] at h
      · rw [ha] at h
        cases h
        exact .appended ha rfl
  | readAt o =>
      simp only [Session.step] at h
      rcases hr : σ.seg.readAt o σ.disk with ⟨r,t,e⟩
      rw [hr] at h
      cases h
      exact .rested (looked_resting (Segment.readAt_looked hr)) (readAt_sound · hr) rfl
  | read o n =>
      simp only [Session.step] at h
      rcases hr : σ.seg.read o n σ.disk with ⟨r,t,e⟩
      rw [hr] at h
      cases h
      exact .rested (read_resting hr) (read_sound · hr) rfl
  | flush =>
      simp only [Session.step] at h
      rcases hr : σ.seg.flush σ.disk with ⟨_|x,t,e⟩
      · rw [hr] at h
        cases h
        exact .rested (flush_resting hr) (fun h => (flush_sound h hr).1) rfl
      · rw [hr] at h
        cases h
  | reopen cfg => exact (hop cfg rfl).elim

/-- The sizes of the accepted records. -/
def sizes (accepted : List (Bytes × UInt64)) : List ℕ := accepted.map fun a => frameSize a.1

/-- The accepted records fill the segment one after another, and those with the
numbers `marked` have an entry. -/
structure Indexed (σ : Session) (marked : List ℕ) : Prop where
  size : σ.seg.size = (sizes σ.accepted).sum
  fits : (σ.seg.size : ℤ) ≤ σ.seg.maxSize.toInt
  offsets : ∀ i a, σ.accepted[i]? = some a → a.2 = UInt64.ofNat (start (sizes σ.accepted) i)
  entries : σ.seg.idx.entries = marked.map fun m => entryAt (start (sizes σ.accepted) m)
  spaced : Spaced IndexIntervalBytes (sizes σ.accepted) marked
    σ.seg.idx.bytesWrittenSinceLastEntry

section Runs
variable {σ τ : Session} {marked : List ℕ}

theorem sizes_length (accepted : List (Bytes × UInt64)) :
    (sizes accepted).length = accepted.length := List.length_map _

theorem sizes_pos (accepted : List (Bytes × UInt64)) : ∀ n ∈ sizes accepted, 0 < n := by
  intro n hn
  obtain ⟨a,-,rfl⟩ := List.mem_map.mp hn
  simp only [frameSize_eq]
  omega

theorem Indexed.rested (h : Indexed σ marked) (hr : Resting σ.seg τ.seg)
    (ha : τ.accepted = σ.accepted) : Indexed τ marked := by
  obtain ⟨t,e,accepted⟩ := τ
  obtain rfl : accepted = σ.accepted := ha
  obtain ⟨bw,iw,rfl⟩ : Resting σ.seg t := hr
  exact ⟨h.size,h.fits,h.offsets,h.entries,h.spaced⟩

theorem Indexed.entries_concat (h : Indexed σ marked) (a : Bytes × UInt64) :
    (marked.map fun m => entryAt (start (sizes (σ.accepted++[a])) m)) = σ.seg.idx.entries := by
  rw [h.entries]
  apply List.map_congr_left
  intro m hm
  rw [sizes,List.map_append]
  exact congrArg entryAt (start_concat (h.spaced.bound m hm).le _)

theorem Indexed.appended (h : Indexed σ marked) {p : Bytes} {o : UInt64}
    (hs : Appended σ.seg p o τ.seg) (ha : τ.accepted = σ.accepted++[(p,o)]) :
    ∃ marked, Indexed τ marked := by
  have hsizes : sizes τ.accepted = sizes σ.accepted++[frameSize p] := by
    rw [ha,sizes,List.map_append]
    rfl
  have hsize : τ.seg.size = (sizes τ.accepted).sum := by
    rw [hs.size,hsizes,List.sum_append,h.size,List.sum_singleton]
  have hlast : start (sizes τ.accepted) (sizes σ.accepted).length = σ.seg.size := by
    rw [hsizes,start_concat le_rfl,start,List.take_length,h.size]
  have hoffsets : ∀ i a, τ.accepted[i]? = some a →
      a.2 = UInt64.ofNat (start (sizes τ.accepted) i) := by
    intro i a hi
    rw [ha] at hi
    rcases Nat.lt_or_ge i σ.accepted.length with hlt | hge
    · rw [List.getElem?_append_left hlt] at hi
      rw [hsizes,start_concat (by rw [sizes_length]; exact hlt.le)]
      exact h.offsets i a hi
    · rw [List.getElem?_append_right hge] at hi
      obtain ⟨h0,rfl⟩ := List.getElem?_eq_some_iff.mp hi
      obtain rfl : i = (sizes σ.accepted).length := by
        rw [sizes_length]
        simp only [List.length_singleton] at h0
        omega
      rw [hlast,List.getElem_singleton]
      exact hs.offset
  have hentries := h.entries_concat (p,o)
  rw [← ha] at hentries
  rcases hs.index with ⟨hn,hc,he⟩ | ⟨-,hc,he⟩
  · refine ⟨marked,hsize,hs.fits,hoffsets,he.trans hentries.symm,?_⟩
    rw [hsizes,hc]
    exact h.spaced.skip hn
  · refine ⟨marked++[(sizes σ.accepted).length],hsize,hs.fits,hoffsets,?_,?_⟩
    · rw [he,List.map_append,hentries,List.map_singleton,hlast]
    · rw [hsizes,hc]
      exact h.spaced.mark _

theorem Indexed.step (h : Indexed σ marked) (hs : Stepping σ τ) :
    ∃ marked, Indexed τ marked := by
  cases hs with
  | appended ha hacc => exact h.appended (append_appended ha) hacc
  | rested hr _ hacc => exact ⟨marked,h.rested hr hacc⟩

theorem Stepping.maxSize (h : Stepping σ τ) : τ.seg.maxSize = σ.seg.maxSize := by
  cases h with
  | appended ha _ => exact (append_appended ha).maxSize
  | rested hr _ _ =>
      obtain ⟨bw,iw,hr⟩ := hr
      rw [hr]

/-- What every step of an open session keeps, a run keeps. -/
theorem run_preserves {P : Session → Prop} (hstep : ∀ {σ τ}, P σ → Stepping σ τ → P τ)
    {dir : List Bytes} {b : ℕ} {ops : List Op} (h : P σ) (hops : StaysOpen ops)
    (hrun : σ.run dir b ops = .ok τ) : P τ := by
  induction ops generalizing σ with
  | nil =>
      cases hrun
      exact h
  | cons op ops ih =>
      simp only [Session.run] at hrun
      rcases hs : σ.step dir b op with x|υ
      · rw [hs] at hrun
        cases hrun
      · rw [hs] at hrun
        have hυ := hstep h (stepping hs fun cfg hop => hops cfg (hop ▸ List.mem_cons_self))
        exact ih hυ (fun cfg hmem => hops cfg (List.mem_cons_of_mem _ hmem)) hrun

theorem Indexed.run {dir : List Bytes} {b : ℕ} {ops : List Op} (h : Indexed σ marked)
    (hops : StaysOpen ops) (hrun : σ.run dir b ops = .ok τ) :
    (∃ marked, Indexed τ marked) ∧ τ.seg.maxSize = σ.seg.maxSize := by
  apply run_preserves (P := fun τ => (∃ marked, Indexed τ marked) ∧
    τ.seg.maxSize = σ.seg.maxSize) _ ⟨⟨marked,h⟩,rfl⟩ hops hrun
  rintro υ τ ⟨⟨marked,h⟩,hm⟩ hs
  exact ⟨h.step hs,hs.maxSize.trans hm⟩

end Runs

/-- The bytes of the records from number `j` on and before number `i`. -/
def between (accepted : List (Bytes × UInt64)) (j i : ℕ) : ℕ :=
  (frames (((accepted.map Prod.fst).take i).drop j)).length

theorem between_eq (accepted : List (Bytes × UInt64)) (j i : ℕ) :
    between accepted j i = (((sizes accepted).take i).drop j).sum := by
  rw [between,frames_length,sizes]
  simp only [List.map_drop,List.map_take,List.map_map,Function.comp_def]

/-- The entries lead to records, and close to each record. -/
structure TightFloor (x : Index) (accepted : List (Bytes × UInt64)) : Prop where
  offsets : ∀ i p o, accepted[i]? = some (p,o) → o.toNat = between accepted 0 i
  increasing : x.entries.Pairwise fun a b => a.offset < b.offset
  starts : ∀ a ∈ x.entries, (∃ p, (p,a.offset) ∈ accepted) ∧ a.position.toNat = a.offset.toNat
  floor : ∀ t q, x.lookup t = some (.ok q) ↔ ∃ a ∈ x.entries, a.position = q ∧ a.offset ≤ t ∧
    ∀ b ∈ x.entries, b.offset ≤ t → b.offset ≤ a.offset
  missing : ∀ t, x.lookup t = some (.error ErrOffsetNotFound) ↔ ∀ a ∈ x.entries, ¬a.offset ≤ t
  found : ∀ i p t q, accepted[i]? = some (p,t) → x.lookup t = some (.ok q) →
    ∃ j r o, accepted[j]? = some (r,o) ∧ o.toNat = q.toNat ∧
      between accepted (j+1) i < IndexIntervalBytes
  unfound : ∀ i p t c, accepted[i]? = some (p,t) → x.lookup t = some (.error c) →
    between accepted 0 i < IndexIntervalBytes

theorem entryAt_offset {o : ℕ} (h : o < 2^32) : (entryAt o).offset.toNat = o :=
  UInt64.toNat_ofNat_of_lt' (h.trans (by decide))

theorem entryAt_position {o : ℕ} (h : o < 2^32) : (entryAt o).position.toNat = o := by
  rw [entryAt,UInt64.toNat_toUInt32,UInt64.toNat_ofNat_of_lt' (h.trans (by decide)),
    Nat.mod_eq_of_lt h]

namespace Indexed
variable {σ : Session} {marked : List ℕ}

theorem start_lt (h : Indexed σ marked) (hm : σ.seg.maxSize.toInt ≤ 2^32) {i : ℕ}
    (hi : i < (sizes σ.accepted).length) : start (sizes σ.accepted) i < 2^32 := by
  have hlt := start_lt_start (sizes_pos σ.accepted) hi le_rfl
  have hsize := h.size
  have hfits := h.fits
  simp only [start,List.take_length] at hlt ⊢
  omega

theorem mark_start_lt (h : Indexed σ marked) (hm : σ.seg.maxSize.toInt ≤ 2^32) {m : ℕ}
    (hmark : m ∈ marked) : start (sizes σ.accepted) m < 2^32 :=
  h.start_lt hm (h.spaced.bound m hmark)

theorem offset_toNat (h : Indexed σ marked) (hm : σ.seg.maxSize.toInt ≤ 2^32) {i : ℕ} {p : Bytes}
    {o : UInt64} (hi : σ.accepted[i]? = some (p,o)) :
    i < (sizes σ.accepted).length ∧ o.toNat = start (sizes σ.accepted) i := by
  have hlt : i < (sizes σ.accepted).length := by
    rw [sizes_length]
    exact (List.getElem?_eq_some_iff.mp hi).1
  have ho : o = (entryAt (start (sizes σ.accepted) i)).offset := h.offsets i _ hi
  exact ⟨hlt,by rw [ho,entryAt_offset (h.start_lt hm hlt)]⟩

theorem mem_entries (h : Indexed σ marked) {a : Entry} : a ∈ σ.seg.idx.entries ↔
    ∃ m ∈ marked, entryAt (start (sizes σ.accepted) m) = a := by
  rw [h.entries,List.mem_map]

theorem increasing (h : Indexed σ marked) (hm : σ.seg.maxSize.toInt ≤ 2^32) :
    σ.seg.idx.entries.Pairwise fun a b => a.offset < b.offset := by
  rw [h.entries,List.pairwise_map]
  refine h.spaced.increasing.imp_of_mem fun {m n} hmark hnark hmn => ?_
  rw [UInt64.lt_iff_toNat_lt,entryAt_offset (h.mark_start_lt hm hmark),
    entryAt_offset (h.mark_start_lt hm hnark)]
  exact start_lt_start (sizes_pos _) hmn (h.spaced.bound n hnark).le

theorem mark_accepted (h : Indexed σ marked) {m : ℕ} (hmark : m ∈ marked) :
    ∃ p, σ.accepted[m]? = some (p,(entryAt (start (sizes σ.accepted) m)).offset) := by
  have hlt := h.spaced.bound m hmark
  rw [sizes_length] at hlt
  have ha := List.getElem?_eq_getElem hlt
  refine ⟨σ.accepted[m].1,ha.trans (congrArg some ?_)⟩
  exact Prod.ext rfl (h.offsets m _ ha)

/-- An entry is not behind a record if its own record is not. -/
theorem offset_le_iff (h : Indexed σ marked) (hm : σ.seg.maxSize.toInt ≤ 2^32) {i m : ℕ}
    {p : Bytes} {t : UInt64} (hi : σ.accepted[i]? = some (p,t)) (hmark : m ∈ marked) :
    (entryAt (start (sizes σ.accepted) m)).offset ≤ t ↔ m ≤ i := by
  obtain ⟨hlt,ht⟩ := h.offset_toNat hm hi
  rw [UInt64.le_iff_toNat_le,entryAt_offset (h.mark_start_lt hm hmark),ht,
    start_le_start_iff (sizes_pos _) (h.spaced.bound m hmark).le hlt.le]

/-- The entry a lookup finds for a record leads to one that is not behind it and
is followed by no other entry up to there. -/
theorem lookup_found (h : Indexed σ marked) (hm : σ.seg.maxSize.toInt ≤ 2^32) {i : ℕ} {p : Bytes}
    {t : UInt64} {q : UInt32} (hi : σ.accepted[i]? = some (p,t))
    (hq : σ.seg.idx.lookup t = some (.ok q)) :
    ∃ m ∈ marked, (entryAt (start (sizes σ.accepted) m)).position = q ∧
      ∀ n ∈ marked, n ≤ i → n < m+1 := by
  obtain ⟨a,ha,hpos,hat,hmax⟩ := (Index.lookup_ok_iff (h.increasing hm) t q).mp hq
  obtain ⟨m,hmark,rfl⟩ := h.mem_entries.mp ha
  refine ⟨m,hmark,hpos,fun n hnark hni => ?_⟩
  obtain ⟨r,hr⟩ := h.mark_accepted hmark
  have hle := hmax _ (h.mem_entries.mpr ⟨n,hnark,rfl⟩) ((h.offset_le_iff hm hi hnark).mpr hni)
  exact Nat.lt_succ_of_le ((h.offset_le_iff hm hr hnark).mp hle)

theorem tightFloor (h : Indexed σ marked) (hm : σ.seg.maxSize.toInt ≤ 2^32) :
    TightFloor σ.seg.idx σ.accepted where
  offsets := fun i p o hi => by
    rw [(h.offset_toNat hm hi).2,between_eq]
    rfl
  increasing := h.increasing hm
  starts := fun a ha => by
    obtain ⟨m,hmark,rfl⟩ := h.mem_entries.mp ha
    obtain ⟨r,hr⟩ := h.mark_accepted hmark
    refine ⟨⟨r,List.mem_of_getElem? hr⟩,?_⟩
    rw [entryAt_offset (h.mark_start_lt hm hmark),entryAt_position (h.mark_start_lt hm hmark)]
  floor := Index.lookup_ok_iff (h.increasing hm)
  missing := Index.lookup_error_iff (h.increasing hm)
  found := fun i p t q hi hq => by
    obtain ⟨m,hmark,rfl,hlast⟩ := h.lookup_found hm hi hq
    obtain ⟨r,hr⟩ := h.mark_accepted hmark
    refine ⟨m,r,_,hr,?_,?_⟩
    · rw [entryAt_offset (h.mark_start_lt hm hmark),entryAt_position (h.mark_start_lt hm hmark)]
    · rw [between_eq]
      exact h.spaced.gap (m+1) i (h.offset_toNat hm hi).1 hlast
  unfound := fun i p t c hi hc => by
    rw [between_eq]
    refine h.spaced.gap 0 i (h.offset_toNat hm hi).1 fun m hmark hmi => ?_
    rcases Index.lookup_sorted (h.increasing hm) t with ⟨-,hno⟩ | ⟨a,-,hl,-⟩
    · have hle := (h.offset_le_iff hm hi hmark).mpr hmi
      exact (hno _ (h.mem_entries.mpr ⟨m,hmark,rfl⟩) hle).elim
    · rw [hl] at hc
      cases hc

end Indexed

theorem limit_le {cfg : SegmentConfig} (h : cfg.maxSize ≤ 4294967296) :
    cfg.limit.toInt ≤ 2^32 := by
  unfold SegmentConfig.limit
  split
  · decide
  · exact Int64.le_iff_toInt_le.mp h

theorem opened_indexed {dir : List Bytes} {b : ℕ} {cfg : SegmentConfig} {d e : Disk} {s : Segment}
    (ho : openSegment dir b cfg d = (.ok s,e)) (hlog : d.content (logPath dir b) = [])
    (hindex : d.content (indexPath dir b) = []) :
    Indexed ⟨s,e,[]⟩ [] ∧ s.maxSize = cfg.limit := by
  have hsize := (openSegment_sound (by simp [hlog]) ho).2.2.2.1
  cases opening ho with
  | @opened f n idx d₁ d₂ _ hf hst hi =>
      have hne := (logPath_ne_indexPath dir dir b b).symm
      have hd₁ := (openFile_only (logPath dir b) d).content hne
      rw [hf] at hd₁
      have hd₂ : d₂.content (indexPath dir b) = [] := by
        rw [← hindex,← hd₁,Disk.content,Disk.content,(stat_ok hst).2]
      obtain ⟨rfl,-⟩ := openIndex_loaded hi
      rw [hlog] at hsize
      refine ⟨⟨hsize,?_,by simp,?_,Spaced.nil (by decide)⟩,rfl⟩
      · simp only at hsize ⊢
        rw [hsize]
        exact (limit_pos cfg).le
      · rw [hd₂]
        rfl

/-- A segment that was empty when it was opened, and is no larger than `2^32`
bytes, whatever was appended to it and read from it since. -/
theorem lookup_tight_floor {dir : List Bytes} {b : ℕ} {cfg : SegmentConfig} {d e : Disk}
    {s : Segment} {ops : List Op} {σ : Session} (hmax : cfg.maxSize ≤ 4294967296)
    (ho : openSegment dir b cfg d = (.ok s,e)) (hlog : d.content (logPath dir b) = [])
    (hindex : d.content (indexPath dir b) = []) (hops : StaysOpen ops)
    (hrun : (Session.mk s e []).run dir b ops = .ok σ) : TightFloor σ.seg.idx σ.accepted := by
  obtain ⟨hs,hlimit⟩ := opened_indexed ho hlog hindex
  obtain ⟨⟨marked,h⟩,hm⟩ := hs.run hops hrun
  apply h.tightFloor
  rw [hm,hlimit]
  exact limit_le hmax

theorem lookup_tight_floor_flushed :
    ∃ s e σ, openSegment [] 0 ⟨8192⟩ .blank = (.ok s,e) ∧
      (Session.mk s e []).run [] 0 [.append largeRecord,.flush,.append [1]] = .ok σ ∧
      TightFloor σ.seg.idx σ.accepted := by
  obtain ⟨s,e,ho,hs,-,hp,-⟩ := openSegment_healthy (d := .blank) rfl [] 0 ⟨8192⟩
  have hi : (Session.mk s e []).Inv [] 0 := ⟨hs,hp,by simp [Session.log],by simp,by simp⟩
  have hops : ∀ op ∈ [Op.append largeRecord,.flush,.append [1]], op.Short := by
    simp [Op.Short,largeRecord_length]
  obtain ⟨σ,hr,-⟩ := hi.run hops
  exact ⟨s,e,σ,ho,hr,lookup_tight_floor (by decide) ho rfl rfl (by simp [StaysOpen]) hr⟩

end Kage.IndexLookup
