import Kage.FailedAppend
import Kage.DirectoryFrames

/-!
# Acknowledged records after a failed rollover

Records are appended one after another, and the calls that close a segment and
open the next may fail. The state remembers which records were acknowledged
since the active segment was opened, and at which offsets.

A rollover that fails leaves a segment behind whose file is closed or whose
writer has failed, with its size as it was. Nothing can be read from it, so the
records it acknowledged are gone until the partition is opened again. When only
the file is closed, smaller records still go to the buffer and are acknowledged
as well. Every record stays readable exactly when no rollover fails after an
acknowledged append, and no append after it is acknowledged.
-/
namespace Kage.FailedRollover
open ByteStrings LengthPrefixed FaultyDisk BufferedWriter SparseIndex SegmentLog PartitionLog
open SegmentFaults PartitionFaults FailedAppend DirectoryFrames

/-- The store, its disk, and what was acknowledged by the active segment. -/
structure State where
  store : PartitionStore
  disk : Disk
  acked : List (UInt64 × Bytes)

/-- An append, and what the calls of its rollover will answer. -/
structure Op where
  data : Bytes
  faults : List (Option ℕ)
  deriving DecidableEq, Repr

/-- The record goes to the active segment. -/
def Fits (ps : PartitionStore) (data : Bytes) : Prop :=
  ps.active.size+(4+data.length) ≤ ps.active.maxSize.toInt

instance (ps : PartitionStore) (data : Bytes) : Decidable (Fits ps data) :=
  inferInstanceAs (Decidable (_ ≤ _))

/-- Outside a rollover no call fails. -/
def scheduled (σ : State) (op : Op) : Disk :=
  {σ.disk with faults := if Fits σ.store op.data then [] else op.faults}

/-- The append moves on to another segment. -/
def Rolls (σ : State) (op : Op) : Prop :=
  ¬Fits σ.store op.data ∧ (σ.store.rollover (scheduled σ op)).1 = none

instance (σ : State) (op : Op) : Decidable (Rolls σ op) := inferInstanceAs (Decidable (_ ∧ _))

def step (σ : State) (op : Op) : State :=
  let kept := if Rolls σ op then [] else σ.acked
  match σ.store.append op.data (scheduled σ op) with
  | (.ok o,ps,d) => ⟨ps,d,kept++[(o,op.data)]⟩
  | (.error _,ps,d) => ⟨ps,d,kept⟩

def run (σ : State) (ops : List Op) : State := ops.foldl step σ

/-- A condition on every step of a run. -/
def EachStep (P : State → Op → Prop) : State → List Op → Prop
  | _,[] => True
  | σ,op::ops => P σ op ∧ EachStep P (step σ op) ops

/-- A condition on every state of a run. -/
def EachState (P : State → Prop) : State → List Op → Prop
  | σ,[] => P σ
  | σ,op::ops => P σ ∧ EachState P (step σ op) ops

/-- The failures of a step are used up by its rollover. -/
def Confined (σ : State) (op : Op) : Prop :=
  ¬Fits σ.store op.data → (σ.store.rollover (scheduled σ op)).2.2.Healthy

instance (σ : State) (op : Op) : Decidable (Confined σ op) := inferInstanceAs (Decidable (_ → _))

/-- A read of its size at its offset returns each acknowledged record. -/
def Readable (σ : State) : Prop :=
  ∀ x ∈ σ.acked, ∀ n : Int32, n.toInt = 4+x.2.length →
    σ.store.fetch x.1 n σ.disk.calm = .ok (frame x.2)

/-- A read can ask for the whole record. -/
def Requestable (data : Bytes) : Prop := 4+data.length < 2^31

/-- The writer has not failed, its buffer has room for the record, and that of
the index for the entry if one is due and its file is closed. -/
def HasRoom (s : Segment) (data : Bytes) : Prop :=
  s.bw.err = none ∧ 4+data.length ≤ s.bw.available ∧
    (s.idx.bytesWrittenSinceLastEntry+(4+data.length) < IndexIntervalBytes ∨
      s.idx.bw.err = none ∧
        (indexEntrySize ≤ s.idx.bw.available ∨ s.idx.file.closed = false))

/-- No record is left in the buffers of a stuck segment, and no call of a
rollover fails once a record is acknowledged. -/
def Meets (σ : State) (op : Op) : Prop :=
  if Fits σ.store op.data then
    Stuck σ.store.active → Requestable op.data → ¬HasRoom σ.store.active op.data
  else
    (∃ f ∈ op.faults, f ≠ none) → ∀ x ∈ σ.acked, ¬Requestable x.2

/-- The store is usable, or stuck for good; no failures are left. -/
structure Ready (dir : List Bytes) (ps : PartitionStore) (d : Disk) : Prop where
  stable : Stable dir ps d
  healthy : d.Healthy
  live : ¬Stuck ps.active → ps.active.idx.Live

section Appends
variable {dir : List Bytes} {ps qs : PartitionStore} {d e : Disk} {data : Bytes}

theorem Ready.housed (h : Ready dir ps d) : Housed ps.dir ps.active := by
  rw [h.stable.root]
  exact ⟨by rw [h.stable.path]; rfl,by rw [h.stable.idxPath]; rfl⟩

theorem Ready.holds (h : Ready dir ps d) (hs : ¬Stuck ps.active) :
    ps.active.Holds d (ps.active.bytes d) where
  healthy := h.healthy
  opened := by simpa using fun hx => hs (.inl hx)
  live := by simpa using fun hx => hs (.inr hx)
  index := h.live hs
  apart := h.stable.sound.1.apart
  mem := h.stable.sound.1.mem
  bytes := rfl
  size := h.stable.sound.1.counted hs

/-- A record that fits goes to the end of a segment that is not stuck. -/
theorem Ready.append_live (h : Ready dir ps d) (hs : ¬Stuck ps.active) (hf : Fits ps data) :
    ∃ s e, ps.active.append data d = (.ok (UInt64.ofNat ps.active.size),s,e) ∧
      Ready dir {ps with active := s} e ∧ ¬Stuck s ∧
      s.bytes e = ps.active.bytes d++frame data := by
  obtain ⟨s,e,ha,ht,-,-⟩ := Segment.append_fits (h.holds hs) hf
  exact ⟨s,e,ha,⟨h.stable.append_active ha,ht.healthy,fun _ => ht.index⟩,
    not_stuck ht.opened ht.live,ht.bytes⟩

theorem append_stuck {s : Segment} (hs : Stuck s) (data : Bytes) (d : Disk) :
    Stuck (s.append data d).2.1 := by
  rcases ha : s.append data d with ⟨r,t,e⟩
  cases he : s.bw.err with
  | some x =>
      have hw : ∀ p, s.bw.write s.file p d = (some x,s.bw,d) := by
        intro p
        rw [Writer.write_err (by simp [he]),he]
      cases Segment.appending ha with
      | full => exact hs
      | header hf h₁ =>
          rw [hw] at h₁
          cases h₁
          exact hs
      | payload hf h₁ => simp [hw] at h₁
      | written hf h₁ => simp [hw] at h₁
  | none =>
      have hf : s.file.closed = true := hs.resolve_right fun hx => hx he
      left
      cases Segment.appending ha <;> exact hf

/-- A record that fits is not met by a full segment. -/
theorem append_ne_full (hf : Fits ps data) :
    (ps.active.append data d).1 ≠ .error ErrSegmentFull := by
  intro hx
  rcases ha : ps.active.append data d with ⟨r,s,e⟩
  rw [ha] at hx
  obtain rfl : r = _ := hx
  cases Segment.appending ha with
  | full hn =>
      simp only [recordHeaderSize] at hn
      unfold Fits at hf
      omega
  | @written x bw₁ bw₂ idx d₁ d₂ e r hn h₁ h₂ h₃ hr => cases x <;> simp [ErrSegmentFull] at hr

/-- A record that fits is a matter of the active segment. -/
theorem append_of_fits (hf : Fits ps data) :
    ∃ r, ps.append data d =
        (r,{ps with active := (ps.active.append data d).2.1},(ps.active.append data d).2.2) ∧
      ∀ o, r = .ok o ↔ (ps.active.append data d).1 = .ok o := by
  have hne := append_ne_full (d := d) hf
  unfold PartitionStore.append
  rcases ha : ps.active.append data d with ⟨r,s,e⟩
  rw [ha] at hne
  cases r with
  | ok o => exact ⟨_,rfl,fun _ => Iff.rfl⟩
  | error x =>
      simp only
      rw [if_neg fun hx => hne (by rw [hx])]
      exact ⟨_,rfl,fun o => by simp⟩

theorem maybeAppend_accepts_iff {x : Index} (hd : d.Healthy) (o : UInt64) (p : UInt32) (n : ℕ) :
    (x.maybeAppend o p n d).1 = none ↔ x.bytesWrittenSinceLastEntry+n < IndexIntervalBytes ∨
      x.bw.err = none ∧ (indexEntrySize ≤ x.bw.available ∨ x.file.closed = false) := by
  have hw := Writer.write_accepts_iff (w := x.bw) (f := x.file)
    (p := putUint 8 o.toNat++putUint 4 p.toNat) hd
  rw [List.length_append,putUint_length,putUint_length] at hw
  rcases hx : x.maybeAppend o p n d with ⟨r,y,e⟩
  cases Index.considering hx with
  | early h => simp [h]
  | failed h h₁ =>
      rw [h₁] at hw
      simpa [h,indexEntrySize] using hw
  | written h h₁ =>
      rw [h₁] at hw
      simpa [h,indexEntrySize] using hw.mp rfl

/-- A stuck segment acknowledges what its buffers have room for. -/
theorem append_stuck_ok_iff {s : Segment} (hs : Stuck s) (hd : d.Healthy)
    (hf : s.size+(4+data.length) ≤ s.maxSize.toInt) :
    (∃ o, (s.append data d).1 = .ok o) ↔ HasRoom s data := by
  have hfull : ¬s.maxSize.toInt < s.size+((recordHeaderSize+data.length : ℕ) : ℤ) := by
    simp only [recordHeaderSize]
    omega
  have haccepts (w : Writer) (p : Bytes) (he : w.err = s.bw.err) :
      (w.write s.file p d).1 = none ↔ w.err = none ∧ p.length ≤ w.available := by
    rw [Writer.write_accepts_iff hd,and_congr_right_iff]
    intro hw
    have hc : s.file.closed = true := hs.resolve_right fun hx => hx (he ▸ hw)
    simp [hc]
  have hheader := haccepts s.bw (putUint 4 data.length) rfl
  rw [putUint_length] at hheader
  unfold Segment.append HasRoom
  simp only [if_neg hfull]
  rcases hw₁ : s.bw.write s.file (putUint 4 data.length) d with ⟨_|x,bw₁,d₁⟩
  · rw [hw₁] at hheader
    obtain ⟨he,h4⟩ := hheader.mp rfl
    rw [Writer.write_of_room he (by rwa [putUint_length])] at hw₁
    cases hw₁
    have hpayload := haccepts ⟨s.bw.capacity,s.bw.buf++putUint 4 data.length,s.bw.err⟩ data rfl
    have hsame := Writer.write_stuck (d := d) (p := data)
      (w := ⟨s.bw.capacity,s.bw.buf++putUint 4 data.length,s.bw.err⟩) hs
    have havail : Writer.available ⟨s.bw.capacity,s.bw.buf++putUint 4 data.length,s.bw.err⟩ =
        s.bw.available-4 := by
      simp [Writer.available,Nat.sub_sub]
    rw [havail] at hpayload
    simp only
    rcases hw₂ : Writer.write ⟨s.bw.capacity,s.bw.buf++putUint 4 data.length,s.bw.err⟩ s.file data
      d with ⟨_|x,bw₂,d₂⟩
    · rw [hw₂] at hpayload hsame
      obtain rfl : d₂ = d := hsame
      obtain ⟨-,hlen⟩ := hpayload.mp rfl
      have hroom : 4+data.length ≤ s.bw.available := by omega
      have hentry := maybeAppend_accepts_iff (x := s.idx) hd (UInt64.ofNat s.size)
        (UInt64.ofNat s.size).toUInt32 (recordHeaderSize+data.length)
      rcases hm : s.idx.maybeAppend (UInt64.ofNat s.size) (UInt64.ofNat s.size).toUInt32
        (recordHeaderSize+data.length) d₂ with ⟨_|x,idx,d₃⟩
      · rw [hm] at hentry
        simp only [hm]
        simpa [he,hroom,recordHeaderSize] using hentry
      · rw [hm] at hentry
        simp only [hm]
        simpa [he,hroom,recordHeaderSize] using hentry
    · rw [hw₂] at hpayload
      have hlen : ¬4+data.length ≤ s.bw.available := fun hx =>
        absurd (hpayload.mpr ⟨he,by omega⟩) (by simp)
      simp [hlen]
  · rw [hw₁] at hheader
    have h4 : s.bw.err = none → ¬4+data.length ≤ s.bw.available := fun he hx =>
      absurd (hheader.mpr ⟨he,by omega⟩) (by simp)
    simpa using fun he hx => (h4 he hx).elim

theorem append_of_not_fits (hf : ¬Fits ps data) :
    ps.append data d =
      match ps.rollover d with
      | (some e,ps,d) => (.error e,ps,d)
      | (none,ps,d) =>
          match ps.active.append data d with
          | (.ok offset,seg,d) => (.ok offset,{ps with active := seg},d)
          | (.error e,seg,d) =>
              (.error (.wrap "storage: partition store append" e),{ps with active := seg},d) := by
  have ha : ps.active.append data d = (.error ErrSegmentFull,ps.active,d) :=
    Segment.append_full _ _ (not_le.mp hf)
  unfold PartitionStore.append
  rw [ha]
  exact if_pos rfl

theorem openSegment_live {b : ℕ} {cfg : SegmentConfig} {s : Segment}
    (h : openSegment dir b cfg d = (.ok s,e)) : s.idx.Live := by
  cases opening h with
  | opened hf hs hi => exact (openIndex_ok hi).2

/-- The rollover of a usable segment succeeds if none of its calls fails. -/
theorem rollover_unfailing {r : Option Err} (hs : ¬Stuck ps.active) (hx : ps.active.idx.Live)
    (h : ps.rollover d = (r,qs,e)) : r = none ∧ e.Unfailing ↔ d.Unfailing := by
  obtain ⟨x,t,d₁,hc,hcases⟩ := rollover_cases h
  rw [← segmentClose_unfailing hs hx hc]
  rcases hcases with ⟨c,rfl,rfl,-,rfl⟩|⟨c,rfl,rfl,ho,-⟩|⟨s,rfl,rfl,ho,-⟩
  · simp
  · simp [← openSegment_unfailing ho]
  · simp [← openSegment_unfailing ho]

/-- A rollover that fails leaves a stuck segment, and one that succeeds a
usable one. -/
theorem rollover_ready {fs : List (Option ℕ)} {r : Option Err} (h : Ready dir ps d)
    (hr : ps.rollover {d with faults := fs} = (r,qs,e)) (he : e.Healthy) :
    Ready dir qs e ∧ (Stuck qs.active ↔ r ≠ none) := by
  have hst := h.stable.reschedule fs
  have hq := hst.rollover hr
  obtain ⟨x,t,d₁,hc,hcases⟩ := rollover_cases hr
  have hcl := close_sound hst.sound hc
  rcases hcases with ⟨c,-,rfl,rfl,rfl⟩ | ⟨c,-,rfl,-,rfl⟩ | ⟨s,-,rfl,ho,rfl⟩
  · exact ⟨⟨hq,he,fun hn => (hn hcl.stuck).elim⟩,fun _ => by simp,fun _ => hcl.stuck⟩
  · exact ⟨⟨hq,he,fun hn => (hn hcl.stuck).elim⟩,fun _ => by simp,fun _ => hcl.stuck⟩
  · have hsmall := (hst.of_close hcl).small (ps.nextBase+ps.active.size)
    rw [← h.stable.root] at hsmall
    obtain ⟨-,hns,-⟩ := openSegment_sound hsmall ho
    exact ⟨⟨hq,he,fun _ => openSegment_live ho⟩,fun hs => (hns hs).elim,fun hn => (hn rfl).elim⟩

end Appends

/-- The record stands in the log at its offset. -/
def Held (log : Bytes) (x : UInt64 × Bytes) : Prop :=
  ∃ before rest, log = before++(frame x.2++rest) ∧ x.1 = UInt64.ofNat before.length

/-- A segment that is not stuck holds all that it acknowledged. -/
structure Inv (dir : List Bytes) (σ : State) : Prop where
  ready : Ready dir σ.store σ.disk
  held : ¬Stuck σ.store.active → ∀ x ∈ σ.acked, Held (σ.store.active.bytes σ.disk) x

/-- What is stuck has acknowledged nothing. -/
def Good (σ : State) : Prop := Stuck σ.store.active → ∀ x ∈ σ.acked, ¬Requestable x.2

section Reading
variable {dir : List Bytes} {σ : State}

theorem Held.append {log : Bytes} {x : UInt64 × Bytes} (h : Held log x) (more : Bytes) :
    Held (log++more) x := by
  obtain ⟨before,rest,rfl,ho⟩ := h
  exact ⟨before,rest++more,by simp,ho⟩

theorem held_last (log data : Bytes) : Held (log++frame data) (UInt64.ofNat log.length,data) :=
  ⟨log,[],by simp,rfl⟩

theorem view_frame {before rest data : Bytes} {n : Int32}
    (hl : (before++(frame data++rest)).length < 2^63) (hn : n.toInt = 4+data.length) :
    view (before++(frame data++rest)) (UInt64.ofNat before.length) n = .ok (frame data) := by
  have hlen : (before++(frame data++rest)).length = before.length+(4+data.length+rest.length) := by
    simp
  have hoff : before.length < (before++(frame data++rest)).length := by omega
  obtain ⟨k,hr,hk⟩ := readRange_of_lt hl hoff (n := n) (by omega)
  have ho := toInt64_ofNat (n := before.length) (by omega)
  have hz : (0 : Int64).toInt = 0 := rfl
  have hkn : k.toInt.toNat = (frame data).length := by
    rw [frame_length]
    omega
  have hw := window_skip (rfl : before.length = _) (frame data++rest) 0 (frame data).length
  rw [Nat.add_zero,window_head rfl] at hw
  rw [view,hr]
  simp only [Int64.lt_iff_toInt_lt,ho,hz]
  rw [if_neg (by omega),hkn,Int.toNat_natCast,hw]

theorem Held.view {log : Bytes} {x : UInt64 × Bytes} (h : Held log x) (hl : log.length < 2^63)
    {n : Int32} (hn : n.toInt = 4+x.2.length) : PartitionLog.view log x.1 n = .ok (frame x.2) := by
  obtain ⟨before,rest,rfl,ho⟩ := h
  rw [ho]
  exact view_frame hl hn

/-- All acknowledged records can be read unless the segment that has them is
stuck. -/
theorem Inv.readable_iff (h : Inv dir σ) : Readable σ ↔ Good σ := by
  constructor
  · intro hread hs x hx hreq
    have hn : (Int32.ofNat (4+x.2.length)).toInt = 4+x.2.length := by
      rw [Int32.toInt_ofNat_of_lt hreq]
      omega
    have hf := hread x hx _ hn
    obtain ⟨y,hy⟩ := fetch_stuck hs x.1 (Int32.ofNat (4+x.2.length)) σ.disk.calm
    rw [hy] at hf
    cases hf
  · intro hgood x hx n hn
    by_cases hs : Stuck σ.store.active
    · have hreq : Requestable x.2 := by
        have hlt := n.toInt_lt
        unfold Requestable
        omega
      exact absurd hreq (hgood hs x hx)
    · have hsize := h.ready.stable.sound.2
      rw [size_eq_bytes h.ready.stable hs] at hsize
      rw [fetch_live h.ready.stable hs]
      exact (h.held hs x hx).view hsize hn

end Reading

section Steps
variable {dir : List Bytes} {σ : State} {op : Op}

theorem scheduled_of_fits (hd : σ.disk.Healthy) (hf : Fits σ.store op.data) :
    scheduled σ op = σ.disk := by
  rw [scheduled,if_pos hf,← show σ.disk.faults = [] from hd]

theorem scheduled_of_not_fits (hf : ¬Fits σ.store op.data) :
    scheduled σ op = {σ.disk with faults := op.faults} := by
  rw [scheduled,if_neg hf]

/-- A record that fits, on a segment that is not stuck. -/
theorem Inv.step_live (h : Inv dir σ) (hf : Fits σ.store op.data) (hs : ¬Stuck σ.store.active) :
    Inv dir (step σ op) ∧ ¬Stuck (step σ op).store.active := by
  obtain ⟨s,e,ha,hr,hns,hb⟩ := h.ready.append_live hs hf
  have hsize := size_eq_bytes h.ready.stable hs
  have hstep : step σ op = ⟨{σ.store with active := s},e,
      σ.acked++[(UInt64.ofNat σ.store.active.size,op.data)]⟩ := by
    simp only [step,scheduled_of_fits h.ready.healthy hf,PartitionStore.append,ha]
    rw [if_neg fun hx => hx.1 hf]
  rw [hstep]
  refine ⟨⟨hr,fun _ x hx => ?_⟩,hns⟩
  simp only
  rw [hb]
  rcases List.mem_append.mp hx with hx|hx
  · exact (h.held hs x hx).append _
  · rw [List.mem_singleton.mp hx,hsize]
    exact held_last _ _

/-- A record that fits, on a stuck segment. -/
theorem Inv.step_stuck (h : Inv dir σ) (hf : Fits σ.store op.data) (hs : Stuck σ.store.active) :
    Inv dir (step σ op) ∧ Stuck (step σ op).store.active ∧
      ∀ x, x ∈ (step σ op).acked ↔ x ∈ σ.acked ∨
        (x.2 = op.data ∧ (σ.store.active.append op.data σ.disk).1 = .ok x.1) := by
  obtain ⟨r,ha,hr⟩ := append_of_fits (d := σ.disk) hf
  have hst := append_stuck hs op.data σ.disk
  have hstable := h.ready.stable.append op.data
  have hw := (storeAppend_within h.ready.housed op.data σ.disk).1.healthy h.ready.healthy
  rw [ha] at hstable hw
  have hready : Ready dir {σ.store with active := (σ.store.active.append op.data σ.disk).2.1}
      (σ.store.active.append op.data σ.disk).2.2 := ⟨hstable,hw,fun hn => (hn hst).elim⟩
  have hroll : ¬Rolls σ op := fun hx => hx.1 hf
  rw [step,scheduled_of_fits h.ready.healthy hf,ha]
  cases r with
  | error x =>
      simp only [if_neg hroll]
      exact ⟨⟨hready,fun hn => (hn hst).elim⟩,hst,fun x => by simp [← hr]⟩
  | ok o =>
      simp only [if_neg hroll]
      refine ⟨⟨hready,fun hn => (hn hst).elim⟩,hst,fun x => ?_⟩
      rw [List.mem_append,List.mem_singleton,← hr,Except.ok.injEq,Prod.ext_iff]
      constructor
      · exact Or.imp_right fun hx => ⟨hx.2,hx.1.symm⟩
      · exact Or.imp_right fun hx => ⟨hx.2.symm,hx.1⟩

/-- A rollover of a usable segment fails exactly if one of its calls does. -/
theorem Inv.rollover_none_iff (h : Inv dir σ) (hs : ¬Stuck σ.store.active) (hc : Confined σ op)
    (hf : ¬Fits σ.store op.data) :
    (σ.store.rollover (scheduled σ op)).1 = none ↔ ¬∃ f ∈ op.faults, f ≠ none := by
  have he := hc hf
  rcases hx : σ.store.rollover (scheduled σ op) with ⟨r,qs,e⟩
  rw [hx] at he
  have hrest : e.Unfailing := by
    rw [Disk.Unfailing,show e.faults = [] from he]
    simp
  have hiff := rollover_unfailing hs (h.ready.live hs) hx
  rw [scheduled_of_not_fits hf,and_iff_left hrest] at hiff
  rw [hiff]
  simp [Disk.Unfailing]

/-- A record that does not fit, and a rollover that fails. -/
theorem Inv.step_failed (h : Inv dir σ) (hc : Confined σ op) (hf : ¬Fits σ.store op.data)
    (hr : (σ.store.rollover (scheduled σ op)).1 ≠ none) :
    Inv dir (step σ op) ∧ Stuck (step σ op).store.active ∧ (step σ op).acked = σ.acked := by
  have he := hc hf
  rcases hx : σ.store.rollover (scheduled σ op) with ⟨x,qs,e⟩
  have hnot : ¬Rolls σ op := fun hy => hr hy.2
  have hstep := append_of_not_fits (d := scheduled σ op) hf
  rw [hx] at he hr hstep
  cases x with
  | none => exact (hr rfl).elim
  | some x =>
      rw [scheduled_of_not_fits hf] at hx
      obtain ⟨hready,hst⟩ := rollover_ready h.ready hx he
      have hstuck := hst.mpr hr
      have hstep : FailedRollover.step σ op = ⟨qs,e,σ.acked⟩ := by
        simp only [FailedRollover.step,hstep,if_neg hnot]
      rw [hstep]
      exact ⟨⟨hready,fun hn => (hn hstuck).elim⟩,hstuck,rfl⟩

/-- A record that does not fit, and a rollover that succeeds. -/
theorem Inv.step_rolls (h : Inv dir σ) (hc : Confined σ op) (hr : Rolls σ op) :
    Inv dir (step σ op) ∧ ¬Stuck (step σ op).store.active := by
  have he := hc hr.1
  rcases hx : σ.store.rollover (scheduled σ op) with ⟨x,qs,e⟩
  have hstep := append_of_not_fits (d := scheduled σ op) hr.1
  have hnone := hr.2
  rw [hx] at he hnone hstep
  obtain rfl : x = none := hnone
  rw [scheduled_of_not_fits hr.1] at hx
  obtain ⟨hready,hst⟩ := rollover_ready h.ready hx he
  have hns : ¬Stuck qs.active := fun hs => hst.mp hs rfl
  by_cases hf : Fits qs op.data
  · obtain ⟨s,e',ha,hready',hns',hb⟩ := hready.append_live hns hf
    have hstep : FailedRollover.step σ op = ⟨{qs with active := s},e',
        [(UInt64.ofNat qs.active.size,op.data)]⟩ := by
      simp only [FailedRollover.step,hstep,if_pos hr,ha,List.nil_append]
    rw [hstep]
    refine ⟨⟨hready',fun _ x hx => ?_⟩,hns'⟩
    rw [List.mem_singleton.mp hx,size_eq_bytes hready.stable hns]
    simp only
    rw [hb]
    exact held_last _ _
  · have ha : qs.active.append op.data e = (.error ErrSegmentFull,qs.active,e) :=
      Segment.append_full _ _ (not_le.mp hf)
    have hstep : FailedRollover.step σ op = ⟨qs,e,[]⟩ := by
      simp only [FailedRollover.step,hstep,if_pos hr,ha]
    rw [hstep]
    exact ⟨⟨hready,fun _ x hx => by cases hx⟩,hns⟩

/-- The condition on a step is what keeps a good state good. -/
theorem Inv.step (h : Inv dir σ) (hg : Good σ) (hc : Confined σ op) :
    Inv dir (step σ op) ∧ (Good (step σ op) ↔ Meets σ op) := by
  by_cases hf : Fits σ.store op.data
  · rw [Meets,if_pos hf]
    by_cases hs : Stuck σ.store.active
    · obtain ⟨hi,hst,hm⟩ := h.step_stuck hf hs
      have hroom := append_stuck_ok_iff hs h.ready.healthy hf
      refine ⟨hi,fun hgood _ hreq hr => ?_,fun hmeets _ x hx => ?_⟩
      · obtain ⟨o,ho⟩ := hroom.mpr hr
        exact hgood hst (o,op.data) ((hm _).mpr (.inr ⟨rfl,ho⟩)) hreq
      · rcases (hm x).mp hx with hx|⟨hd,ho⟩
        · exact hg hs x hx
        · rw [hd]
          exact fun hreq => hmeets hs hreq (hroom.mp ⟨_,ho⟩)
    · obtain ⟨hi,hns⟩ := h.step_live hf hs
      exact ⟨hi,fun _ hx => (hs hx).elim,fun _ hx => (hns hx).elim⟩
  · rw [Meets,if_neg hf]
    by_cases hr : (σ.store.rollover (scheduled σ op)).1 = none
    · obtain ⟨hi,hns⟩ := h.step_rolls hc ⟨hf,hr⟩
      refine ⟨hi,fun _ hx => ?_,fun _ hx => (hns hx).elim⟩
      by_cases hs : Stuck σ.store.active
      · exact hg hs
      · exact absurd hx ((h.rollover_none_iff hs hc hf).mp hr)
    · obtain ⟨hi,hst,ha⟩ := h.step_failed hc hf hr
      refine ⟨hi,fun hgood _ => ?_,fun hmeets _ => ?_⟩
      · rw [← ha]
        exact hgood hst
      · rw [ha]
        by_cases hs : Stuck σ.store.active
        · exact hg hs
        · exact hmeets (not_not.mp (mt (h.rollover_none_iff hs hc hf).mpr hr))

theorem Inv.run (h : Inv dir σ) (hg : Good σ) {ops : List Op} (hc : EachStep Confined σ ops) :
    EachState Readable σ ops ↔ EachStep Meets σ ops := by
  induction ops generalizing σ with
  | nil => exact ⟨fun _ => trivial,fun _ => h.readable_iff.mpr hg⟩
  | cons op ops ih =>
      obtain ⟨hi,hiff⟩ := h.step hg hc.1
      constructor
      · rintro ⟨-,hrest⟩
        have hread : Readable (FailedRollover.step σ op) := by
          cases ops with
          | nil => exact hrest
          | cons op' ops => exact hrest.1
        have hgood := hi.readable_iff.mp hread
        exact ⟨hiff.mp hgood,(ih hi hgood hc.2).mp hrest⟩
      · rintro ⟨hmeets,hrest⟩
        exact ⟨h.readable_iff.mpr hg,(ih hi (hiff.mpr hmeets) hc.2).mpr hrest⟩

end Steps

/-- Exactly when every acknowledged record can be read in every state of a run
in which rollovers may fail. -/
theorem acked_readable_iff {dir : List Bytes} {cfg : SegmentConfig} {d e : Disk}
    {ps : PartitionStore} {ops : List Op} (hs : Small dir d)
    (ho : openPartitionStore dir cfg d.calm = (.ok ps,e))
    (hc : EachStep Confined ⟨ps,e,[]⟩ ops) :
    EachState Readable ⟨ps,e,[]⟩ ops ↔ EachStep Meets ⟨ps,e,[]⟩ ops := by
  unfold openPartitionStore at ho
  rcases hx : openSegment dir 0 cfg d.calm with ⟨r,e'⟩
  rw [hx] at ho
  cases r with
  | error x => cases ho
  | ok s =>
      simp only [Prod.mk.injEq,Except.ok.injEq] at ho
      obtain ⟨rfl,rfl⟩ := ho
      have hst := stable_of_open (d := d.calm) hs hx
      have hd : e'.Healthy := by
        have hw := (openSegment_within dir 0 cfg d.calm).1.healthy rfl
        rwa [hx] at hw
      have hready : Ready dir ⟨dir,cfg,s,0⟩ e' := ⟨hst,hd,fun _ => openSegment_live hx⟩
      exact Inv.run ⟨hready,fun _ x hm => by cases hm⟩ (fun _ x hm => by cases hm) hc

/-- A partition that was opened on an empty directory with a limit of twenty. -/
def opened : State where
  store := ⟨[],⟨20⟩,⟨⟨logPath [] 0,false⟩,{capacity := writeBufferSize},
    ⟨⟨indexPath [] 0,false⟩,{capacity := indexWriteBufferSize},[],0⟩,0,0,20⟩,0⟩
  disk := (Disk.blank.create (logPath [] 0)).create (indexPath [] 0)
  acked := []

theorem open_blank : openPartitionStore [] ⟨20⟩ Disk.blank.calm = (.ok opened.store,opened.disk) :=
  rfl

theorem small_blank : Small [] .blank := by
  intro b
  rw [Disk.content,show Disk.blank.files.lookup (logPath [] b) = none from rfl]
  decide

/-- Two records that fit side by side. -/
theorem two_records_readable : EachState Readable opened [⟨[1],[]⟩,⟨[2],[]⟩] := by
  have hc : EachStep Confined opened [⟨[1],[]⟩,⟨[2],[]⟩] :=
    ⟨by decide +kernel,by decide +kernel,trivial⟩
  refine (acked_readable_iff small_blank open_blank hc).mpr ⟨?_,?_,trivial⟩
  · rw [Meets,if_pos (by decide +kernel)]
    exact fun hs => absurd hs (by decide +kernel)
  · rw [Meets,if_pos (by decide +kernel)]
    exact fun hs => absurd hs (by decide +kernel)

/-- Six bytes, sixteen that need another segment, which cannot be opened, and
one byte that fits in what is left of the first. -/
def trouble : List Op :=
  [⟨List.replicate 6 7,[]⟩,⟨List.replicate 16 8,[none,none,none,some 0]⟩,⟨[9],[]⟩]

/-- The first and the last record are acknowledged, and neither can be read. -/
theorem failed_rollover_loses_records :
    EachStep Confined opened trouble ∧ ¬EachState Readable opened trouble ∧
      (run opened trouble).acked = [(0,List.replicate 6 7),(10,[9])] ∧
      (run opened trouble).store.fetch 0 10 (run opened trouble).disk.calm =
        .error (.wrap "storage: flush before read" .closed) ∧
      (run opened trouble).store.fetch 10 5 (run opened trouble).disk.calm =
        .error (.wrap "storage: flush before read" .closed) := by
  have hacked : (run opened trouble).acked = [(0,List.replicate 6 7),(10,[9])] := by
    decide +kernel
  have hread : (run opened trouble).store.fetch 10 5 (run opened trouble).disk.calm =
      .error (.wrap "storage: flush before read" .closed) := by decide +kernel
  refine ⟨⟨by decide +kernel,by decide +kernel,by decide +kernel,trivial⟩,fun hr => ?_,hacked,
    by decide +kernel,hread⟩
  have hlast : Readable (run opened trouble) := hr.2.2.2
  have hok := hlast (10,[9]) (by rw [hacked]; simp) 5 (by decide)
  rw [hread] at hok
  cases hok

end Kage.FailedRollover
