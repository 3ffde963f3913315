import Kage.ConfigLoading
import Kage.IndexLookup

/-!
# Positions in large segments

An entry has the offset of its record twice: in full, and as a position of
thirty-two bits. The configuration admits segments of up to `2^40` bytes. Beyond
the first `2^32` bytes of a segment the position is what is left of the offset
modulo `2^32`, so it is right exactly for the records that start before.
-/
namespace Kage.IndexPositions
open ByteStrings LengthPrefixed FaultyDisk BufferedWriter SparseIndex SegmentLog SegmentFaults
open SegmentRuns IndexLookup ConfigLoading
open SegmentAtomicity (stored_of_written)

/-- An append of the run wrote the entry `a` for a record that starts at byte `n`
of the log. -/
def Writes (dir : List Bytes) (b : ℕ) (σ : Session) (ops : List Op) (a : Entry) (n : ℕ) : Prop :=
  ∃ before p after τ o t e earlier, ops = before++.append p::after ∧
    σ.run dir b before = .ok τ ∧ τ.seg.append p τ.disk = (.ok o,t,e) ∧
    t.idx.entries = τ.seg.idx.entries++[a] ∧ t.bytes e = earlier++frame p ∧ n = earlier.length

section Runs
variable {dir : List Bytes} {b : ℕ} {σ τ : Session} {ops : List Op}

/-- The size of the segment is that of its log, and its file is open. -/
def Usable (σ : Session) : Prop := Sound σ.seg σ.disk ∧ σ.seg.file.closed = false

theorem Usable.step (h : Usable σ) (hs : Stepping σ τ) : Usable τ := by
  cases hs with
  | appended ha _ =>
      obtain ⟨hsound,hhandles,-⟩ := append_sound h.1 ha
      exact ⟨hsound,by rw [hhandles.1]; exact h.2⟩
  | rested hr hsound _ =>
      obtain ⟨bw,iw,hr⟩ := hr
      exact ⟨hsound h.1,by rw [hr]; exact h.2⟩

/-- An accepted record follows the bytes of the log, and starts at their number. -/
theorem Usable.append (h : Usable σ) {p : Bytes} {o : UInt64} {t : Segment} {e : Disk}
    (ha : σ.seg.append p σ.disk = (.ok o,t,e)) :
    t.bytes e = σ.seg.bytes σ.disk++frame p ∧ σ.seg.size = (σ.seg.bytes σ.disk).length := by
  cases Segment.appending ha with
  | written hfit hw₁ hw₂ hi hr =>
      have hst := stored_of_written hw₁ hw₂ hi
      have herr : σ.seg.bw.err = none := by
        by_contra hx
        rw [Writer.write_err hx] at hw₁
        exact hx (Prod.mk.inj hw₁).1
      exact ⟨hst.2 h.1.1.mem h.1.1.apart,h.1.1.counted (not_stuck h.2 herr)⟩

theorem Writes.position {a : Entry} {n : ℕ} (h : Usable σ) (hops : StaysOpen ops)
    (hw : Writes dir b σ ops a n) : n < 2^63 ∧ a = entryAt n := by
  obtain ⟨before,p,after,τ,o,t,e,earlier,rfl,hrun,ha,hentries,hbytes,rfl⟩ := hw
  have hτ := run_preserves Usable.step h
    (fun cfg hmem => hops cfg (List.mem_append_left _ hmem)) hrun
  obtain ⟨hstored,hsize⟩ := hτ.append ha
  obtain rfl : earlier = τ.seg.bytes τ.disk := List.append_cancel_right (hbytes.symm.trans hstored)
  rw [← hsize]
  refine ⟨hτ.1.2,?_⟩
  rcases (append_appended ha).index with ⟨-,-,hsame⟩ | ⟨-,-,hnew⟩
  · rw [hsame] at hentries
    simpa using congrArg List.length hentries
  · rw [hnew] at hentries
    exact (List.singleton_inj.mp (List.append_cancel_left hentries)).symm

end Runs

theorem entryAt_position_eq_iff {n : ℕ} (h : n < 2^63) :
    (entryAt n).position.toNat = n ↔ n < 2^32 := by
  rw [entryAt,UInt64.toNat_toUInt32,UInt64.toNat_ofNat_of_lt' (h.trans (by decide)),
    Nat.mod_eq_iff_lt (by decide)]

/-- In every run on an open segment, whatever its size, the positions of the
entries are exact if and only if no record with an entry starts at or behind
byte `2^32` of the log. -/
theorem positions_exact_iff {dir : List Bytes} {b : ℕ} {cfg : SegmentConfig} {d e : Disk}
    {s : Segment} {ops : List Op} (ho : openSegment dir b cfg d = (.ok s,e))
    (hsmall : (d.content (logPath dir b)).length < 2^63) (hops : StaysOpen ops) :
    (∀ a n, Writes dir b ⟨s,e,[]⟩ ops a n → a.position.toNat = n) ↔
      ∀ a n, Writes dir b ⟨s,e,[]⟩ ops a n → n < 2^32 := by
  obtain ⟨hsound,hstuck,-⟩ := openSegment_sound hsmall ho
  have husable : Usable ⟨s,e,[]⟩ := by
    refine ⟨hsound,?_⟩
    by_contra hclosed
    exact hstuck (.inl (Bool.not_eq_false _ ▸ hclosed))
  refine forall_congr' fun a => forall_congr' fun n => imp_congr_right fun hw => ?_
  obtain ⟨hn,rfl⟩ := hw.position husable hops
  exact entryAt_position_eq_iff hn

section Large
variable {p : Bytes}

theorem append_large {s : Segment} {d : Disk} {log : Bytes} (hp : (frame p).length = 2^31)
    (h : s.Holds d log) (hfit : (log.length : ℤ)+2^31 ≤ s.maxSize.toInt) :
    ∃ t e, s.append p d = (.ok (UInt64.ofNat s.size),t,e) ∧ t.Holds e (log++frame p) ∧
      t.maxSize = s.maxSize ∧ t.idx.entries = s.idx.entries++[entryAt log.length] := by
  have hroom : (s.size : ℤ)+(4+p.length) ≤ s.maxSize.toInt := by
    rw [frame_length] at hp
    rw [h.size]
    omega
  obtain ⟨t,e,ha,ht,hh,-⟩ := Segment.append_fits h hroom
  refine ⟨t,e,ha,ht,hh.2.2.2,?_⟩
  rcases (append_appended ha).index with ⟨hn,-⟩ | ⟨-,-,hnew⟩
  · rw [frameSize,hp,IndexIntervalBytes] at hn
    omega
  · rw [hnew,h.size]

/-- The third of three records of `2^31` bytes. -/
theorem writes_large {s : Segment} {e : Disk} (hp : (frame p).length = 2^31) (hs : s.Holds e [])
    (hmax : (3 : ℤ)*2^31 ≤ s.maxSize.toInt) :
    Writes [] 0 ⟨s,e,[]⟩ [.append p,.append p,.append p] (entryAt (2^32)) (2^32) := by
  obtain ⟨s₁,d₁,h₁,hs₁,hm₁,-⟩ := append_large hp hs (by simp only [List.length_nil]; omega)
  rw [List.nil_append] at hs₁
  obtain ⟨s₂,d₂,h₂,hs₂,hm₂,-⟩ := append_large hp hs₁ (by rw [hm₁,hp]; omega)
  have hl : (frame p++frame p).length = 2^32 := by
    rw [List.length_append,hp]
    rfl
  obtain ⟨s₃,d₃,h₃,hs₃,-,he₃⟩ := append_large hp hs₂ (by rw [hm₂,hm₁,hl]; omega)
  rw [hl] at he₃
  have hrun : (Session.mk s e []).run [] 0 [.append p,.append p] =
      .ok ⟨s₂,d₂,[(p,UInt64.ofNat s.size),(p,UInt64.ofNat s₁.size)]⟩ := by
    simp only [Session.run,Session.step,h₁,h₂,List.nil_append,List.cons_append]
  exact ⟨_,p,[],_,_,s₃,d₃,_,rfl,hrun,h₃,he₃,hs₃.bytes,hl.symm⟩

end Large

/-- With its length field this record has `2^31` bytes. -/
def hugeRecord : Bytes := List.replicate 2147483644 7

theorem frame_hugeRecord_length : (frame hugeRecord).length = 2^31 := by
  rw [frame_length,hugeRecord,List.length_replicate]
  rfl

/-- With the largest size the configuration takes, the third of three records of
`2^31` bytes gets the position of the first. -/
theorem position_wraps : ∃ c s e a,
    applyField (fun _ => .ok 0) defaults (ascii "max_segment_size") (ascii "1099511627776") =
      .ok c ∧
    openSegment [] 0 ⟨c.maxSegmentSize⟩ .blank = (.ok s,e) ∧
    Writes [] 0 ⟨s,e,[]⟩ [.append hugeRecord,.append hugeRecord,.append hugeRecord] a (2^32) ∧
    a.position = 0 := by
  obtain ⟨s,e,ho,hs,-,-,-,-,hm,-⟩ := openSegment_healthy (d := .blank) rfl [] 0 ⟨1099511627776⟩
  have hmax : (3 : ℤ)*2^31 ≤ s.maxSize.toInt := by
    rw [hm]
    decide
  exact ⟨{defaults with maxSegmentSize := 1099511627776},s,e,entryAt (2^32),by decide +kernel,ho,
    writes_large frame_hugeRecord_length hs hmax,by decide⟩

theorem positions_exact_iff_small :
    ∃ s e, openSegment [] 0 ⟨8192⟩ .blank = (.ok s,e) ∧
      ((∀ a n, Writes [] 0 ⟨s,e,[]⟩ [.append [1],.flush] a n → a.position.toNat = n) ↔
        ∀ a n, Writes [] 0 ⟨s,e,[]⟩ [.append [1],.flush] a n → n < 2^32) := by
  obtain ⟨s,e,ho,-⟩ := openSegment_healthy (d := .blank) rfl [] 0 ⟨8192⟩
  exact ⟨s,e,ho,positions_exact_iff ho (by decide) (by simp [StaysOpen])⟩

end Kage.IndexPositions
