import Kage.FailedRollover

/-!
# Segments only grow

Whatever fails, an append that stays on the active segment only adds to it. The
bytes that were accepted before keep their places in the file and the buffer,
and the part of them that was in the file stays there, so that a section of the
file that was handed out keeps its contents. A segment that is stuck stays
stuck, and a file that is closed stays closed.

The append leaves the segment when the record does not fit and the rollover
succeeds. A rollover that fails leaves a stuck segment, about whose bytes
nothing is said.
-/
namespace Kage.SegmentGrowth
open ByteStrings FaultyDisk BufferedWriter SparseIndex SegmentLog PartitionLog SegmentFaults
open PartitionFaults
open FailedRollover (Fits append_of_fits append_of_not_fits)

/-- The append opens another segment. -/
def Switches (ps : PartitionStore) (data : Bytes) (d : Disk) : Prop :=
  ¬Fits ps data ∧ (ps.rollover d).1 = none

instance (ps : PartitionStore) (data : Bytes) (d : Disk) : Decidable (Switches ps data d) :=
  inferInstanceAs (Decidable (_ ∧ _))

/-- The bytes are extended unless the segment gets stuck, and the file is unless
it gets closed. What is stuck or closed stays so. -/
structure Grows (s : Segment) (d : Disk) (t : Segment) (e : Disk) : Prop where
  path : t.file.path = s.file.path
  content : t.file.closed = false → d.content s.file.path <+: e.content s.file.path
  bytes : ¬Stuck t → s.bytes d <+: t.bytes e
  stuck : Stuck s → Stuck t
  closed : s.file.closed = true → t.file.closed = true

section Growth
variable {s t : Segment} {d e : Disk} {ps qs : PartitionStore} {dir : List Bytes}

theorem Grows.opened (h : Grows s d t e) (ht : t.file.closed = false) : s.file.closed = false := by
  rw [← Bool.not_eq_true] at ht ⊢
  exact fun hs => ht (h.closed hs)

theorem Grows.trans {u : Segment} {f : Disk} (h : Grows s d t e) (k : Grows t e u f) :
    Grows s d u f := by
  refine ⟨k.path.trans h.path,fun hu => ?_,fun hu => ?_,fun hs => k.stuck (h.stuck hs),
    fun hs => k.closed (h.closed hs)⟩
  · have hc := k.content hu
    rw [h.path] at hc
    exact (h.content (k.opened hu)).trans hc
  · exact (h.bytes fun hx => hu (k.stuck hx)).trans (k.bytes hu)

/-- Steps that leave the log file and its writer alone. -/
theorem Grows.of_same (hf : t.file = s.file) (hb : t.bw = s.bw)
    (hc : e.content s.file.path = d.content s.file.path) : Grows s d t e := by
  refine ⟨by rw [hf],fun _ => by rw [hc],fun _ => ?_,fun hs => ?_,fun hs => by rw [hf]; exact hs⟩
  · rw [Segment.bytes,Segment.bytes,hf,hb,hc]
  · rw [Stuck,hf,hb]
    exact hs

theorem write_grows {bw : Writer} {p : Bytes} {r : Option Err} (hm : s.file.path ∈ d.files)
    (hw : s.bw.write s.file p d = (r,bw,e)) : Grows s d {s with bw := bw} e := by
  obtain ⟨-,hv,out,lost,hb,hr,hl⟩ := Writer.write_spec hw
  have hc := hr.content hm
  refine ⟨rfl,fun _ => ⟨out,hc.symm⟩,fun hns => ⟨p,?_⟩,fun hs => ?_,id⟩
  · have hr0 : r = none := by
      rw [← hv]
      exact not_not.mp fun hx => hns (.inr hx)
    simp only [Segment.bytes,hc,List.append_assoc,hb,hl hr0,List.append_nil]
  · refine hs.imp id fun he => ?_
    rw [Writer.write_err he] at hw
    cases hw
    exact he

theorem flush_grows {bw : Writer} {r : Option Err} (hm : s.file.path ∈ d.files)
    (hw : s.bw.flush s.file d = (r,bw,e)) : Grows s d {s with bw := bw} e := by
  obtain ⟨-,-,out,hb,hr,-⟩ := Writer.flush_spec hw
  have hc := hr.content hm
  refine ⟨rfl,fun _ => ⟨out,hc.symm⟩,fun _ => ⟨[],?_⟩,fun hs => ?_,id⟩
  · simp only [Segment.bytes,hc,hb,List.append_assoc,List.append_nil]
  · refine hs.imp id fun he => ?_
    rw [Writer.flush_err he] at hw
    cases hw
    exact he

theorem append_grows {p : Bytes} {r : Except Err UInt64} (h : Sound s d)
    (ha : s.append p d = (r,t,e)) : Grows s d t e := by
  have hboth {bw₁ bw₂ : Writer} {r₂ : Option Err} {d₁ d₂ : Disk}
      (hw₁ : s.bw.write s.file (putUint 4 p.length) d = (none,bw₁,d₁))
      (hw₂ : bw₁.write s.file p d₁ = (r₂,bw₂,d₂)) : Grows s d {s with bw := bw₂} d₂ := by
    obtain ⟨-,-,out,lost,-,hr,-⟩ := Writer.write_spec hw₁
    have hm₁ : s.file.path ∈ d₁.files := (hr.mem _).mpr h.1.mem
    exact (write_grows h.1.mem hw₁).trans (write_grows (s := {s with bw := bw₁}) hm₁ hw₂)
  cases Segment.appending ha with
  | full => exact .of_same rfl rfl rfl
  | header hf hw₁ => exact write_grows h.1.mem hw₁
  | payload hf hw₁ hw₂ => exact hboth hw₁ hw₂
  | @written x bw₁ bw₂ idx d₁ d₂ e r hf hw₁ hw₂ hi hr =>
      have hx := s.idx.maybeAppend_only (UInt64.ofNat s.size) (UInt64.ofNat s.size).toUInt32
        (recordHeaderSize+p.length) d₂
      rw [hi] at hx
      exact (hboth hw₁ hw₂).trans (.of_same rfl rfl (hx.2.content h.1.apart.symm))

theorem close_grows {r : Option Err} (h : Sound s d) (hc : s.close d = (r,t,e)) :
    Grows s d t e := by
  have hcl := close_sound h hc
  refine ⟨hcl.path,fun ht => ?_,fun hns => (hns hcl.stuck).elim,fun _ => hcl.stuck,hcl.closed⟩
  cases Segment.closing hc with
  | flush hw => exact (flush_grows h.1.mem hw).content ht
  | file hw hf =>
      obtain ⟨rfl,-⟩ := h.flush_close hw hf
      cases ht
  | index hw hf hi =>
      obtain ⟨rfl,-⟩ := h.flush_close hw hf
      cases ht

theorem rollover_grows {x : Err} (h : Stable dir ps d) (hr : ps.rollover d = (some x,qs,e)) :
    Grows ps.active d qs.active e := by
  obtain ⟨y,t,d₁,hc,hcases⟩ := rollover_cases hr
  have hg := close_grows h.sound hc
  rcases hcases with ⟨c,-,-,rfl,rfl⟩|⟨c,-,-,ho,rfl⟩|⟨s,-,hn,-⟩
  · exact hg
  · have hx := openSegment_extends ps.dir (ps.nextBase+ps.active.size) ps.cfg d₁
    rw [ho] at hx
    refine hg.trans (.of_same rfl rfl (hx _ ?_).1)
    rw [hg.path,h.path]
    exact logPath_ne_indexPath _ _ _ _
  · cases hn

/-- An append that stays on the segment extends it. -/
theorem storeAppend_grows (h : Stable dir ps d) {data : Bytes} {r : Except Err UInt64}
    (hs : ¬Switches ps data d) (ha : ps.append data d = (r,qs,e)) :
    Grows ps.active d qs.active e := by
  by_cases hf : Fits ps data
  · obtain ⟨r',happ,-⟩ := append_of_fits (d := d) hf
    rw [happ] at ha
    rcases hx : ps.active.append data d with ⟨r₁,s,d₁⟩
    rw [hx] at ha
    cases ha
    exact append_grows h.sound hx
  · rw [append_of_not_fits hf] at ha
    rcases hr : ps.rollover d with ⟨x,rs,d₁⟩
    rw [hr] at ha
    cases x with
    | some x =>
        cases ha
        exact rollover_grows h hr
    | none => exact (hs ⟨hf,by rw [hr]⟩).elim

end Growth

end Kage.SegmentGrowth
