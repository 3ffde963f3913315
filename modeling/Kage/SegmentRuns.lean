import Kage.SegmentLog

/-!
# Whole runs on one segment

A session is a segment, the disk below it and the list of appends it has
accepted, each with the offset it answered. The steps are the operations of the
segment and a close followed by another open, possibly with another limit. A
refused append is an ordinary step; every other error ends the run, so a run
that ends in a session is one in which nothing failed.

Without input/output errors a run never ends early, and in every session it
reaches the file and the buffer are together the accepted records in order.
Offsets, the size and the results of later reads all follow from that.
-/
namespace Kage.SegmentRuns
open ByteStrings LengthPrefixed FaultyDisk SparseIndex SegmentLog

inductive Op where
  | append (payload : Bytes)
  | readAt (offset : UInt64)
  | read (offset : UInt64) (size : Int32)
  | flush
  | reopen (cfg : SegmentConfig)
  deriving DecidableEq, Repr

/-- Payloads are shorter than the length field can count. -/
def Op.Short : Op → Prop
  | .append payload => payload.length < 2^32
  | _ => True

instance : DecidablePred Op.Short := fun op => by
  cases op <;> unfold Op.Short <;> infer_instance

structure Session where
  seg : Segment
  disk : Disk
  accepted : List (Bytes × UInt64)

namespace Session

/-- The accepted records, as one log. -/
def log (σ : Session) : Bytes := frames (σ.accepted.map Prod.fst)

/-- One operation on the segment with this directory and base offset. -/
def step (dir : List Bytes) (base : ℕ) (σ : Session) : Op → Except Err Session
  | .append payload =>
      match σ.seg.append payload σ.disk with
      | (.ok offset,s,d) => .ok ⟨s,d,σ.accepted++[(payload,offset)]⟩
      | (.error e,s,d) => if e = ErrSegmentFull then .ok ⟨s,d,σ.accepted⟩ else .error e
  | .readAt offset =>
      match σ.seg.readAt offset σ.disk with
      | (_,s,d) => .ok ⟨s,d,σ.accepted⟩
  | .read offset size =>
      match σ.seg.read offset size σ.disk with
      | (_,s,d) => .ok ⟨s,d,σ.accepted⟩
  | .flush =>
      match σ.seg.flush σ.disk with
      | (some e,_,_) => .error e
      | (none,s,d) => .ok ⟨s,d,σ.accepted⟩
  | .reopen cfg =>
      match σ.seg.close σ.disk with
      | (some e,_,_) => .error e
      | (none,_,d) =>
          match openSegment dir base cfg d with
          | (.error e,_) => .error e
          | (.ok s,d) => .ok ⟨s,d,σ.accepted⟩

def run (dir : List Bytes) (base : ℕ) : Session → List Op → Except Err Session
  | σ,[] => .ok σ
  | σ,op::ops =>
      match σ.step dir base op with
      | .error e => .error e
      | .ok τ => run dir base τ ops

/-- What every session keeps: the segment holds the accepted records, and each
was answered with the position of its frame. -/
structure Inv (dir : List Bytes) (base : ℕ) (σ : Session) : Prop where
  holds : σ.seg.Holds σ.disk σ.log
  path : σ.seg.file.path = logPath dir base
  small : σ.log.length < 2^63
  offsets : ∀ i a, σ.accepted[i]? = some a →
    a.2 = UInt64.ofNat (frames ((σ.accepted.map Prod.fst).take i)).length
  short : ∀ a ∈ σ.accepted, a.1.length < 2^32

variable {dir : List Bytes} {base : ℕ} {σ : Session}

theorem step_append {p : Bytes} {o : UInt64} {t : Segment} {e : Disk}
    (h : σ.seg.append p σ.disk = (.ok o,t,e)) :
    σ.step dir base (.append p) = .ok ⟨t,e,σ.accepted++[(p,o)]⟩ := by
  simp only [Session.step,h]

/-- Steps that only move bytes or handles keep the invariant. -/
theorem Inv.of_holds (h : σ.Inv dir base) {s : Segment} {d : Disk} (hs : s.Holds d σ.log)
    (hp : s.file.path = σ.seg.file.path) : (Session.mk s d σ.accepted).Inv dir base :=
  ⟨hs,hp.trans h.path,h.small,h.offsets,h.short⟩

theorem Inv.append (h : σ.Inv dir base) {payload : Bytes} (hp : payload.length < 2^32) :
    ∃ τ, σ.step dir base (.append payload) = .ok τ ∧ τ.Inv dir base := by
  by_cases hf : σ.seg.size+(4+payload.length) ≤ σ.seg.maxSize.toInt
  · obtain ⟨s,d,ha,hs,hh,-⟩ := Segment.append_fits h.holds hf
    refine ⟨⟨s,d,σ.accepted++[(payload,UInt64.ofNat σ.seg.size)]⟩,step_append ha,
      ?_,by rw [hh.1,h.path],?_,?_,?_⟩
    · simpa [log] using hs
    · have hm := σ.seg.maxSize.toInt_lt
      have hl := h.holds.size
      simp only [log,List.map_append,List.map_cons,List.map_nil,frames_append,frames_cons,
        frames_nil,List.length_append,frame_length,List.length_nil] at hl ⊢
      omega
    · intro i a hi
      rw [List.map_append]
      rcases Nat.lt_or_ge i σ.accepted.length with hlt | hge
      · rw [List.getElem?_append_left hlt] at hi
        rw [List.take_append_of_le_length (by simpa using hlt.le)]
        exact h.offsets i a hi
      · rw [List.getElem?_append_right hge] at hi
        obtain ⟨h0,rfl⟩ := List.getElem?_eq_some_iff.mp hi
        have hlen : i = (σ.accepted.map Prod.fst).length := by simp at h0 ⊢; omega
        simp only [hlen,List.take_left,List.getElem_singleton]
        rw [h.holds.size]
        rfl
    · intro a ha
      rcases List.mem_append.mp ha with hm | hm
      · exact h.short a hm
      · obtain rfl := List.mem_singleton.mp hm
        exact hp
  · have ha := Segment.append_full σ.seg σ.disk (not_le.mp hf)
    exact ⟨σ,by simp [Session.step,ha],h⟩

theorem Inv.reopen (h : σ.Inv dir base) (cfg : SegmentConfig) :
    ∃ τ, σ.step dir base (.reopen cfg) = .ok τ ∧ τ.Inv dir base := by
  obtain ⟨s,d,hc,hd,hl,-⟩ := Segment.close_holds h.holds
  obtain ⟨t,e,ho,ht,-,hp,-⟩ := openSegment_healthy hd dir base cfg
  have hb : d.content (logPath dir base) = σ.log := by rw [Disk.content,← h.path,hl]; rfl
  rw [hb] at ht
  exact ⟨⟨t,e,σ.accepted⟩,by simp only [Session.step,hc,ho],h.of_holds ht (hp.trans h.path.symm)⟩

theorem Inv.step (h : σ.Inv dir base) {op : Op} (ho : op.Short) :
    ∃ τ, σ.step dir base op = .ok τ ∧ τ.Inv dir base := by
  cases op with
  | append payload => exact h.append ho
  | readAt offset =>
      obtain ⟨r,hr⟩ := Segment.readAt_state h.holds offset
      exact ⟨_,by simp only [Session.step,hr],h.of_holds h.holds.of_flush rfl⟩
  | read offset size =>
      obtain ⟨r,hr | hr⟩ := Segment.read_state h.holds offset size
      · exact ⟨σ,by simp only [Session.step,hr],h⟩
      · exact ⟨_,by simp only [Session.step,hr],h.of_holds h.holds.of_flush rfl⟩
  | flush =>
      obtain ⟨s,d,hf,hs,hh,-⟩ := Segment.flush_holds h.holds
      exact ⟨_,by simp only [Session.step,hf],h.of_holds hs (by rw [hh.1])⟩
  | reopen cfg => exact h.reopen cfg

/-- No run ends early, and the invariant holds where it ends. -/
theorem Inv.run (h : σ.Inv dir base) {ops : List Op} (ho : ∀ op ∈ ops, op.Short) :
    ∃ τ, σ.run dir base ops = .ok τ ∧ τ.Inv dir base := by
  induction ops generalizing σ with
  | nil => exact ⟨σ,rfl,h⟩
  | cons op ops ih =>
      obtain ⟨τ,hs,hτ⟩ := h.step (ho op List.mem_cons_self)
      obtain ⟨υ,hr,hυ⟩ := ih hτ fun o hm => ho o (List.mem_cons_of_mem _ hm)
      exact ⟨υ,by simp only [Session.run,hs,hr],hυ⟩

theorem Inv.content_append (h : σ.Inv dir base) :
    σ.disk.content (logPath dir base)++σ.seg.bw.buf = σ.log := by
  rw [← h.path]
  exact h.holds.bytes

theorem Inv.size (h : σ.Inv dir base) : σ.seg.Size.toInt = σ.log.length := by
  rw [Segment.Size,h.holds.size,Int64.toInt_ofNat_of_lt h.small]

theorem Inv.offset_toNat (h : σ.Inv dir base) {i : ℕ} {a : Bytes × UInt64}
    (ha : σ.accepted[i]? = some a) :
    a.2.toNat = (frames ((σ.accepted.map Prod.fst).take i)).length := by
  have hl : σ.accepted.map Prod.fst =
      (σ.accepted.map Prod.fst).take i++(σ.accepted.map Prod.fst).drop i := by simp
  have hs := h.small
  rw [log,hl,frames_append,List.length_append] at hs
  rw [h.offsets i a ha,UInt64.toNat_ofNat_of_lt']
  have : (2 : ℕ)^63 < UInt64.size := by decide
  omega

theorem Inv.readAt (h : σ.Inv dir base) {i : ℕ} {a : Bytes × UInt64}
    (ha : σ.accepted[i]? = some a) : (σ.seg.readAt a.2 σ.disk).1 = .ok a.1 := by
  have hp : (σ.accepted.map Prod.fst)[i]? = some a.1 := by simp [ha]
  have hs := frames_split hp
  have hh := h.holds
  have hl := h.small
  rw [log,hs] at hh hl
  rw [h.offsets i a ha]
  exact Segment.readAt_record hh hl (h.short a (List.mem_of_getElem? ha))

end Session

/-- What a reader can rely on in one session. -/
structure Intact (dir : List Bytes) (base : ℕ) (σ : Session) : Prop where
  filePrefix : σ.disk.content (logPath dir base) <+: σ.log
  fileAndBuffer : σ.disk.content (logPath dir base)++σ.seg.bw.buf = σ.log
  size : σ.seg.Size.toInt = σ.log.length
  offset : ∀ i a, σ.accepted[i]? = some a →
    a.2.toNat = (frames ((σ.accepted.map Prod.fst).take i)).length
  readAt : ∀ a ∈ σ.accepted, (σ.seg.readAt a.2 σ.disk).1 = .ok a.1
  full : ∀ payload, (σ.seg.append payload σ.disk).1 = .error ErrSegmentFull →
    (σ.seg.append payload σ.disk).2 = (σ.seg,σ.disk)

theorem Session.Inv.intact {dir : List Bytes} {base : ℕ} {σ : Session} (h : σ.Inv dir base) :
    Intact dir base σ where
  filePrefix := ⟨_,h.content_append⟩
  fileAndBuffer := h.content_append
  size := h.size
  offset := fun _ _ => h.offset_toNat
  readAt := fun a ha => by
    obtain ⟨i,hi⟩ := List.getElem?_of_mem ha
    exact h.readAt hi
  full := fun payload hx => by
    by_cases hf : σ.seg.size+(4+payload.length) ≤ σ.seg.maxSize.toInt
    · obtain ⟨s,d,ha,-⟩ := Segment.append_fits h.holds hf
      rw [ha] at hx
      cases hx
    · rw [Segment.append_full σ.seg σ.disk (not_le.mp hf)]

/-- On a healthy disk where the log file is missing or empty, opening the
segment and running any operations reaches a session, and every session
reached is intact. -/
theorem segment_runs_intact (dir : List Bytes) (base : ℕ) (cfg : SegmentConfig) (d : Disk)
    (hd : d.Healthy) (h0 : d.content (logPath dir base) = []) :
    ∃ s e, openSegment dir base cfg d = (.ok s,e) ∧
      ∀ ops : List Op, (∀ op ∈ ops, op.Short) →
        ∃ σ, (Session.mk s e []).run dir base ops = .ok σ ∧ Intact dir base σ := by
  obtain ⟨s,e,ho,hs,-,hp,-⟩ := openSegment_healthy hd dir base cfg
  rw [h0] at hs
  refine ⟨s,e,ho,fun ops hops => ?_⟩
  have hi : (Session.mk s e []).Inv dir base :=
    ⟨hs,hp,by simp [Session.log],by simp,by simp⟩
  obtain ⟨σ,hr,hσ⟩ := hi.run hops
  exact ⟨σ,hr,hσ.intact⟩

theorem segment_runs_intact_reopened :
    ∃ s e, openSegment [] 0 ⟨64⟩ .blank = (.ok s,e) ∧
      ∃ σ, (Session.mk s e []).run [] 0 [.append [1,2],.append [],.reopen ⟨8⟩,.append [3],
        .readAt 0,.flush,.reopen ⟨64⟩,.append [4],.read 0 4] = .ok σ ∧ Intact [] 0 σ := by
  obtain ⟨s,e,ho,h⟩ := segment_runs_intact [] 0 ⟨64⟩ .blank rfl rfl
  exact ⟨s,e,ho,h _ (by decide)⟩

end Kage.SegmentRuns
