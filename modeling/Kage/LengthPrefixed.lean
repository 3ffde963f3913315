import Kage.ByteStrings

/-!
# Logs of length-prefixed records

A record is its payload behind a four-byte big-endian length. The prefix is
truncated to thirty-two bits, so it determines the payload only when that is
shorter than `2^32`. A log is the concatenation of its records; the position of
a record is the length of the log before it.
-/
namespace Kage.LengthPrefixed
open ByteStrings

def frame (payload : Bytes) : Bytes := putUint 4 payload.length++payload

def frames (payloads : List Bytes) : Bytes := payloads.flatMap frame

@[simp] theorem frame_length (p : Bytes) : (frame p).length = 4+p.length := by
  simp [frame]

@[simp] theorem frames_nil : frames [] = [] := rfl

@[simp] theorem frames_cons (p : Bytes) (ps : List Bytes) :
    frames (p::ps) = frame p++frames ps := by simp [frames]

@[simp] theorem frames_append (ps qs : List Bytes) :
    frames (ps++qs) = frames ps++frames qs := by simp [frames]

theorem frames_length_cons (p : Bytes) (ps : List Bytes) :
    (frames (p::ps)).length = 4+p.length+(frames ps).length := by simp

/-- What a record takes in the log. -/
def frameSize (p : Bytes) : ℕ := (frame p).length

theorem frameSize_eq (p : Bytes) : frameSize p = 4+p.length := frame_length p

theorem frames_length (ps : List Bytes) : (frames ps).length = (ps.map frameSize).sum := by
  induction ps with
  | nil => rfl
  | cons p ps ih => rw [frames_cons,List.length_append,ih,List.map_cons,List.sum_cons,frameSize]

theorem length_le_frames {p : Bytes} {ps : List Bytes} (h : p ∈ ps) :
    p.length ≤ (frames ps).length := by
  induction ps with
  | nil => cases h
  | cons q ps ih =>
      rw [frames_length_cons]
      cases List.mem_cons.mp h with
      | inl hq =>
          rw [hq]
          omega
      | inr hm =>
          have := ih hm
          omega

/-- The log around one of its records. -/
theorem frames_split {ps : List Bytes} {i : ℕ} {p : Bytes} (h : ps[i]? = some p) :
    frames ps = frames (ps.take i)++(frame p++frames (ps.drop (i+1))) := by
  have hs : ps = ps.take i++p::ps.drop (i+1) := by
    obtain ⟨hi,rfl⟩ := List.getElem?_eq_some_iff.mp h
    rw [← List.drop_eq_getElem_cons hi,List.take_append_drop]
  conv_lhs => rw [hs]
  simp

/-- The prefix of a record at its position in the log. -/
theorem header_at (before p rest : Bytes) :
    window (before++(frame p++rest)) before.length 4 = putUint 4 p.length := by
  have h := window_skip (rfl : before.length = _) (frame p++rest) 0 4
  rw [Nat.add_zero] at h
  rw [h,frame,List.append_assoc,window_head (putUint_length 4 _)]

/-- The payload of a record behind its prefix. -/
theorem payload_at (before p rest : Bytes) :
    window (before++(frame p++rest)) (before.length+4) p.length = p := by
  rw [window_skip rfl,frame,List.append_assoc]
  exact (window_skip (putUint_length 4 _) _ 0 _).trans (window_head rfl _)

/-- The prefixes tell the records apart. -/
theorem frames_prefix {ps qs : List Bytes} (hp : ∀ p ∈ ps, p.length < 2^32)
    (hq : ∀ q ∈ qs, q.length < 2^32) (h : frames ps <+: frames qs) : ps <+: qs := by
  induction ps generalizing qs with
  | nil => exact List.nil_prefix
  | cons p ps ih =>
      obtain ⟨hp,hps⟩ := List.forall_mem_cons.mp hp
      cases qs with
      | nil =>
          have hlen := h.length_le
          rw [frames_length_cons,frames_nil,List.length_nil] at hlen
          omega
      | cons q qs =>
          obtain ⟨hq,hqs⟩ := List.forall_mem_cons.mp hq
          obtain ⟨t,ht⟩ := h
          rw [frames_cons,frames_cons,frame,frame] at ht
          simp only [List.append_assoc] at ht
          obtain ⟨hl,ht⟩ := List.append_inj ht (by simp)
          have hlen : p.length = q.length := by
            have hu := congrArg uint hl
            rwa [uint_putUint_of_lt hp,uint_putUint_of_lt hq] at hu
          obtain ⟨rfl,hrest⟩ := List.append_inj ht hlen
          exact (List.prefix_cons_inj p).mpr (ih hps hqs ⟨t,hrest⟩)

/-- Whole records, one behind the other, each with this property and short enough
for its prefix. -/
def Framed (P : Bytes → Prop) (s : Bytes) : Prop :=
  ∃ ps, s = frames ps ∧ ∀ p ∈ ps, p.length < 2^32 ∧ P p

section
variable {P Q : Bytes → Prop} {s t : Bytes}

theorem Framed.append (h : Framed P s) (k : Framed P t) : Framed P (s++t) := by
  obtain ⟨ps,rfl,hps⟩ := h
  obtain ⟨qs,rfl,hqs⟩ := k
  exact ⟨ps++qs,(frames_append ps qs).symm,List.forall_mem_append.mpr ⟨hps,hqs⟩⟩

/-- What is left of a log that was cut between two records. -/
theorem Framed.cut {n : ℕ} (h : Framed P s) (hn : Framed Q (s.take n)) :
    Framed P (s.take n) := by
  obtain ⟨ps,rfl,hps⟩ := h
  obtain ⟨qs,hqs,hlt⟩ := hn
  have hpre : qs <+: ps := frames_prefix (fun q hq => (hlt q hq).1) (fun p hp => (hps p hp).1)
    (hqs ▸ List.take_prefix n _)
  exact ⟨qs,hqs,fun q hq => hps q (hpre.subset hq)⟩

end

end Kage.LengthPrefixed
