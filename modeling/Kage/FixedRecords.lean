import Mathlib.Data.List.Basic
import Mathlib.Tactic.Ring

/-!
# Files of records of one width

A file of records that all have the same width is read from the front, as many
records as fit. What is behind the last whole record is left over. Records that
are appended to the file come behind it, and a later reading takes the first of
its records from what was left over. `readAll_append_iff` says when the reading
is right all the same: what is appended must continue what was left over by a
copy of itself, as it does where nothing was left over.
-/
namespace Kage.FixedRecords

/-- Values of type `α` as lists of `w` letters. -/
structure Codec (α β : Type*) (w : ℕ) where
  encode : α → List β
  decode : List β → α
  width : 0 < w
  encode_length : ∀ a, (encode a).length = w
  decode_encode : ∀ a rest, decode (encode a++rest) = a
  encode_decode : ∀ s, w ≤ s.length → encode (decode s) = s.take w

variable {α β : Type*} {w : ℕ} {c : Codec α β w} {s : List β}

namespace Codec

def readAll (c : Codec α β w) : ℕ → List β → List α
  | 0,_ => []
  | k+1,s => c.decode s::c.readAll k (s.drop w)

def writeAll (c : Codec α β w) (as : List α) : List β := as.flatMap c.encode

/-- The reading of a whole file. -/
def readFile (c : Codec α β w) (s : List β) : List α := c.readAll (s.length/w) s

end Codec

/-- What is behind the last whole record. -/
def leftover (w : ℕ) (s : List β) : List β := s.drop (w*(s.length/w))

theorem leftover_of_dvd (h : w ∣ s.length) : leftover w s = [] := by
  rw [leftover,Nat.mul_div_cancel' h,List.drop_length]

theorem decode_append (h : w ≤ s.length) (rest : List β) : c.decode (s++rest) = c.decode s := by
  have hs : s++rest = c.encode (c.decode s)++(s.drop w++rest) := by
    rw [c.encode_decode s h,← List.append_assoc,List.take_append_drop]
  rw [hs,c.decode_encode]

theorem writeAll_length (c : Codec α β w) (as : List α) :
    (c.writeAll as).length = w*as.length := by
  induction as with
  | nil => rfl
  | cons a as ih =>
      rw [Codec.writeAll,List.flatMap_cons,List.length_append,c.encode_length,← Codec.writeAll,ih,
        List.length_cons]
      ring

theorem readAll_add (c : Codec α β w) (j k : ℕ) (s : List β) :
    c.readAll (j+k) s = c.readAll j s++c.readAll k (s.drop (w*j)) := by
  induction j generalizing s with
  | zero => simp [Codec.readAll]
  | succ j ih =>
      rw [Nat.add_right_comm,Codec.readAll,ih,Codec.readAll,List.drop_drop,List.cons_append,
        Nat.mul_succ,Nat.add_comm w]

/-- Whole records are read without looking at what follows. -/
theorem readAll_append {k : ℕ} (h : w*k ≤ s.length) (rest : List β) :
    c.readAll k (s++rest) = c.readAll k s := by
  induction k generalizing s with
  | zero => rfl
  | succ k ih =>
      rw [Nat.mul_succ] at h
      have hw : w ≤ s.length := by omega
      rw [Codec.readAll,Codec.readAll,decode_append hw,List.drop_append_of_le_length hw,
        ih (by rw [List.length_drop]; omega)]

theorem readAll_writeAll (as : List α) (rest : List β) :
    c.readAll as.length (c.writeAll as++rest) = as := by
  induction as with
  | nil => rfl
  | cons a as ih =>
      rw [Codec.writeAll,List.flatMap_cons,List.append_assoc,← Codec.writeAll,List.length_cons,
        Codec.readAll,c.decode_encode,List.drop_left' (c.encode_length a),ih]

theorem writeAll_readAll {k : ℕ} (h : w*k ≤ s.length) :
    c.writeAll (c.readAll k s) = s.take (w*k) := by
  induction k generalizing s with
  | zero => simp [Codec.readAll,Codec.writeAll]
  | succ k ih =>
      rw [Nat.mul_succ] at h
      rw [Codec.readAll,Codec.writeAll,List.flatMap_cons,← Codec.writeAll,
        c.encode_decode s (by omega),ih (by rw [List.length_drop]; omega),Nat.mul_succ,
        Nat.add_comm,List.take_add]

/-- Records read back from behind other letters. -/
theorem readAll_behind_iff (t : List β) (as : List α) :
    c.readAll as.length (t++c.writeAll as) = as ↔ c.writeAll as <+: t++c.writeAll as := by
  have hl := writeAll_length c as
  constructor
  · intro h
    have hle : w*as.length ≤ (t++c.writeAll as).length := by
      rw [List.length_append,hl]
      exact Nat.le_add_left _ _
    have hw := writeAll_readAll (c := c) hle
    rw [h,← hl] at hw
    exact List.prefix_iff_eq_take.mpr hw
  · rintro ⟨rest,h⟩
    rw [← h]
    exact readAll_writeAll as rest

theorem readFile_append (c : Codec α β w) (s : List β) (as : List α) :
    c.readFile (s++c.writeAll as) =
      c.readFile s++c.readAll as.length (leftover w s++c.writeAll as) := by
  have hle : w*(s.length/w) ≤ s.length := Nat.mul_div_le _ _
  have hcount : (s++c.writeAll as).length/w = s.length/w+as.length := by
    rw [List.length_append,writeAll_length,Nat.add_mul_div_left _ _ c.width]
  rw [Codec.readFile,hcount,readAll_add,readAll_append hle,List.drop_append_of_le_length hle]
  rfl

/-- When a file to which records were appended is read as it was read before and
then the records. -/
theorem readAll_append_iff (c : Codec α β w) (s : List β) (as : List α) :
    c.readFile (s++c.writeAll as) = c.readFile s++as ↔
      c.writeAll as <+: leftover w s++c.writeAll as := by
  rw [readFile_append,List.append_cancel_left_eq,readAll_behind_iff]

end Kage.FixedRecords
