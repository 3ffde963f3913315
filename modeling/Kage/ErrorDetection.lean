import Mathlib.Data.List.Basic
import Mathlib.Logic.Function.Basic

/-!
# Checksums that see every changed element

A checksum that is taken element by element sees a changed element when its step
is injective, in the state and in the element: the two states differ behind the
changed element, and no later step makes them equal again.

The step of a reflected cyclic redundancy check divides by a polynomial, bit by
bit. The bit that falls out decides whether the polynomial is added, and the top
bit of the polynomial keeps that decision in the result, so no two remainders
become one.
-/
namespace Kage.ErrorDetection

section Folds
variable {σ β : Type} {step : σ → β → σ}

theorem foldl_injective (hs : ∀ b, Function.Injective fun s => step s b) (bs : List β) :
    Function.Injective fun s => bs.foldl step s := by
  induction bs with
  | nil => exact Function.injective_id
  | cons b bs ih => exact ih.comp (hs b)

/-- A changed element changes the result. -/
theorem foldl_set_ne (hs : ∀ b, Function.Injective fun s => step s b)
    (hb : ∀ s, Function.Injective (step s)) {bs : List β} {i : ℕ} {x y : β}
    (hy : bs[i]? = some y) (hne : x ≠ y) (s : σ) :
    (bs.set i x).foldl step s ≠ bs.foldl step s := by
  induction bs generalizing i s with
  | nil => cases hy
  | cons b bs ih =>
      cases i with
      | zero =>
          obtain rfl : b = y := Option.some.inj hy
          intro h
          exact hne (hb s (foldl_injective hs bs h))
      | succ i => exact ih hy (step s b)

end Folds

section Division
variable {w : ℕ} {poly : BitVec w}

/-- One bit of the division of a reflected remainder. -/
def divideBit (poly rem : BitVec w) : BitVec w :=
  if rem.getLsbD 0 then (rem >>> 1) ^^^ poly else rem >>> 1

/-- The bit that fell out stands at the top. -/
theorem divideBit_top (h : poly.getLsbD (w-1) = true) (rem : BitVec w) :
    (divideBit poly rem).getLsbD (w-1) = rem.getLsbD 0 := by
  have hshift : (rem >>> 1).getLsbD (w-1) = false := by
    rw [BitVec.getLsbD_ushiftRight]
    exact BitVec.getLsbD_of_ge rem _ (by omega)
  unfold divideBit
  split
  · rename_i h0
    rw [BitVec.getLsbD_xor,hshift,h,h0]
    rfl
  · rename_i h0
    rw [hshift,Bool.eq_false_iff.mpr h0]

theorem divideBit_injective (h : poly.getLsbD (w-1) = true) :
    Function.Injective (divideBit poly) := by
  intro a b hab
  have hlow : a.getLsbD 0 = b.getLsbD 0 := by
    rw [← divideBit_top h a,hab,divideBit_top h b]
  have hhigh : a >>> 1 = b >>> 1 := by
    unfold divideBit at hab
    rw [hlow] at hab
    split at hab
    · exact (BitVec.xor_left_inj poly).mp hab
    · exact hab
  apply BitVec.eq_of_getLsbD_eq
  intro i _
  cases i with
  | zero => exact hlow
  | succ i =>
      have hi := congrArg (fun rem => rem.getLsbD i) hhigh
      simp only [BitVec.getLsbD_ushiftRight] at hi
      rwa [Nat.add_comm] at hi

end Division

end Kage.ErrorDetection
