import Mathlib.Data.List.Basic
import Mathlib.Data.Int.Basic

/-!
# Bisection for the last element with a property

A list begins with the elements that have a property and goes on with those that
do not. `bisect` looks for the last of the first kind with a pair of bounds, both
inclusive and signed, and keeps the best place seen so far. Between the bounds
nothing is known, below them everything has the property and above them nothing
has. A pass reads the middle and drops at least that one place, so as many
passes as there are places are enough.
-/
namespace Kage.FloorSearch

variable {α : Type*} {p : α → Bool} {xs : List α} {lo hi r : ℤ}

/-- At most `n` passes of the search. A read outside the list is `none`. -/
def bisect (p : α → Bool) (xs : List α) : ℕ → ℤ → ℤ → ℤ → Option ℤ
  | 0,_,_,result => some result
  | n+1,lo,hi,result =>
      if lo ≤ hi then
        let mid := (lo+hi)/2
        match xs[mid.toNat]? with
        | none => none
        | some x =>
            if p x then bisect p xs n (mid+1) hi mid else bisect p xs n lo (mid-1) result
      else some result

/-- The elements up to `r` are those with the property. -/
structure IsFloor (p : α → Bool) (xs : List α) (r : ℤ) : Prop where
  ge : -1 ≤ r
  lt : r < xs.length
  iff : ∀ (i : ℕ) x, xs[i]? = some x → (p x ↔ i ≤ r)

/-- What the search knows while it runs. -/
structure Narrowed (p : α → Bool) (xs : List α) (lo hi : ℤ) : Prop where
  nonneg : 0 ≤ lo
  le : lo ≤ hi+1
  lt : hi < xs.length
  below : ∀ (i : ℕ) x, xs[i]? = some x → i < lo → p x
  above : ∀ (i : ℕ) x, xs[i]? = some x → hi < i → ¬p x

theorem narrowed_start (p : α → Bool) (xs : List α) : Narrowed p xs 0 (xs.length-1) where
  nonneg := Int.le_refl 0
  le := by omega
  lt := by omega
  below := fun i _ _ hi => by omega
  above := fun i x hx hi => by
    have := (List.getElem?_eq_some_iff.mp hx).1
    omega

theorem pairwise_getElem? {R : α → α → Prop} (h : xs.Pairwise R) {i j : ℕ} {x y : α}
    (hx : xs[i]? = some x) (hy : xs[j]? = some y) (hij : i < j) : R x y := by
  obtain ⟨hi,rfl⟩ := List.getElem?_eq_some_iff.mp hx
  obtain ⟨hj,rfl⟩ := List.getElem?_eq_some_iff.mp hy
  exact List.pairwise_iff_getElem.mp h i j hi hj hij

namespace Narrowed
variable {mid : ℕ} {x : α}

/-- The middle has the property, and so has everything before it. -/
theorem raise (h : Narrowed p xs lo hi) (hp : xs.Pairwise fun a b => p b → p a)
    (hx : xs[mid]? = some x) (hlo : lo ≤ mid) (hhi : mid ≤ hi) (hpx : p x) :
    Narrowed p xs (mid+1) hi where
  nonneg := by omega
  le := by omega
  lt := h.lt
  below := fun i y hy hi => by
    rcases Nat.lt_or_ge i mid with hlt | hge
    · exact pairwise_getElem? hp hy hx hlt hpx
    · obtain rfl : i = mid := by omega
      rw [hx] at hy
      cases hy
      exact hpx
  above := h.above

/-- The middle does not have it, and neither does anything behind it. -/
theorem lower (h : Narrowed p xs lo hi) (hp : xs.Pairwise fun a b => p b → p a)
    (hx : xs[mid]? = some x) (hlo : lo ≤ mid) (hhi : mid ≤ hi) (hpx : ¬p x) :
    Narrowed p xs lo (mid-1) where
  nonneg := h.nonneg
  le := by omega
  lt := by
    have := h.lt
    omega
  below := h.below
  above := fun i y hy hi hpy => by
    rcases Nat.lt_or_ge mid i with hlt | hge
    · exact hpx (pairwise_getElem? hp hx hy hlt hpy)
    · obtain rfl : i = mid := by omega
      rw [hx] at hy
      cases hy
      exact hpx hpy

/-- The bounds have met. -/
theorem isFloor (h : Narrowed p xs lo hi) (hm : hi < lo) : IsFloor p xs (lo-1) where
  ge := by
    have := h.nonneg
    omega
  lt := by
    have := h.lt
    have := h.le
    omega
  iff := fun i x hx => by
    constructor
    · intro hpx
      by_contra hi
      exact h.above i x hx (by omega) hpx
    · exact fun hi => h.below i x hx (by omega)

theorem bisect (h : Narrowed p xs lo hi) (hp : xs.Pairwise fun a b => p b → p a) {n : ℕ}
    (hn : hi+1-lo ≤ n) : ∃ r, bisect p xs n lo hi (lo-1) = some r ∧ IsFloor p xs r := by
  induction n generalizing lo hi with
  | zero => exact ⟨lo-1,rfl,h.isFloor (by omega)⟩
  | succ n ih =>
      unfold FloorSearch.bisect
      split
      · rename_i hle
        obtain ⟨mid,hmid⟩ : ∃ mid : ℕ, (lo+hi)/2 = mid :=
          ⟨((lo+hi)/2).toNat,by have := h.nonneg; omega⟩
        have hlo : lo ≤ mid := by omega
        have hhi : mid ≤ hi := by omega
        have hlt : mid < xs.length := by
          have := h.lt
          omega
        obtain ⟨x,hx⟩ : ∃ x, xs[mid]? = some x := ⟨xs[mid],List.getElem?_eq_getElem hlt⟩
        simp only [hmid,Int.toNat_natCast,hx]
        split
        · rename_i hpx
          have hr := ih (h.raise hp hx hlo hhi hpx) (by omega)
          rwa [Int.add_sub_cancel] at hr
        · rename_i hpx
          exact ih (h.lower hp hx hlo hhi hpx) (by omega)
      · rename_i hm
        exact ⟨lo-1,rfl,h.isFloor (by omega)⟩

end Narrowed

/-- As many passes as there are elements find the place. -/
theorem bisect_isFloor (hp : xs.Pairwise fun a b => p b → p a) :
    ∃ r, bisect p xs xs.length 0 (xs.length-1) (-1) = some r ∧ IsFloor p xs r :=
  (narrowed_start p xs).bisect hp (by omega)

namespace IsFloor

/-- Nothing has the property. -/
theorem eq_neg_one_iff (h : IsFloor p xs r) : r = -1 ↔ ∀ x ∈ xs, ¬p x := by
  constructor
  · rintro rfl x hx hpx
    obtain ⟨i,hi⟩ := List.getElem?_of_mem hx
    have := (h.iff i x hi).mp hpx
    omega
  · intro hno
    by_contra hr
    have hge := h.ge
    have hlt := h.lt
    have hr0 : r.toNat < xs.length := by omega
    exact hno _ (List.getElem_mem hr0)
      ((h.iff r.toNat _ (List.getElem?_eq_getElem hr0)).mpr (by omega))

/-- The place found is that of the last element with the property. -/
theorem last (h : IsFloor p xs r) (hr : r ≠ -1) : ∃ x, xs[r.toNat]? = some x ∧ p x ∧
    ∀ (i : ℕ) y, xs[i]? = some y → p y → i ≤ r.toNat := by
  have hge := h.ge
  have hlt := h.lt
  have hr0 : r.toNat < xs.length := by omega
  have hx := List.getElem?_eq_getElem hr0
  refine ⟨_,hx,(h.iff _ _ hx).mpr (by omega),fun i y hy hpy => ?_⟩
  have := (h.iff i y hy).mp hpy
  omega

end IsFloor

end Kage.FloorSearch
