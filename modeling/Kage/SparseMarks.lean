import Mathlib.Algebra.GroupWithZero.Nat
import Mathlib.Algebra.Order.BigOperators.Group.List
import Mathlib.Algebra.Order.Group.Nat

/-!
# Marks at bounded distances

Items of given sizes arrive one after another, and some of them are marked. A
counter adds up the sizes since the last mark. An item that would bring it to
the limit is marked, and the counter starts again from zero. Between a mark and
any later item with no mark in between there is then less than the limit.
-/
namespace Kage.SparseMarks

variable {k c n : ℕ} {sizes marked : List ℕ}

/-- Where the items before number `i` end. -/
def start (sizes : List ℕ) (i : ℕ) : ℕ := (sizes.take i).sum

/-- The numbers of the marked items and the counter, for the limit `k`. -/
structure Spaced (k : ℕ) (sizes marked : List ℕ) (c : ℕ) : Prop where
  increasing : marked.Pairwise (· < ·)
  bound : ∀ m ∈ marked, m < sizes.length
  small : c < k
  since : ∀ a, (∀ m ∈ marked, m < a) → (sizes.drop a).sum ≤ c
  gap : ∀ a i, i < sizes.length → (∀ m ∈ marked, m ≤ i → m < a) → ((sizes.take i).drop a).sum < k

theorem start_concat {i : ℕ} (h : i ≤ sizes.length) (n : ℕ) :
    start (sizes++[n]) i = start sizes i := by
  rw [start,List.take_append_of_le_length h,start]

theorem start_lt_start (hpos : ∀ n ∈ sizes, 0 < n) {i j : ℕ} (hij : i < j) (hj : j ≤ sizes.length) :
    start sizes i < start sizes j := by
  have hsplit : sizes.take j = sizes.take i++(sizes.take j).drop i := by
    have hcut := List.take_append_drop i (sizes.take j)
    rwa [List.take_take,Nat.min_eq_left hij.le,eq_comm] at hcut
  have hne : (sizes.take j).drop i ≠ [] := by
    rw [Ne,List.drop_eq_nil_iff,List.length_take]
    omega
  have hrest : 0 < ((sizes.take j).drop i).sum :=
    List.sum_pos _ (fun n hn => hpos n (List.mem_of_mem_take (List.mem_of_mem_drop hn))) hne
  rw [start,start,hsplit,List.sum_append]
  omega

theorem start_le_start_iff (hpos : ∀ n ∈ sizes, 0 < n) {i j : ℕ} (hi : i ≤ sizes.length)
    (hj : j ≤ sizes.length) : start sizes i ≤ start sizes j ↔ i ≤ j := by
  constructor
  · intro h
    by_contra hji
    exact absurd (start_lt_start hpos (not_le.mp hji) hi) (not_lt.mpr h)
  · intro h
    rcases h.lt_or_eq with hlt | rfl
    · exact (start_lt_start hpos hlt hj).le
    · exact le_rfl

theorem sum_drop_concat_le (sizes : List ℕ) (n a : ℕ) :
    ((sizes++[n]).drop a).sum ≤ (sizes.drop a).sum+n := by
  rw [List.drop_append,List.sum_append]
  rcases Nat.eq_zero_or_pos (a-sizes.length) with h | h
  · simp [h]
  · have hnil : [n].drop (a-sizes.length) = [] := List.drop_eq_nil_of_le h
    simp [hnil]

namespace Spaced

theorem nil (hk : 0 < k) : Spaced k [] [] 0 where
  increasing := .nil
  bound := by simp
  small := hk
  since := by simp
  gap := by simp

/-- Before the last item the gaps are as they were, and behind the last mark the
counter bounds them. -/
theorem gap_concat (h : Spaced k sizes marked c) (n : ℕ) {a i : ℕ} (hi : i ≤ sizes.length)
    (ha : ∀ m ∈ marked, m ≤ i → m < a) : (((sizes++[n]).take i).drop a).sum < k := by
  rw [List.take_append_of_le_length hi]
  rcases hi.lt_or_eq with hlt | rfl
  · exact h.gap a i hlt ha
  · rw [List.take_length]
    exact (h.since a fun m hm => ha m hm (h.bound m hm).le).trans_lt h.small

/-- An item that stays below the limit. -/
theorem skip (h : Spaced k sizes marked c) (hn : c+n < k) :
    Spaced k (sizes++[n]) marked (c+n) where
  increasing := h.increasing
  bound := fun m hm => by
    have := h.bound m hm
    rw [List.length_append]
    exact Nat.lt_add_right _ this
  small := hn
  since := fun a ha => (sum_drop_concat_le sizes n a).trans (Nat.add_le_add_right (h.since a ha) n)
  gap := fun a i hi ha => h.gap_concat n (by simpa [Nat.lt_succ_iff] using hi) ha

/-- An item that is marked. -/
theorem mark (h : Spaced k sizes marked c) (n : ℕ) :
    Spaced k (sizes++[n]) (marked++[sizes.length]) 0 where
  increasing := by
    rw [List.pairwise_append]
    refine ⟨h.increasing,List.pairwise_singleton _ _,fun m hm l hl => ?_⟩
    rw [List.mem_singleton.mp hl]
    exact h.bound m hm
  bound := fun m hm => by
    rw [List.length_append]
    rcases List.mem_append.mp hm with hm | hm
    · exact Nat.lt_add_right _ (h.bound m hm)
    · rw [List.mem_singleton.mp hm]
      exact Nat.lt_add_one _
  small := Nat.zero_lt_of_lt h.small
  since := fun a ha => by
    have hl : sizes.length < a := ha _ (List.mem_append_right _ (List.mem_singleton_self _))
    rw [List.drop_eq_nil_of_le (by rw [List.length_append]; exact hl)]
    exact le_rfl
  gap := fun a i hi ha => h.gap_concat n (by simpa [Nat.lt_succ_iff] using hi) fun m hm =>
    ha m (List.mem_append_left _ hm)

end Spaced

end Kage.SparseMarks
