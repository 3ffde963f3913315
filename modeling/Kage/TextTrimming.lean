import Mathlib.Data.List.Basic
import Mathlib.Data.List.Infix
import Mathlib.Order.Nat

/-!
# Lines, cuts and trimmed text

Text is a list over any alphabet. `lines` splits it at a separator, `cut` divides
it at the first occurrence of a letter, and `trim` takes words of a given list
off both ends for as long as there are any. A word is a list of letters, so that
letters of more than one byte can be taken off a byte string. A letter that is
in none of the words stops the trimming from either side.
-/
namespace Kage.TextTrimming

variable {α : Type*} {words : List (List α)} {b x y : α} {s u v : List α}

/-- A word without `x` in front of a text is in front of what precedes `x`. -/
theorem prefix_of_not_mem {w c r : List α} (h : w <+: c++x::r) (hx : x ∉ w) : w <+: c := by
  have hcx : c++[x] <+: c++x::r := ⟨r,by simp⟩
  rcases List.prefix_or_prefix_of_prefix h hcx with hw | hw
  · rcases List.prefix_concat_iff.mp hw with rfl | hc
    · exact (hx (by simp)).elim
    · exact hc
  · exact (hx (hw.subset (by simp))).elim

variable [DecidableEq α]

/-- The parts between separators; behind the last separator there is a part only
if it is not empty. -/
def lines (b : α) (s : List α) : List (List α) :=
  if (s.splitOn b).getLast? = some [] then (s.splitOn b).dropLast else s.splitOn b

/-- What stands before and behind the first `b`. -/
def cut (b : α) (s : List α) : Option (List α × List α) :=
  if b ∈ s then some (s.takeWhile fun a => a ≠ b,(s.dropWhile fun a => a ≠ b).drop 1) else none

/-- Take at most `n` words off the front. -/
def stripLoop (words : List (List α)) : ℕ → List α → List α
  | 0,s => s
  | n+1,s =>
      match words.find? fun w => w.isPrefixOf s with
      | none => s
      | some w => stripLoop words n (s.drop w.length)

def strip (words : List (List α)) (s : List α) : List α := stripLoop words s.length s

def trim (words : List (List α)) (s : List α) : List α :=
  (strip (words.map List.reverse) (strip words s).reverse).reverse

theorem lines_eq_singleton (hb : b ∉ s) (hs : s ≠ []) : lines b s = [s] := by
  rw [lines,List.splitOn_eq_singleton hb,List.getLast?_singleton,if_neg]
  simpa using hs

theorem cut_append (hb : b ∉ u) (v : List α) : cut b (u++b::v) = some (u,v) := by
  have hu : ∀ a ∈ u, decide (a ≠ b) = true := by
    intro a ha
    rw [decide_eq_true_eq]
    rintro rfl
    exact hb ha
  rw [cut,if_pos (List.mem_append_right _ List.mem_cons_self),
    List.takeWhile_append_of_pos hu,List.dropWhile_append_of_pos hu]
  simp

theorem cut_eq_none (hb : b ∉ s) : cut b s = none := if_neg hb

theorem exists_cut (hb : b ∈ s) : ∃ u v, s = u++b::v ∧ b ∉ u ∧ cut b s = some (u,v) := by
  obtain ⟨u,v,rfl,hu⟩ := List.eq_append_cons_of_mem hb
  exact ⟨u,v,rfl,hu,cut_append hu v⟩

theorem stripLoop_suffix (n : ℕ) (s : List α) : stripLoop words n s <:+ s := by
  induction n generalizing s with
  | zero => exact List.suffix_rfl
  | succ n ih =>
      unfold stripLoop
      split
      · exact List.suffix_rfl
      · exact (ih _).trans (List.drop_suffix _ _)

theorem strip_length_le (words : List (List α)) (s : List α) :
    (strip words s).length ≤ s.length := (stripLoop_suffix _ s).length_le

theorem trim_length_le (words : List (List α)) (s : List α) :
    (trim words s).length ≤ s.length := by
  have h := strip_length_le (words.map List.reverse) (strip words s).reverse
  rw [trim,List.length_reverse]
  rw [List.length_reverse] at h
  exact h.trans (strip_length_le words s)

theorem stripLoop_guard (hx : ∀ w ∈ words, x ∉ w) (n : ℕ) (c r : List α) :
    ∃ c', c' <:+ c ∧ stripLoop words n (c++x::r) = c'++x::r := by
  induction n generalizing c with
  | zero => exact ⟨c,List.suffix_rfl,rfl⟩
  | succ n ih =>
      unfold stripLoop
      split
      · exact ⟨c,List.suffix_rfl,rfl⟩
      · rename_i w hw
        have hfound := List.find?_some hw
        have hp : w <+: c := prefix_of_not_mem (List.isPrefixOf_iff_prefix.mp hfound)
          (hx w (List.mem_of_find?_eq_some hw))
        rw [List.drop_append_of_le_length hp.length_le]
        obtain ⟨c',hc',hs⟩ := ih (c.drop w.length)
        exact ⟨c',hc'.trans (List.drop_suffix _ _),hs⟩

theorem strip_guard (hx : ∀ w ∈ words, x ∉ w) (c r : List α) :
    ∃ c', c' <:+ c ∧ strip words (c++x::r) = c'++x::r := stripLoop_guard hx _ c r

theorem strip_cons_of_not_mem (hx : ∀ w ∈ words, x ∉ w) (r : List α) :
    strip words (x::r) = x::r := by
  obtain ⟨c',hc',hs⟩ := strip_guard hx [] r
  rw [List.suffix_nil.mp hc'] at hs
  exact hs

/-- Trimming stops at the last `y` that is in no word. -/
theorem trim_of_strip (hy : ∀ w ∈ words, y ∉ w) {m c : List α}
    (h : strip words s = m++y::c) : ∃ c', c' <+: c ∧ trim words s = m++y::c' := by
  have hy' : ∀ w ∈ words.map List.reverse, y ∉ w := by
    intro w hw
    obtain ⟨v,hv,rfl⟩ := List.mem_map.mp hw
    rw [List.mem_reverse]
    exact hy v hv
  obtain ⟨c',hc',hs⟩ := strip_guard hy' c.reverse m.reverse
  refine ⟨c'.reverse,?_,?_⟩
  · rw [← List.reverse_suffix,List.reverse_reverse]
    exact hc'
  · rw [trim,h]
    simp only [List.reverse_append,List.reverse_cons,List.append_assoc,List.singleton_append]
    rw [hs]
    simp

theorem trim_cons (hx : ∀ w ∈ words, x ∉ w) (u : List α) :
    ∃ u', u' <+: u ∧ trim words (x::u) = x::u' :=
  trim_of_strip hx (m := []) (strip_cons_of_not_mem hx u)

theorem trim_between (hx : ∀ w ∈ words, x ∉ w) (hy : ∀ w ∈ words, y ∉ w) (m : List α) :
    trim words (x::(m++[y])) = x::(m++[y]) := by
  obtain ⟨c',hc',h⟩ := trim_of_strip hy (m := x::m) (strip_cons_of_not_mem hx (m++[y]))
  rw [List.prefix_nil.mp hc'] at h
  exact h

/-- A letter that is a word of its own is taken off. -/
theorem trim_cons_of_find (h : words.find? (fun w => w.isPrefixOf (x::s)) = some [x]) :
    trim words (x::s) = trim words s := by
  have hs : strip words (x::s) = strip words s := by
    rw [strip,List.length_cons,stripLoop,h]
    rfl
  rw [trim,hs,trim]

end Kage.TextTrimming
