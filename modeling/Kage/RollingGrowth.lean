import Kage.RollingLog

/-!
# What an append adds to a rolling log

Files of a rolling log are only extended: by an entry that was accepted, at the
end of the file that is the active one afterwards, and by nothing else. So a file
is what it held at first and the entries that were placed in it, in order, and
an entry keeps its place whatever is appended later and whichever files are
opened in between.
-/
namespace Kage.RollingLog.Rolling
variable {α : Type*} {limit : ℕ} {r : Rolling α} {x : List α}

/-- An append pushes the entry to the active file or to the next one, or opens
the next one and refuses the entry. -/
theorem append_cases (limit : ℕ) (r : Rolling α) (x : List α) :
    (r.active.length+x.length ≤ limit ∧
        r.append limit x = (some r.active.length,r.push x)) ∨
      (¬r.active.length+x.length ≤ limit ∧ r.roll.active.length+x.length ≤ limit ∧
        r.append limit x = (some r.roll.active.length,r.roll.push x)) ∨
      (¬r.active.length+x.length ≤ limit ∧ ¬r.roll.active.length+x.length ≤ limit ∧
        r.append limit x = (none,r.roll)) := by
  by_cases h : r.active.length+x.length ≤ limit
  · exact .inl ⟨h,by rw [append,if_pos h]⟩
  · by_cases h' : r.roll.active.length+x.length ≤ limit
    · exact .inr (.inl ⟨h,h',by rw [append,if_neg h,if_pos h']⟩)
    · exact .inr (.inr ⟨h,h',by rw [append,if_neg h,if_neg h']⟩)

theorem roll_files_lt {n : ℕ} (hn : 0 < n) (h : ∀ b s, r.files b = some s → s.length < n)
    (b : ℕ) {s : List α} (hs : r.roll.files b = some s) : s.length < n := by
  by_cases hb : b = r.base+r.active.length
  · subst hb
    simp only [roll,openAt,Function.update_self,Option.some.injEq] at hs
    subst hs
    cases hf : r.files (r.base+r.active.length) with
    | none => simpa using hn
    | some t => simpa using h _ t hf
  · simp only [roll,openAt,Function.update_of_ne hb] at hs
    exact h b s hs

/-- A bound above the limit stays a bound. -/
theorem append_files_lt {n : ℕ} (hn : limit < n)
    (h : ∀ b s, r.files b = some s → s.length < n) (b : ℕ) {s : List α}
    (hs : (r.append limit x).2.files b = some s) : s.length < n := by
  have hroll (b : ℕ) {s : List α} (hs : r.roll.files b = some s) : s.length < n :=
    roll_files_lt (Nat.zero_lt_of_lt hn) h b hs
  have hpush (q : Rolling α) (hq : ∀ b s, q.files b = some s → s.length < n)
      (hfit : q.active.length+x.length ≤ limit) (hs : (q.push x).files b = some s) :
      s.length < n := by
    by_cases hb : b = q.base
    · subst hb
      simp only [push,Function.update_self,Option.some.injEq] at hs
      subst hs
      rw [List.length_append]
      omega
    · simp only [push,Function.update_of_ne hb] at hs
      exact hq b s hs
  rcases append_cases limit r x with ⟨hf,ha⟩|⟨-,hf,ha⟩|⟨-,-,ha⟩
  · rw [ha] at hs
    exact hpush r h hf hs
  · rw [ha] at hs
    exact hpush r.roll (fun b s => hroll b) hf hs
  · rw [ha] at hs
    exact hroll b hs

/-- An accepted entry begins where its file ended, and fits. -/
theorem append_offset {o : ℕ} (h : (r.append limit x).1 = some o) :
    o = (r.part (r.append limit x).2.base).length ∧ o+x.length ≤ limit := by
  rcases append_cases limit r x with ⟨hf,ha⟩|⟨-,hf,ha⟩|⟨-,-,ha⟩
  · rw [ha] at h ⊢
    obtain rfl := Option.some.inj h
    exact ⟨rfl,hf⟩
  · rw [ha] at h ⊢
    obtain rfl := Option.some.inj h
    exact ⟨by rw [push_base,← roll_part]; rfl,hf⟩
  · rw [ha] at h
    cases h

/-- A file gains the entry that was placed in it. -/
theorem append_part (limit : ℕ) (r : Rolling α) (x : List α) (b : ℕ) :
    (r.append limit x).2.part b = r.part b++
      (if (r.append limit x).1.isSome ∧ (r.append limit x).2.base = b then x else []) := by
  have hpush (q : Rolling α) (o : ℕ) : (q.push x).part b = q.part b++
      (if (some o).isSome ∧ (q.push x).base = b then x else []) := by
    rw [push_part,push_base]
    by_cases hb : q.base = b
    · rw [if_pos hb.symm,if_pos ⟨rfl,hb⟩,active,hb]
    · rw [if_neg (Ne.symm hb),if_neg fun h => hb h.2,List.append_nil]
  rcases append_cases limit r x with ⟨-,ha⟩|⟨-,-,ha⟩|⟨-,-,ha⟩
  · rw [ha]
    exact hpush r _
  · rw [ha,← roll_part r]
    exact hpush r.roll _
  · rw [ha]
    simp

/-- No file lies beyond the active one. -/
def Newest (r : Rolling α) : Prop := ∀ b, (r.files b).isSome → b ≤ r.base

theorem push_newest (h : r.Newest) (x : List α) : (r.push x).Newest := by
  intro b hb
  by_cases hx : b = r.base
  · exact hx.le
  · simp only [push,Function.update_of_ne hx] at hb
    exact h b hb

theorem roll_newest (h : r.Newest) : r.roll.Newest := by
  intro b hb
  by_cases hx : b = r.base+r.active.length
  · exact hx.le
  · simp only [roll,openAt,Function.update_of_ne hx] at hb
    exact (h b hb).trans (Nat.le_add_right _ _)

/-- The files before the active one stay as they are, and the active one stays or
is a new one. -/
structure Advances (r q : Rolling α) : Prop where
  newest : q.Newest
  le : r.base ≤ q.base
  fresh : q.base = r.base ∨ r.files q.base = none
  before : ∀ b < r.base, q.files b = r.files b

theorem push_advances (h : r.Newest) (x : List α) : Advances r (r.push x) :=
  ⟨push_newest h x,le_rfl,.inl rfl,fun _ hb => Function.update_of_ne hb.ne _ _⟩

theorem roll_advances (h : r.Newest) : Advances r r.roll := by
  refine ⟨roll_newest h,Nat.le_add_right _ _,?_,fun b hb => ?_⟩
  · by_cases hz : r.active.length = 0
    · exact .inl (by rw [roll,openAt,hz,Nat.add_zero])
    · refine .inr (Option.not_isSome_iff_eq_none.mp fun hs => ?_)
      have hle : r.base+r.active.length ≤ r.base := h _ hs
      omega
  · exact Function.update_of_ne (by omega) _ _

theorem append_advances (limit : ℕ) (h : r.Newest) (x : List α) :
    Advances r (r.append limit x).2 := by
  have hroll := roll_advances h
  rcases append_cases limit r x with ⟨-,ha⟩|⟨-,-,ha⟩|⟨-,-,ha⟩
  · rw [ha]
    exact push_advances h x
  · rw [ha]
    have hpush := push_advances hroll.newest x
    refine ⟨hpush.newest,hroll.le.trans hpush.le,hroll.fresh,fun b hb => ?_⟩
    exact (hpush.before b (hb.trans_le hroll.le)).trans (hroll.before b hb)
  · rw [ha]
    exact hroll

end Kage.RollingLog.Rolling
