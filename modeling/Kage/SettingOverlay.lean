import Kage.LastWrite

/-!
# Settings laid over each other

A table has a value for every key, and the type of the value depends on the key.
Texts are laid over it one after another, each for one key. A text that cannot be
read for its key spoils the whole table; otherwise the last text for a key
decides, and a key without a text keeps what it had. Which texts there are and
which is the last for each key is therefore all that matters of their order.
-/
namespace Kage.SettingOverlay
open LastWrite

variable {κ τ : Type*} [DecidableEq κ] {V : κ → Type*} {read : ∀ k, τ → Option (V k)}
variable {c c' : ∀ k, V k} {us vs ws : List (κ × τ)}

def overlay (read : ∀ k, τ → Option (V k)) : (∀ k, V k) → List (κ × τ) → Option (∀ k, V k)
  | c,[] => some c
  | c,(k,t)::ws =>
      match read k t with
      | none => none
      | some v => overlay read (Function.update c k v) ws

theorem overlay_append (us vs : List (κ × τ)) :
    overlay read c (us++vs) = (overlay read c us).bind fun c' => overlay read c' vs := by
  induction us generalizing c with
  | nil => rfl
  | cons w us ih =>
      simp only [List.cons_append,overlay]
      cases read w.1 w.2 with
      | none => rfl
      | some v => exact ih

theorem overlay_eq_none_iff : overlay read c ws = none ↔ ∃ w ∈ ws, read w.1 w.2 = none := by
  induction ws generalizing c with
  | nil => simp [overlay]
  | cons w ws ih =>
      rw [overlay,List.exists_mem_cons_iff]
      cases h : read w.1 w.2 with
      | none => simp
      | some v => simp [ih]

/-- The value that the texts give to a key of the table `c`. -/
def Settles (read : ∀ k, τ → Option (V k)) (c : ∀ k, V k) (ws : List (κ × τ)) (k : κ) (v : V k) :
    Prop :=
  match lastValue ws k with
  | some t => read k t = some v
  | none => v = c k

theorem overlay_settles (h : overlay read c ws = some c') (k : κ) :
    Settles read c ws k (c' k) := by
  induction ws using List.reverseRecOn generalizing c' with
  | nil =>
      cases h
      rfl
  | append_singleton ws w ih =>
      rw [overlay_append] at h
      obtain ⟨c₁,h₁,h₂⟩ := Option.bind_eq_some_iff.mp h
      have hk := ih h₁
      rw [overlay] at h₂
      cases hr : read w.1 w.2 with
      | none =>
          rw [hr] at h₂
          cases h₂
      | some v =>
          rw [hr] at h₂
          cases h₂
          rw [Settles,lastValue_concat]
          by_cases he : w.1 = k
          · subst he
            rw [if_pos rfl,Function.update_self]
            exact hr
          · rw [if_neg he,Function.update_of_ne (Ne.symm he)]
            exact hk

theorem Settles.unique {k : κ} {v v' : V k} (h : Settles read c ws k v)
    (h' : Settles read c ws k v') : v = v' := by
  unfold Settles at h h'
  cases hl : lastValue ws k with
  | none =>
      rw [hl] at h h'
      exact h.trans h'.symm
  | some t =>
      rw [hl] at h h'
      exact Option.some.inj (h.symm.trans h')

/-- The order of the texts matters only where it changes the last one for a key. -/
theorem overlay_congr (hmem : ∀ w, w ∈ us ↔ w ∈ vs) (hlast : lastValue us = lastValue vs) :
    overlay read c us = overlay read c vs := by
  cases hu : overlay read c us with
  | none =>
      obtain ⟨w,hw,hr⟩ := overlay_eq_none_iff.mp hu
      exact (overlay_eq_none_iff.mpr ⟨w,(hmem w).mp hw,hr⟩).symm
  | some a =>
      cases hv : overlay read c vs with
      | none =>
          obtain ⟨w,hw,hr⟩ := overlay_eq_none_iff.mp hv
          rw [overlay_eq_none_iff.mpr ⟨w,(hmem w).mpr hw,hr⟩] at hu
          cases hu
      | some b =>
          have hab : a = b := by
            funext k
            have ha := overlay_settles hu k
            rw [Settles,hlast] at ha
            exact Settles.unique ha (overlay_settles hv k)
          rw [hab]

/-- A property of the values that the table had and that every reading has. -/
theorem overlay_forall {P : ∀ k, V k → Prop} (hc : ∀ k, P k (c k))
    (hread : ∀ k t v, read k t = some v → P k v) (h : overlay read c ws = some c') (k : κ) :
    P k (c' k) := by
  have hk := overlay_settles h k
  unfold Settles at hk
  cases hl : lastValue ws k with
  | none =>
      rw [hl] at hk
      rw [hk]
      exact hc k
  | some t =>
      rw [hl] at hk
      exact hread k t _ hk

end Kage.SettingOverlay
