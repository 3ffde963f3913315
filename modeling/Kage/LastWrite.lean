import Mathlib.Data.List.Basic
import Mathlib.Data.List.Induction
import Mathlib.Order.Nat
import Mathlib.Logic.Function.Basic

/-!
# Tables that follow a log of writes

A log of keyed writes determines a table: the last write to a key wins. `replay`
computes that table and `lastValue` says what it is.

`Board` is a table that is filled by writers who first append to the log and
later publish what they appended, each write at a moment of its own. Between
the two moments other writers may append and publish. The table holds, for each
key, the latest of the writes published so far, as long as no write is
published after a later write to its key. When everything is published, such a
table is the replay of the log.
-/
namespace Kage.LastWrite

variable {κ ν : Type*}

/-- The value of the last write to a key. -/
def lastValue [DecidableEq κ] (ws : List (κ × ν)) (k : κ) : Option ν :=
  (ws.reverse.find? fun w => decide (w.1 = k)).map Prod.snd

/-- Apply the writes in order. -/
def replay [DecidableEq κ] (table : κ → Option ν) (ws : List (κ × ν)) : κ → Option ν :=
  ws.foldl (fun t w => Function.update t w.1 (some w.2)) table

theorem lastValue_concat [DecidableEq κ] (ws : List (κ × ν)) (w : κ × ν) (k : κ) :
    lastValue (ws++[w]) k = if w.1 = k then some w.2 else lastValue ws k := by
  rw [lastValue,List.reverse_concat,List.find?_cons]
  by_cases h : w.1 = k
  · simp [h]
  · simp [h,lastValue]

theorem lastValue_append [DecidableEq κ] (us vs : List (κ × ν)) (k : κ) :
    lastValue (us++vs) k = (lastValue vs k).or (lastValue us k) := by
  rw [lastValue,List.reverse_append,List.find?_append,Option.map_or,lastValue,lastValue]

/-- Where every key is written once, the order of the writes does not matter. -/
theorem lastValue_of_nodup [DecidableEq κ] {ws : List (κ × ν)} (h : (ws.map Prod.fst).Nodup)
    {k : κ} {v : ν} : lastValue ws k = some v ↔ (k,v) ∈ ws := by
  induction ws using List.reverseRecOn with
  | nil => simp [lastValue]
  | append_singleton ws w ih =>
      rw [List.map_append,List.nodup_append] at h
      rw [lastValue_concat,List.mem_append,List.mem_singleton]
      split
      · rename_i hk
        have hw : (k,v) ∉ ws := fun hm =>
          h.2.2 k (List.mem_map_of_mem hm) w.1 (by simp) hk.symm
        simp only [Option.some.injEq,hw,false_or,Prod.ext_iff,hk,true_and]
        exact eq_comm
      · rename_i hk
        rw [ih h.1]
        constructor
        · exact .inl
        · rintro (hm | rfl)
          · exact hm
          · exact (hk rfl).elim

theorem lastValue_perm [DecidableEq κ] {us vs : List (κ × ν)} (h : us.Perm vs)
    (hn : (us.map Prod.fst).Nodup) : lastValue us = lastValue vs := by
  funext k
  apply Option.ext
  intro v
  rw [lastValue_of_nodup hn,lastValue_of_nodup ((h.map _).nodup_iff.mp hn),h.mem_iff]

theorem replay_eq_lastValue [DecidableEq κ] (ws : List (κ × ν)) (k : κ) :
    replay (fun _ => none) ws k = lastValue ws k := by
  induction ws using List.reverseRecOn with
  | nil => rfl
  | append_singleton ws w ih =>
      rw [replay,List.foldl_concat,lastValue_concat,← ih,replay,Function.update_apply]
      simp only [eq_comm (a := k)]

/-- The last of the writes that `shown` lets through. -/
def Latest (shown : ℕ → κ × ν → Prop) (k : κ) (v : ν) : Prop :=
  ∃ i, shown i (k,v) ∧ ∀ j w, i < j → shown j w → w.1 ≠ k

section Adding
variable {shown : ℕ → κ × ν → Prop} {n : ℕ} {w : κ × ν} {k : κ} {v : ν}

/-- One more write is shown, and none behind it has its key. -/
theorem latest_add [DecidableEq κ] (hlast : ∀ j x, n < j → shown j x → x.1 ≠ w.1)
    (hself : ∀ x, shown n x → x = w) :
    Latest (fun i x => shown i x ∨ (i = n ∧ x = w)) k v ↔
      if w.1 = k then w.2 = v else Latest shown k v := by
  by_cases hk : w.1 = k
  · subst hk
    rw [if_pos rfl]
    constructor
    · rintro ⟨i,hi|⟨-,hw⟩,hl⟩
      · have hin : ¬n < i := fun h => hlast i _ h hi rfl
        have hni : ¬i < n := fun h => hl n w h (.inr ⟨rfl,rfl⟩) rfl
        obtain rfl : i = n := by omega
        rw [← hself _ hi]
      · rw [← hw]
    · rintro rfl
      refine ⟨n,.inr ⟨rfl,rfl⟩,fun j x hj hx => ?_⟩
      rcases hx with hx|⟨rfl,-⟩
      · exact hlast j x hj hx
      · exact absurd hj (lt_irrefl j)
  · rw [if_neg hk]
    constructor
    · rintro ⟨i,hi|⟨-,rfl⟩,hl⟩
      · exact ⟨i,hi,fun j x hj hx => hl j x hj (.inl hx)⟩
      · exact absurd rfl hk
    · rintro ⟨i,hi,hl⟩
      refine ⟨i,.inl hi,fun j x hj hx => ?_⟩
      rcases hx with hx|⟨-,rfl⟩
      · exact hl j x hj hx
      · exact hk

end Adding

theorem getElem?_concat_iff {α : Type*} (xs : List α) (x y : α) (i : ℕ) :
    (xs++[x])[i]? = some y ↔ xs[i]? = some y ∨ (i = xs.length ∧ y = x) := by
  rcases lt_trichotomy i xs.length with h|rfl|h
  · rw [List.getElem?_append_left h]
    simp [h.ne]
  · simp [eq_comm]
  · rw [List.getElem?_eq_none (by rw [List.length_append]; exact h),List.getElem?_eq_none h.le]
    simp [h.ne']

/-- The elements of a log that are no writes keep their place and do nothing. -/
theorem lastValue_filterMap [DecidableEq κ] {α : Type*} (f : α → Option (κ × ν)) (xs : List α)
    (k : κ) (v : ν) : lastValue (xs.filterMap f) k = some v ↔
      Latest (fun i w => ∃ x, xs[i]? = some x ∧ f x = some w) k v := by
  induction xs using List.reverseRecOn with
  | nil => simp [lastValue,Latest]
  | append_singleton xs x ih =>
      have hout : ∀ {j : ℕ} {w : κ × ν}, xs.length ≤ j → ¬∃ y, xs[j]? = some y ∧ f y = some w := by
        rintro j w hj ⟨y,hy,-⟩
        rw [List.getElem?_eq_none hj] at hy
        cases hy
      rw [List.filterMap_append]
      cases hx : f x with
      | none =>
          have hshown : (fun (i : ℕ) (w : κ × ν) => ∃ y, (xs++[x])[i]? = some y ∧ f y = some w) =
              fun i w => ∃ y, xs[i]? = some y ∧ f y = some w := by
            funext i w
            simp only [getElem?_concat_iff,eq_iff_iff]
            constructor
            · rintro ⟨y,hy|⟨-,rfl⟩,hf⟩
              · exact ⟨y,hy,hf⟩
              · rw [hx] at hf
                cases hf
            · rintro ⟨y,hy,hf⟩
              exact ⟨y,.inl hy,hf⟩
          rw [List.filterMap_cons_none hx,List.filterMap_nil,List.append_nil,ih,hshown]
      | some w₀ =>
          have hshown : (fun (i : ℕ) (w : κ × ν) => ∃ y, (xs++[x])[i]? = some y ∧ f y = some w) =
              fun i w => (∃ y, xs[i]? = some y ∧ f y = some w) ∨ (i = xs.length ∧ w = w₀) := by
            funext i w
            simp only [getElem?_concat_iff,eq_iff_iff]
            constructor
            · rintro ⟨y,hy|⟨hi,rfl⟩,hf⟩
              · exact .inl ⟨y,hy,hf⟩
              · exact .inr ⟨hi,Option.some.inj (hf.symm.trans hx)⟩
            · rintro (⟨y,hy,hf⟩|⟨hi,rfl⟩)
              · exact ⟨y,.inl hy,hf⟩
              · exact ⟨x,.inr ⟨hi,rfl⟩,hx⟩
          rw [List.filterMap_cons_some hx,List.filterMap_nil,hshown,
            latest_add (fun j w hj hw => absurd hw (hout hj.le))
              (fun w hw => absurd hw (hout le_rfl)),
            lastValue_concat,← ih]
          split
          · exact Option.some_inj
          · rfl

theorem lastValue_eq_some_iff [DecidableEq κ] (ws : List (κ × ν)) (k : κ) (v : ν) :
    lastValue ws k = some v ↔ Latest (fun i w => ws[i]? = some w) k v := by
  have h := lastValue_filterMap some ws k v
  simpa only [List.filterMap_some,Option.some.injEq,exists_eq_right] using h

theorem mem_of_lastValue [DecidableEq κ] {ws : List (κ × ν)} {k : κ} {v : ν}
    (h : lastValue ws k = some v) : (k,v) ∈ ws := by
  obtain ⟨i,hi,-⟩ := (lastValue_eq_some_iff ws k v).mp h
  exact List.mem_of_getElem? hi

/-- A log, a table and the positions of the log that were published in it. -/
structure Board (κ ν : Type*) where
  log : List (κ × ν)
  table : κ → Option ν
  published : List ℕ

namespace Board
variable {b : Board κ ν}

def empty : Board κ ν := ⟨[],fun _ => none,[]⟩

def append (b : Board κ ν) (w : κ × ν) : Board κ ν := {b with log := b.log++[w]}

def publish [DecidableEq κ] (b : Board κ ν) (i : ℕ) (w : κ × ν) : Board κ ν :=
  {b with table := Function.update b.table w.1 (some w.2), published := i::b.published}

/-- The writes that were published. -/
def Shown (b : Board κ ν) (i : ℕ) (w : κ × ν) : Prop := b.log[i]? = some w ∧ i ∈ b.published

/-- A later write to the key was published already. -/
def Overtaken (b : Board κ ν) (i : ℕ) (k : κ) : Prop := ∃ j w, i < j ∧ b.Shown j w ∧ w.1 = k

/-- The table shows the latest published writes, and only writes of the log were
published. -/
structure Current (b : Board κ ν) : Prop where
  table : ∀ k v, b.table k = some v ↔ Latest b.Shown k v
  bound : ∀ i ∈ b.published, i < b.log.length

theorem empty_current : (empty : Board κ ν).Current where
  table := fun k v => by simp [empty,Latest,Shown]
  bound := by simp [empty]

theorem Current.append (h : b.Current) (w : κ × ν) : (b.append w).Current where
  table := fun k v => by
    have hs : (b.append w).Shown = b.Shown := by
      funext i x
      rw [Shown,Shown,Board.append,getElem?_concat_iff,eq_iff_iff]
      constructor
      · rintro ⟨hx|⟨rfl,-⟩,hi⟩
        · exact ⟨hx,hi⟩
        · exact absurd (h.bound _ hi) (lt_irrefl _)
      · exact fun hx => ⟨.inl hx.1,hx.2⟩
    rw [hs]
    exact h.table k v
  bound := fun i hi => by
    have := h.bound i hi
    rw [Board.append,List.length_append]
    exact Nat.lt_add_right _ this

theorem Current.publish [DecidableEq κ] (h : b.Current) {i : ℕ} {w : κ × ν}
    (hw : b.log[i]? = some w)
    (ho : ¬b.Overtaken i w.1) : (b.publish i w).Current where
  table := fun k v => by
    have hs : (b.publish i w).Shown = fun j x => b.Shown j x ∨ (j = i ∧ x = w) := by
      funext j x
      rw [Shown,Shown,Board.publish,eq_iff_iff,List.mem_cons]
      constructor
      · rintro ⟨hx,rfl|hj⟩
        · exact .inr ⟨rfl,Option.some_inj.mp (hx.symm.trans hw)⟩
        · exact .inl ⟨hx,hj⟩
      · rintro (hx|⟨rfl,rfl⟩)
        · exact ⟨hx.1,.inr hx.2⟩
        · exact ⟨hw,.inl rfl⟩
    rw [hs,latest_add (fun j x hj hx hk => ho ⟨j,x,hj,hx,hk⟩)
      (fun x hx => Option.some_inj.mp (hx.1.symm.trans hw)),Board.publish,← h.table]
    simp only [Function.update_apply]
    by_cases hk : k = w.1
    · simp [hk]
    · simp [hk,Ne.symm hk]
  bound := fun j hj => by
    rcases List.mem_cons.mp hj with rfl|hj
    · exact (List.getElem?_eq_some_iff.mp hw).1
    · exact h.bound j hj

/-- When every write was published the table is the replay of the log. -/
theorem Current.eq_replay [DecidableEq κ] (h : b.Current)
    (ha : ∀ i < b.log.length, i ∈ b.published) :
    b.table = replay (fun _ => none) b.log := by
  funext k
  apply Option.ext
  intro v
  have hs : b.Shown = fun i w => b.log[i]? = some w := by
    funext i w
    rw [Shown,eq_iff_iff,and_iff_left_iff_imp]
    exact fun hw => ha i (List.getElem?_eq_some_iff.mp hw).1
  rw [h.table,replay_eq_lastValue,lastValue_eq_some_iff,hs]

end Board

end Kage.LastWrite
