import Mathlib.Data.List.Basic
import Mathlib.Data.List.Flatten
import Mathlib.Data.List.Pairwise
import Mathlib.Order.Nat
import Mathlib.Algebra.GroupWithZero.Nat
import Mathlib.Data.Set.Basic
import Mathlib.Logic.Function.Basic

/-!
# Rolling logs

A log kept in several files, each named by the position at which it begins.
Only the active file is extended. An entry that would take it past the limit
makes the log roll: the next file begins where the active one ends, and the
entry is tried there once more. Rolling opens whatever carries that name.

Started on no files, the files lie end to end and are together the accepted
entries in order. This is `Tiles`, with the files that hold nothing left open.
Its consequences are what restarting at position zero is measured against: the
first file stays the active one exactly when no entry had to leave it.
-/
namespace Kage.RollingLog
variable {α : Type*}

structure Rolling (α : Type*) where
  files : ℕ → Option (List α)
  base : ℕ

/-- The files when each of the parts begins where the previous one ends. -/
def layout : ℕ → List (List α) → ℕ → List α
  | _,[],_ => []
  | o,s::ss,b => if b = o then s else layout (o+s.length) ss b

/-- Where each of the parts begins. -/
def place : ℕ → List (List α) → List (ℕ × List α)
  | _,[] => []
  | o,s::ss => (o,s)::place (o+s.length) ss

theorem layout_mem (o : ℕ) (ss : List (List α)) (b : ℕ) :
    layout o ss b = [] ∨ layout o ss b ∈ ss := by
  induction ss generalizing o with
  | nil => exact .inl rfl
  | cons s ss ih =>
      rw [layout]
      split
      · exact .inr List.mem_cons_self
      · exact (ih (o+s.length)).imp_right (List.mem_cons_of_mem _)

theorem layout_end {o b : ℕ} {ss : List (List α)} (hn : ∀ s ∈ ss, s ≠ [])
    (h : o+ss.flatten.length ≤ b) : layout o ss b = [] := by
  induction ss generalizing o with
  | nil => rfl
  | cons s ss ih =>
      have hs := List.length_pos_iff.mpr (hn s List.mem_cons_self)
      rw [List.flatten_cons,List.length_append] at h
      rw [layout,if_neg (by omega)]
      exact ih (fun t ht => hn t (List.mem_cons_of_mem _ ht)) (by omega)

/-- The last part is found at the end of the others. -/
theorem layout_concat {ss : List (List α)} (hn : ∀ s ∈ ss, s ≠ []) (o : ℕ) (a : List α) (b : ℕ) :
    layout o (ss++[a]) b = if b = o+ss.flatten.length then a else layout o ss b := by
  induction ss generalizing o with
  | nil => simp [layout]
  | cons s ss ih =>
      have hs := List.length_pos_iff.mpr (hn s List.mem_cons_self)
      have hi := ih (fun t ht => hn t (List.mem_cons_of_mem _ ht)) (o+s.length)
      rw [List.cons_append,layout,layout,List.flatten_cons,List.length_append,hi]
      by_cases hb : b = o
      · rw [if_pos hb,if_neg (by omega),if_pos hb]
      · rw [if_neg hb,if_neg hb,Nat.add_assoc]

/-- If anything lies past position zero, then also where the first part ends. -/
theorem layout_second {ss : List (List α)} (hn : ∀ s ∈ ss, s ≠ []) {a : List α} {b : ℕ}
    (hb : b ≠ 0) (h : layout 0 (ss++[a]) b ≠ []) :
    layout 0 (ss++[a]) 0 ≠ [] ∧ layout 0 (ss++[a]) (layout 0 (ss++[a]) 0).length ≠ [] := by
  cases ss with
  | nil => simp [layout,hb] at h
  | cons c ss =>
      have hc := hn c List.mem_cons_self
      have hpos := List.length_pos_iff.mpr hc
      have h0 : layout 0 (c::ss++[a]) 0 = c := by simp [layout]
      rw [h0]
      refine ⟨hc,?_⟩
      rw [List.cons_append,layout,if_neg (by omega),Nat.zero_add]
      cases ss with
      | nil =>
          simp only [List.cons_append,List.nil_append,layout,if_neg hb,Nat.zero_add] at h ⊢
          split at h
          · simpa using h
          · exact (h rfl).elim
      | cons t ss =>
          have ht := hn t (by simp)
          simpa [layout] using ht

/-- No part is longer than the limit. -/
def Bounded (limit : ℕ) (ss : List (List α)) : Prop := ∀ s ∈ ss, s.length ≤ limit

theorem Bounded.concat {limit : ℕ} {ss : List (List α)} {a : List α} (h : Bounded limit ss)
    (ha : a.length ≤ limit) : Bounded limit (ss++[a]) := by
  intro s hs
  rcases List.mem_append.mp hs with hs | hs
  · exact h s hs
  · exact List.mem_singleton.mp hs ▸ ha

theorem place_concat (o : ℕ) (ss : List (List α)) (a : List α) :
    place o (ss++[a]) = place o ss++[(o+ss.flatten.length,a)] := by
  induction ss generalizing o with
  | nil => simp [place]
  | cons s ss ih => simp [place,ih,Nat.add_assoc]

theorem place_snd (o : ℕ) (ss : List (List α)) : (place o ss).map Prod.snd = ss := by
  induction ss generalizing o with
  | nil => rfl
  | cons s ss ih => simp [place,ih]

theorem place_chain (o : ℕ) (ss : List (List α)) :
    (place o ss).IsChain fun p q => q.1 = p.1+p.2.length := by
  induction ss generalizing o with
  | nil => exact .nil
  | cons s ss ih =>
      cases ss with
      | nil => exact .singleton _
      | cons t ss => exact .cons_cons rfl (ih (o+s.length))

theorem le_of_mem_place {o : ℕ} {ss : List (List α)} {p : ℕ × List α} (h : p ∈ place o ss) :
    o ≤ p.1 := by
  induction ss generalizing o with
  | nil => cases h
  | cons s ss ih =>
      rcases List.mem_cons.mp h with rfl | hm
      · exact le_rfl
      · have := ih hm
        omega

/-- Parts that hold something begin at different positions, and the file there
is the part. -/
theorem place_increasing {o : ℕ} {ss : List (List α)} (hn : ∀ s ∈ ss, s ≠ []) (a : List α) :
    (place o (ss++[a])).Pairwise fun p q => p.1 < q.1 := by
  induction ss generalizing o with
  | nil => simp [place]
  | cons s ss ih =>
      have hs := List.length_pos_iff.mpr (hn s List.mem_cons_self)
      refine List.Pairwise.cons (fun q hq => ?_) (ih fun t ht => hn t (List.mem_cons_of_mem _ ht))
      have := le_of_mem_place hq
      simp only
      omega

theorem mem_place {o : ℕ} {ss : List (List α)} (hn : ∀ s ∈ ss, s ≠ []) (a : List α)
    {p : ℕ × List α} (h : p ∈ place o (ss++[a])) : layout o (ss++[a]) p.1 = p.2 := by
  induction ss generalizing o with
  | nil =>
      obtain rfl := List.mem_singleton.mp h
      simp [layout]
  | cons s ss ih =>
      have hs := List.length_pos_iff.mpr (hn s List.mem_cons_self)
      rcases List.mem_cons.mp h with rfl | hm
      · simp [layout]
      · have := le_of_mem_place hm
        rw [List.cons_append,layout,if_neg (by omega)]
        exact ih (fun t ht => hn t (List.mem_cons_of_mem _ ht)) hm

namespace Rolling

def part (r : Rolling α) (b : ℕ) : List α := (r.files b).getD []

def active (r : Rolling α) : List α := r.part r.base

/-- Make a file the active one, creating it when it is missing. -/
def openAt (files : ℕ → Option (List α)) (b : ℕ) : Rolling α :=
  ⟨Function.update files b (some ((files b).getD [])),b⟩

def push (r : Rolling α) (x : List α) : Rolling α :=
  {r with files := Function.update r.files r.base (some (r.active++x))}

def roll (r : Rolling α) : Rolling α := openAt r.files (r.base+r.active.length)

/-- The position in the active file where the entry went, or nothing when it
was refused after rolling. -/
def append (limit : ℕ) (r : Rolling α) (x : List α) : Option ℕ × Rolling α :=
  if r.active.length+x.length ≤ limit then (some r.active.length,r.push x)
  else if r.roll.active.length+x.length ≤ limit then (some r.roll.active.length,r.roll.push x)
  else (none,r.roll)

def run (limit : ℕ) : Rolling α → List (List α) → Rolling α
  | r,[] => r
  | r,x::xs => run limit (r.append limit x).2 xs

/-- The entries of a run that were not refused. -/
def accepted (limit : ℕ) : Rolling α → List (List α) → List (List α)
  | _,[] => []
  | r,x::xs =>
      (if (r.append limit x).1.isSome then [x] else [])++accepted limit (r.append limit x).2 xs

theorem openAt_part (files : ℕ → Option (List α)) (b c : ℕ) :
    (openAt files b).part c = (files c).getD [] := by
  unfold openAt part
  by_cases h : c = b
  · subst c
    simp
  · simp [h]

theorem push_part (r : Rolling α) (x : List α) (b : ℕ) :
    (r.push x).part b = if b = r.base then r.active++x else r.part b := by
  unfold push part
  by_cases h : b = r.base
  · simp [h]
  · simp [h]

@[simp] theorem roll_part (r : Rolling α) (b : ℕ) : r.roll.part b = r.part b :=
  openAt_part r.files _ b

theorem roll_active (r : Rolling α) : r.roll.active = r.part (r.base+r.active.length) :=
  roll_part r _

@[simp] theorem push_base (r : Rolling α) (x : List α) : (r.push x).base = r.base := rfl

@[simp] theorem push_active (r : Rolling α) (x : List α) : (r.push x).active = r.active++x := by
  rw [active,push_part,push_base,if_pos rfl]

@[simp] theorem roll_base (r : Rolling α) : r.roll.base = r.base+r.active.length := rfl

/-- What was accepted fits in a file. -/
theorem length_le_of_isSome {limit : ℕ} {r : Rolling α} {x : List α}
    (h : (r.append limit x).1.isSome) : x.length ≤ limit := by
  unfold append at h
  split at h
  · omega
  · split at h
    · omega
    · cases h

/-- A log that is still in its first file took what fits in a file. -/
theorem append_first {limit : ℕ} {r : Rolling α} {x : List α}
    (h : (r.append limit x).2.base = 0) :
    r.base = 0 ∧ ((r.append limit x).1.isSome ↔ x.length ≤ limit) ∧
      (r.append limit x).2.active = r.active++(if x.length ≤ limit then x else []) := by
  unfold append at h ⊢
  split at h
  next hf =>
    have hx : x.length ≤ limit := by omega
    rw [if_pos hf,if_pos hx]
    exact ⟨h,by simp [hx],push_active r x⟩
  next hf =>
    have hb : r.base+r.active.length = 0 := by
      split at h <;> exact h
    have hr : r.roll.active = r.active := by
      rw [roll_active,hb,active]
      congr 1
      omega
    have hx : ¬x.length ≤ limit := by omega
    rw [if_neg hf,if_neg (by rw [hr]; exact hf),if_neg hx,List.append_nil]
    exact ⟨by omega,by simp [hx],hr⟩

theorem base_le_append (limit : ℕ) (r : Rolling α) (x : List α) :
    r.base ≤ (r.append limit x).2.base := by
  unfold append
  split
  · exact le_rfl
  · split <;> simp

theorem base_le_run (limit : ℕ) (r : Rolling α) (xs : List (List α)) :
    r.base ≤ (r.run limit xs).base := by
  induction xs generalizing r with
  | nil => exact le_rfl
  | cons x xs ih => exact (base_le_append limit r x).trans (ih _)

/-- The files that hold something are `closed`, end to end from zero, followed
by the active one. Besides these only the names in `spare` may exist. -/
structure Tiles (r : Rolling α) (spare : Set ℕ) (closed : List (List α)) (last : List α) :
    Prop where
  base : r.base = closed.flatten.length
  nonempty : ∀ s ∈ closed, s ≠ []
  part : ∀ b, r.part b = layout 0 (closed++[last]) b
  present : ∀ b, (r.files b).isSome ↔ b ∈ spare ∨ b ∈ (place 0 (closed++[last])).map Prod.fst

section Tiles
variable {r : Rolling α} {spare : Set ℕ} {closed : List (List α)} {last : List α} {limit : ℕ}

/-- Opening at zero when no other file holds anything. -/
theorem Tiles.openAt (files : ℕ → Option (List α)) (h : ∀ b, b ≠ 0 → (files b).getD [] = []) :
    (openAt files 0).Tiles {b | (files b).isSome} [] ((files 0).getD []) := by
  refine ⟨rfl,by simp,fun b => ?_,fun b => ?_⟩
  · rw [openAt_part]
    by_cases hb : b = 0
    · simp [layout,hb]
    · simp [layout,hb,h b hb]
  · by_cases hb : b = 0
    · simp [Rolling.openAt,place,hb]
    · simp [Rolling.openAt,place,hb]

/-- A log without files, opened at zero. -/
theorem Tiles.empty : (Rolling.openAt (fun _ => (none : Option (List α))) 0).Tiles ∅ [] [] := by
  have h := Tiles.openAt (fun _ => (none : Option (List α))) (by simp)
  simpa using h

theorem Tiles.active (h : r.Tiles spare closed last) : r.active = last := by
  rw [Rolling.active,h.part,layout_concat h.nonempty,if_pos (by rw [h.base,Nat.zero_add])]

theorem Tiles.part_length_le (h : r.Tiles spare closed last)
    (hl : Bounded limit (closed++[last])) (b : ℕ) : (r.part b).length ≤ limit := by
  rw [h.part]
  rcases layout_mem 0 (closed++[last]) b with hm | hm
  · rw [hm]
    exact Nat.zero_le _
  · exact hl _ hm

theorem Tiles.push (h : r.Tiles spare closed last) (x : List α) :
    (r.push x).Tiles spare closed (last++x) := by
  refine ⟨h.base,h.nonempty,fun b => ?_,fun b => ?_⟩
  · rw [push_part,h.active,h.part,layout_concat h.nonempty,layout_concat h.nonempty,Nat.zero_add,
      ← h.base]
    split <;> rfl
  · have hp := h.present b
    rw [place_concat,List.map_append,← h.base] at hp ⊢
    by_cases hb : b = r.base
    · simp [Rolling.push,hb]
    · simpa [Rolling.push,hb] using hp

/-- After rolling, the active file is empty. -/
theorem Tiles.roll (h : r.Tiles spare closed last) :
    ∃ closed', closed'.flatten = closed.flatten++last ∧
      (∀ s ∈ closed', s ∈ closed ∨ s = last) ∧ r.roll.Tiles spare closed' [] := by
  have hpresent : ∀ b, (r.roll.files b).isSome ↔
      b = r.base+last.length ∨ (r.files b).isSome := by
    intro b
    rw [← h.active]
    by_cases hb : b = r.base+r.active.length <;> simp [Rolling.roll,Rolling.openAt,hb]
  by_cases hl : last = []
  · subst last
    refine ⟨closed,by simp,fun s hs => .inl hs,?_,h.nonempty,fun b => ?_,fun b => ?_⟩
    · rw [roll_base,h.active,h.base]
      rfl
    · rw [roll_part,h.part]
    · rw [hpresent,h.present,place_concat,List.map_append,← h.base]
      simp only [List.length_nil,Nat.add_zero,Nat.zero_add,List.map_cons,List.map_nil,
        List.mem_append,List.mem_singleton]
      tauto
  · have hn : ∀ s ∈ closed++[last], s ≠ [] := by
      intro s hs
      rcases List.mem_append.mp hs with hm | hm
      · exact h.nonempty s hm
      · exact List.mem_singleton.mp hm ▸ hl
    refine ⟨closed++[last],by simp,fun s hs => by simpa using hs,?_,hn,fun b => ?_,fun b => ?_⟩
    · rw [roll_base,h.active,h.base]
      simp
    · rw [roll_part,h.part,layout_concat hn 0 []]
      split
      · rename_i hb
        exact layout_end hn (by omega)
      · rfl
    · have he : (closed++[last]).flatten.length = r.base+last.length := by simp [h.base]
      rw [hpresent,h.present,place_concat 0 (closed++[last]),List.map_append,he]
      simp only [Nat.zero_add,List.map_cons,List.map_nil,List.mem_append,List.mem_singleton]
      tauto

theorem Tiles.roll_active (h : r.Tiles spare closed last) : r.roll.active = [] := by
  obtain ⟨_,-,-,hr⟩ := h.roll
  exact hr.active

theorem Tiles.append_fits (h : r.Tiles spare closed last) {x : List α}
    (hx : last.length+x.length ≤ limit) :
    r.append limit x = (some last.length,r.push x) := by
  rw [Rolling.append,h.active,if_pos hx]

/-- An entry that has to leave the active file starts the next one, or is
longer than any file may be. -/
theorem Tiles.append_rolls (h : r.Tiles spare closed last) {x : List α}
    (hx : ¬last.length+x.length ≤ limit) :
    r.append limit x =
      if x.length ≤ limit then (some 0,r.roll.push x) else (none,r.roll) := by
  rw [Rolling.append,h.active,h.roll_active,if_neg hx,List.length_nil,Nat.zero_add]

/-- One call adds its entry at the end, or nothing. -/
theorem Tiles.append (h : r.Tiles spare closed last) (limit : ℕ) (x : List α) :
    ∃ closed' last', (r.append limit x).2.Tiles spare closed' last' ∧
      (Bounded limit (closed++[last]) → Bounded limit (closed'++[last'])) ∧
      closed'.flatten++last' = closed.flatten++last++
        (if (r.append limit x).1.isSome then x else []) := by
  obtain ⟨closed',hf,hm,hr⟩ := h.roll
  have hclosed' : Bounded limit (closed++[last]) → Bounded limit closed' := by
    intro hb s hs
    exact hb s (by simpa using hm s hs)
  by_cases hx : last.length+x.length ≤ limit
  · rw [h.append_fits hx]
    refine ⟨closed,last++x,h.push x,fun hb => Bounded.concat (fun s hs => ?_) ?_,by simp⟩
    · exact hb s (by simp [hs])
    · simpa using hx
  · rw [h.append_rolls hx]
    split
    · rename_i hx
      exact ⟨closed',x,hr.push x,fun hb => (hclosed' hb).concat hx,by simp [hf]⟩
    · exact ⟨closed',[],hr,fun hb => (hclosed' hb).concat (Nat.zero_le _),by simp [hf]⟩

theorem Tiles.run (h : r.Tiles spare closed last) (limit : ℕ)
    (hc : Bounded limit (closed++[last])) (xs : List (List α)) :
    ∃ closed' last', (r.run limit xs).Tiles spare closed' last' ∧
      Bounded limit (closed'++[last']) ∧
      closed'.flatten++last' = closed.flatten++last++(r.accepted limit xs).flatten := by
  induction xs generalizing r closed last with
  | nil => exact ⟨closed,last,h,hc,by simp [accepted]⟩
  | cons x xs ih =>
      obtain ⟨c₁,l₁,h₁,hc₁,he₁⟩ := h.append limit x
      obtain ⟨c₂,l₂,h₂,hc₂,he₂⟩ := ih h₁ (hc₁ hc)
      refine ⟨c₂,l₂,h₂,hc₂,?_⟩
      rw [he₂,he₁,accepted]
      split <;> simp

/-- A log whose first file is active is what opening its files gives. -/
theorem Tiles.openAt_files (h : r.Tiles spare [] last) : Rolling.openAt r.files 0 = r := by
  have hb : r.base = 0 := h.base
  have h0 : (r.files 0).isSome := (h.present 0).mpr (.inr (by simp [place]))
  obtain ⟨s,hs⟩ := Option.isSome_iff_exists.mp h0
  have hu : Function.update r.files 0 (some ((r.files 0).getD [])) = r.files := by
    rw [hs]
    exact Function.update_eq_self_iff.mpr hs.symm
  rw [Rolling.openAt,hu,← hb]

theorem Tiles.closed_eq_nil (h : r.Tiles spare closed last) (hb : r.base = 0) : closed = [] := by
  cases closed with
  | nil => rfl
  | cons c cs =>
      have hc := List.length_pos_iff.mpr (h.nonempty c List.mem_cons_self)
      have he := h.base
      rw [List.flatten_cons,List.length_append] at he
      omega

/-- With no spare names, the files are exactly the parts. -/
theorem Tiles.files_eq_some_iff (h : r.Tiles ∅ closed last) (b : ℕ) (s : List α) :
    r.files b = some s ↔ (b,s) ∈ place 0 (closed++[last]) := by
  constructor
  · intro hs
    have hp := (h.present b).mp (by simp [hs])
    simp only [Set.mem_empty_iff_false,false_or,List.mem_map] at hp
    obtain ⟨⟨b,t⟩,hm,rfl⟩ := hp
    have ht : r.part b = t := by rw [h.part,mem_place h.nonempty last hm]
    rw [Rolling.part,hs] at ht
    exact ht ▸ hm
  · intro hm
    have hp := (h.present b).mpr (.inr (List.mem_map.mpr ⟨_,hm,rfl⟩))
    obtain ⟨t,ht⟩ := Option.isSome_iff_exists.mp hp
    have hs : r.part b = s := by rw [h.part,mem_place h.nonempty last hm]
    rw [Rolling.part,ht] at hs
    rw [ht]
    exact congrArg some hs

end Tiles

/-- Opened at zero while more than one file holds something, the log runs into
the second of them: an entry as long as a file may be is refused. -/
theorem openAt_append_refused (files : ℕ → Option (List α)) {closed : List (List α)}
    {last x : List α} {limit b : ℕ} (hn : ∀ s ∈ closed, s ≠ [])
    (hp : ∀ b, (files b).getD [] = layout 0 (closed++[last]) b)
    (hb : b ≠ 0) (h : (files b).getD [] ≠ []) (hx : limit ≤ x.length) :
    (openAt files 0).append limit x = (none,(openAt files 0).roll) ∧
      (openAt files 0).roll.active ≠ [] := by
  rw [hp] at h
  obtain ⟨h0,h1⟩ := layout_second hn hb h
  have ha : (openAt files 0).active = layout 0 (closed++[last]) 0 := by
    rw [← hp]
    exact openAt_part files 0 0
  have hr : (openAt files 0).roll.active =
      layout 0 (closed++[last]) (layout 0 (closed++[last]) 0).length := by
    rw [roll_active,openAt_part,hp,ha]
    exact congrArg _ (Nat.zero_add _)
  have hpos := List.length_pos_iff.mpr h0
  have hpos' := List.length_pos_iff.mpr h1
  rw [← ha] at hpos
  rw [← hr] at hpos'
  refine ⟨?_,List.length_pos_iff.mp hpos'⟩
  rw [Rolling.append,if_neg (by omega),if_neg (by omega)]

/-- Entries of these lengths never leave a file that holds `t` already: each
fits in what is left, or the file is empty and it fits nowhere. -/
def StaysInFirst (limit : ℕ) : ℕ → List ℕ → Prop
  | _,[] => True
  | t,n::ns =>
      if t+n ≤ limit then StaysInFirst limit (t+n) ns else t = 0 ∧ StaysInFirst limit t ns

instance decidableStaysInFirst (limit : ℕ) : ∀ t ns, Decidable (StaysInFirst limit t ns)
  | _,[] => isTrue trivial
  | t,n::ns => by
      unfold StaysInFirst
      have h₁ := decidableStaysInFirst limit (t+n) ns
      have h₂ := decidableStaysInFirst limit t ns
      infer_instance

/-- A file that holds nothing and cannot take the entry is opened again. -/
theorem Tiles.append_empty {r : Rolling α} {spare : Set ℕ} (h : r.Tiles spare [] []) {limit : ℕ}
    (x : List α) (hx : limit < x.length) :
    (r.append limit x).1 = none ∧ (r.append limit x).2.Tiles spare [] [] := by
  obtain ⟨closed',hf,-,hr⟩ := h.roll
  have hc : closed' = [] := by
    cases closed' with
    | nil => rfl
    | cons s ss =>
        have hs := hr.nonempty s List.mem_cons_self
        simp only [List.flatten_cons,List.flatten_nil,List.nil_append,
          List.append_eq_nil_iff] at hf
        exact (hs hf.1).elim
  subst closed'
  rw [h.append_rolls (by simpa using hx),if_neg (by omega)]
  exact ⟨rfl,hr⟩

/-- The first file is still the active one exactly when no entry left it. -/
theorem Tiles.run_base_eq_zero_iff {r : Rolling α} {spare : Set ℕ} {last : List α}
    (h : r.Tiles spare [] last) (limit : ℕ) (xs : List (List α)) :
    (r.run limit xs).base = 0 ↔ StaysInFirst limit last.length (xs.map List.length) := by
  induction xs generalizing r last with
  | nil => simp [Rolling.run,StaysInFirst,h.base]
  | cons x xs ih =>
      rw [Rolling.run,List.map_cons,StaysInFirst]
      split
      · rename_i hf
        rw [h.append_fits hf,ih (h.push x),List.length_append]
      · rename_i hf
        by_cases hl : last = []
        · subst last
          obtain ⟨-,h'⟩ := h.append_empty x (by simpa using hf)
          simpa using ih h'
        · have hpos := List.length_pos_iff.mpr hl
          have hb : 0 < (r.append limit x).2.base := by
            rw [h.append_rolls hf]
            split <;> simp only [push_base,roll_base,h.active] <;> omega
          have hle := base_le_run limit (r.append limit x).2 xs
          constructor
          · intro h0
            omega
          · rintro ⟨h0,-⟩
            omega

/-- The entries before the first one that does not fit behind the others. -/
def fitting {β : Type*} (size : β → ℕ) (limit : ℕ) : ℕ → List β → List β
  | _,[] => []
  | t,x::xs => if t+size x ≤ limit then x::fitting size limit (t+size x) xs else []

theorem fitting_eq_self {β : Type*} {size : β → ℕ} {limit t : ℕ} {xs : List β}
    (h : t+(xs.map size).sum ≤ limit) : fitting size limit t xs = xs := by
  induction xs generalizing t with
  | nil => rfl
  | cons x xs ih =>
      rw [List.map_cons,List.sum_cons] at h
      rw [fitting,if_pos (by omega),ih (by omega)]

theorem fitting_map {β γ : Type*} (size : γ → ℕ) (f : β → γ) (limit t : ℕ) (xs : List β) :
    fitting size limit t (xs.map f) = (fitting (fun x => size (f x)) limit t xs).map f := by
  induction xs generalizing t with
  | nil => rfl
  | cons x xs ih =>
      rw [List.map_cons,fitting,fitting]
      split
      · rw [ih,List.map_cons]
      · rfl

theorem fitting_sublist {β : Type*} (size : β → ℕ) (limit t : ℕ) (xs : List β) :
    (fitting size limit t xs).Sublist xs := by
  induction xs generalizing t with
  | nil => exact .slnil
  | cons x xs ih =>
      rw [fitting]
      split
      · exact (ih _).cons_cons x
      · exact List.nil_sublist _

theorem sum_fitting_le {β : Type*} (size : β → ℕ) {limit t : ℕ} (h : t ≤ limit) (xs : List β) :
    t+((fitting size limit t xs).map size).sum ≤ limit := by
  induction xs generalizing t with
  | nil => simpa [fitting] using h
  | cons x xs ih =>
      rw [fitting]
      split
      · rename_i hf
        have := ih hf
        rw [List.map_cons,List.sum_cons]
        omega
      · simpa using h

theorem run_append (limit : ℕ) (r : Rolling α) (xs ys : List (List α)) :
    r.run limit (xs++ys) = (r.run limit xs).run limit ys := by
  induction xs generalizing r with
  | nil => rfl
  | cons x xs ih => exact ih _

/-- What fits in the active file as a whole stays in it. -/
theorem run_active_of_fits {limit : ℕ} {r : Rolling α} {xs : List (List α)}
    (h : r.active.length+(xs.map List.length).sum ≤ limit) :
    (r.run limit xs).active = r.active++xs.flatten := by
  induction xs generalizing r with
  | nil => rw [run,List.flatten_nil,List.append_nil]
  | cons x xs ih =>
      rw [List.map_cons,List.sum_cons] at h
      have hx : (r.append limit x).2 = r.push x := by
        rw [append,if_pos (by omega)]
      rw [run,hx,ih (by rw [push_active,List.length_append]; omega),push_active,
        List.flatten_cons,List.append_assoc]

/-- Files before the active one are not written. -/
theorem append_part_of_lt {limit : ℕ} {r : Rolling α} {x : List α} {b : ℕ} (h : b < r.base) :
    (r.append limit x).2.part b = r.part b := by
  unfold append
  split
  · rw [push_part,if_neg h.ne]
  · split
    · rw [push_part,if_neg (by rw [roll_base]; omega),roll_part]
    · rw [roll_part]

theorem run_part_of_lt {limit : ℕ} {r : Rolling α} {b : ℕ} (h : b < r.base)
    (xs : List (List α)) : (r.run limit xs).part b = r.part b := by
  induction xs generalizing r with
  | nil => rfl
  | cons x xs ih =>
      rw [run,ih (lt_of_lt_of_le h (base_le_append limit r x)),append_part_of_lt h]

/-- The first file keeps the entries up to the first one that has to leave it. -/
theorem Tiles.run_part_zero {β : Type*} {r : Rolling α} {spare : Set ℕ} {limit : ℕ}
    {last : List α} (h : r.Tiles spare [] last) (f : β → List α) {xs : List β}
    (hx : ∀ x ∈ xs, (f x).length ≤ limit) :
    (r.run limit (xs.map f)).part 0 =
      last++(fitting (fun x => (f x).length) limit last.length xs).flatMap f := by
  have hbase : r.base = 0 := h.base
  induction xs generalizing r last with
  | nil =>
      have ha := h.active
      rw [Rolling.active,hbase] at ha
      simpa [Rolling.run,fitting] using ha
  | cons x xs ih =>
      rw [List.forall_mem_cons] at hx
      rw [List.map_cons,Rolling.run,fitting]
      split
      · rename_i hf
        have hb : (r.push (f x)).base = 0 := hbase
        rw [h.append_fits hf,ih (h.push (f x)) hx.2 hb,List.length_append,List.flatMap_cons,
          List.append_assoc]
      · rename_i hf
        have hl : 0 < last.length := by omega
        have ha := h.active
        have hr : (r.append limit (f x)).2 = r.roll.push (f x) := by
          rw [h.append_rolls hf,if_pos hx.1]
        have hb : 0 < r.roll.base := by
          rw [roll_base,ha]
          omega
        rw [hr,run_part_of_lt (by rwa [push_base]),push_part,if_neg hb.ne,roll_part,← ha,
          Rolling.active,hbase]
        simp

end Rolling

end Kage.RollingLog
