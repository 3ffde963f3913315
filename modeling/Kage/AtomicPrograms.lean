import Mathlib.Logic.Function.Basic
import Mathlib.Data.List.Basic

/-!
# Programs with atomic operations

A program is a tree: it returns a value, or asks for an operation and goes on
with the reply. An operation is atomic, and everything that programs share is
reached through operations. Any number of programs run side by side under a
schedule that names who takes the next operation.

What a thread does depends on the replies it gets and on nothing else, which is
`Path`. What happens to the shared state depends on the operations in the order
in which they were taken and on nothing else, which is `Runs`. A run of a
schedule is a path for each thread and a run of the machine, so that facts about
single programs and facts about sequences of operations are proved apart and
hold together in every interleaving.

A machine may leave its replies open. An implementation simulates a machine
when each of its operations does; then each of its runs is a run of the machine.
-/
namespace Kage.AtomicPrograms

inductive Program (Op : Type) (Reply : Op → Type) (α : Type) where
  | done (a : α)
  | call (o : Op) (next : Reply o → Program Op Reply α)

structure Event (Op : Type) (Reply : Op → Type) where
  op : Op
  reply : Reply op

/-- How a shared state answers an operation. -/
abbrev Impl (Op : Type) (Reply : Op → Type) (S : Type*) := (o : Op) → S → Reply o × S

/-- Which replies and successors a state allows. -/
abbrev Machine (Op : Type) (Reply : Op → Type) (S : Type*) := S → (o : Op) → Reply o → S → Prop

section
variable {Op : Type} {Reply : Op → Type} {α β γ : Type} {S T : Type*}

def Impl.machine (sem : Impl Op Reply S) : Machine Op Reply S := fun s o r t => sem o s = (r,t)

namespace Program

def bind : Program Op Reply α → (α → Program Op Reply β) → Program Op Reply β
  | .done a,f => f a
  | .call o next,f => .call o fun r => (next r).bind f

instance : Monad (Program Op Reply) where
  pure := .done
  bind := bind

@[simp] theorem pure_eq (a : α) : (pure a : Program Op Reply α) = .done a := rfl

@[simp] theorem done_bind (a : α) (f : α → Program Op Reply β) : .done a >>= f = f a := rfl

@[simp] theorem call_bind (o : Op) (next : Reply o → Program Op Reply α)
    (f : α → Program Op Reply β) : .call o next >>= f = .call o fun r => next r >>= f := rfl

theorem bind_assoc (p : Program Op Reply α) (f : α → Program Op Reply β)
    (g : β → Program Op Reply γ) : p >>= f >>= g = p >>= fun a => f a >>= g := by
  induction p with
  | done a => rfl
  | call o next ih => exact congrArg (Program.call o) (funext fun r => ih r)

/-- The program that makes one call. -/
def perform (o : Op) : Program Op Reply (Reply o) := .call o .done

@[simp] theorem perform_bind (o : Op) (f : Reply o → Program Op Reply β) :
    perform o >>= f = .call o f := rfl

/-- The program run alone. -/
def run (sem : Impl Op Reply S) : Program Op Reply α → S → α × S
  | .done a,s => (a,s)
  | .call o next,s => run sem (next (sem o s).1) (sem o s).2

@[simp] theorem run_done (sem : Impl Op Reply S) (a : α) (s : S) :
    (done a).run sem s = (a,s) := rfl

@[simp] theorem run_call (sem : Impl Op Reply S) (o : Op) (next : Reply o → Program Op Reply α)
    (s : S) : (call o next).run sem s = (next (sem o s).1).run sem (sem o s).2 := rfl

theorem run_bind (sem : Impl Op Reply S) (p : Program Op Reply α)
    (f : α → Program Op Reply β) (s : S) :
    (p >>= f).run sem s = (f (p.run sem s).1).run sem (p.run sem s).2 := by
  induction p generalizing s with
  | done a => rfl
  | call o next ih => exact ih _ _

/-- Every operation that the program may ask for. -/
def Calls (allowed : Op → Prop) : Program Op Reply α → Prop
  | .done _ => True
  | .call o next => allowed o ∧ ∀ r, (next r).Calls allowed

theorem Calls.bind {allowed : Op → Prop} {p : Program Op Reply α}
    {f : α → Program Op Reply β} (hp : p.Calls allowed) (hf : ∀ a, (f a).Calls allowed) :
    (p >>= f).Calls allowed := by
  induction p with
  | done a => exact hf a
  | call o next ih => exact ⟨hp.1,fun r => ih r (hp.2 r)⟩

theorem Calls.mono {P Q : Op → Prop} {p : Program Op Reply α} (h : p.Calls P)
    (hpq : ∀ o, P o → Q o) : p.Calls Q := by
  induction p with
  | done a => trivial
  | call o next ih => exact ⟨hpq o h.1,fun r => ih r (h.2 r)⟩

theorem calls_perform {allowed : Op → Prop} {o : Op} (h : allowed o) :
    (perform o : Program Op Reply (Reply o)).Calls allowed := ⟨h,fun _ => trivial⟩

end Program

/-- What holds of programs that were put together from programs of which it holds. -/
structure Program.Closed (Q : (α : Type) → Program Op Reply α → Prop) : Prop where
  done : ∀ {α : Type} (a : α), Q α (.done a)
  bind : ∀ {α β : Type} {p : Program Op Reply α} {f : α → Program Op Reply β}, Q α p →
    (∀ a, Q β (f a)) → Q β (p >>= f)

theorem Program.closed_calls (allowed : Op → Prop) :
    Program.Closed fun _ (p : Program Op Reply _) => p.Calls allowed :=
  ⟨fun _ => trivial,fun hp hf => hp.bind hf⟩

/-- Every call is allowed by the calls before it. -/
def Program.Heeds (ok : List (Event Op Reply) → Op → Prop) :
    Program Op Reply α → List (Event Op Reply) → Prop
  | .done _,_ => True
  | .call o next,past => ok past o ∧ ∀ r, (next r).Heeds ok (past++[⟨o,r⟩])

section
variable {ok : List (Event Op Reply) → Op → Prop}

theorem Program.Calls.heeds {allowed : Op → Prop} {p : Program Op Reply α} (h : p.Calls allowed)
    (hok : ∀ o past, allowed o → ok past o) (past : List (Event Op Reply)) : p.Heeds ok past := by
  induction p generalizing past with
  | done a => trivial
  | call o next ih => exact ⟨hok o past h.1,fun r => ih r (h.2 r) _⟩

theorem Program.closed_heeds :
    Program.Closed fun _ (p : Program Op Reply _) => ∀ past, p.Heeds ok past := by
  refine ⟨fun _ _ => trivial,@fun α β p f hp hf past => ?_⟩
  have hpast := hp past
  clear hp
  induction p generalizing past with
  | done a => exact hf a past
  | call o next ih => exact ⟨hpast.1,fun r => ih r _ (hpast.2 r)⟩

end

/-- A program gets these replies to these calls and is then the other one. -/
inductive Path : Program Op Reply α → List (Event Op Reply) → Program Op Reply α → Prop where
  | nil (p : Program Op Reply α) : Path p [] p
  | cons {o : Op} {next : Reply o → Program Op Reply α} (r : Reply o)
      {es : List (Event Op Reply)} {q : Program Op Reply α} (h : Path (next r) es q) :
      Path (.call o next) (⟨o,r⟩::es) q

namespace Path
variable {p q : Program Op Reply α} {es : List (Event Op Reply)} {a : α}

theorem append {r : Program Op Reply α} {fs : List (Event Op Reply)} (h : Path p es q)
    (k : Path q fs r) : Path p (es++fs) r := by
  induction h with
  | nil p => exact k
  | cons r' _ ih => exact .cons r' (ih k)

theorem of_done (h : Path (.done a) es q) : es = [] ∧ q = .done a := by
  cases h
  exact ⟨rfl,rfl⟩

theorem of_call {o : Op} {next : Reply o → Program Op Reply α}
    (h : Path (.call o next) es (.done a)) :
    ∃ r fs, es = ⟨o,r⟩::fs ∧ Path (next r) fs (.done a) := by
  cases h with
  | cons r h => exact ⟨r,_,rfl,h⟩

theorem of_perform {o : Op} {f : Reply o → Program Op Reply α}
    (h : Path (Program.perform o >>= f) es (.done a)) :
    ∃ r fs, es = ⟨o,r⟩::fs ∧ Path (f r) fs (.done a) := of_call h

/-- A finished program has finished its first part before the second. -/
theorem of_bind {p : Program Op Reply α} {f : α → Program Op Reply β} {b : β}
    (h : Path (p >>= f) es (.done b)) :
    ∃ a fs gs, es = fs++gs ∧ Path p fs (.done a) ∧ Path (f a) gs (.done b) := by
  induction p generalizing es with
  | done a => exact ⟨a,[],es,rfl,.nil _,h⟩
  | call o next ih =>
      obtain ⟨r,rest,rfl,hr⟩ := of_call h
      obtain ⟨a,fs,gs,rfl,hp,hf⟩ := ih r hr
      exact ⟨a,⟨o,r⟩::fs,gs,rfl,.cons r hp,hf⟩

/-- What is made of a result does not change the calls. -/
theorem of_map {p : Program Op Reply α} {f : α → β} {b : β}
    (h : Path (p >>= fun a => .done (f a)) es (.done b)) :
    ∃ a, Path p es (.done a) ∧ f a = b := by
  obtain ⟨a,fs,gs,rfl,hp,hd⟩ := of_bind h
  obtain ⟨rfl,hb⟩ := of_done hd
  rw [List.append_nil]
  exact ⟨a,hp,(Program.done.inj hb).symm⟩

theorem heeds {ok : List (Event Op Reply) → Op → Prop} {past : List (Event Op Reply)}
    (h : Path p es q) (hp : p.Heeds ok past) {fs gs : List (Event Op Reply)}
    {e : Event Op Reply} (he : es = fs++e::gs) : ok (past++fs) e.op := by
  induction h generalizing past fs with
  | nil p => simp at he
  | cons r h ih =>
      cases fs with
      | nil =>
          obtain ⟨rfl,-⟩ := List.cons_eq_cons.mp he
          rw [List.append_nil]
          exact hp.1
      | cons f fs =>
          obtain ⟨rfl,hes⟩ := List.cons_eq_cons.mp he
          have hok := ih (hp.2 r) hes
          rwa [List.append_assoc] at hok

theorem allowed {allowed : Op → Prop} (h : Path p es q) (hp : p.Calls allowed) :
    (∀ e ∈ es, allowed e.op) ∧ q.Calls allowed := by
  induction h with
  | nil p => exact ⟨fun e he => (List.not_mem_nil he).elim,hp⟩
  | cons r h ih =>
      obtain ⟨hes,hq⟩ := ih (hp.2 r)
      exact ⟨List.forall_mem_cons.mpr ⟨hp.1,hes⟩,hq⟩

end Path

/-- Each entry of a list has its result and its share of a third list, in order. -/
inductive Each {A B C : Type*} (P : A → B → List C → Prop) : List A → List B → List C → Prop where
  | nil : Each P [] [] []
  | cons {a : A} {b : B} {as : List A} {bs : List B} {l ls : List C} (h : P a b l)
      (hs : Each P as bs ls) : Each P (a::as) (b::bs) (l++ls)

namespace Each
variable {A B C D : Type*} {P : A → B → List C → Prop} {as : List A} {bs : List B} {ls : List C}

theorem filterMap {Q : A → B → List D → Prop} {f : C → Option D} (h : Each P as bs ls)
    (hpq : ∀ a b l, P a b l → Q a b (l.filterMap f)) : Each Q as bs (ls.filterMap f) := by
  induction h with
  | nil => exact .nil
  | cons h _ ih =>
      rw [List.filterMap_append]
      exact .cons (hpq _ _ _ h) ih

theorem of_map {A' : Type*} {f : A' → A} {as : List A'} (h : Each P (as.map f) bs ls) :
    Each (fun a => P (f a)) as bs ls := by
  generalize hm : as.map f = as' at h
  induction h generalizing as with
  | nil =>
      obtain rfl := List.map_eq_nil_iff.mp hm
      exact .nil
  | cons h _ ih =>
      obtain ⟨a,as,rfl,rfl,rfl⟩ := List.map_eq_cons_iff.mp hm
      exact .cons h (ih rfl)

/-- The shares are parts of the whole. -/
theorem forall₂ {Q : A → B → Prop} (h : Each P as bs ls)
    (hpq : ∀ a b l, l.Sublist ls → P a b l → Q a b) : List.Forall₂ Q as bs := by
  induction h with
  | nil => exact .nil
  | cons h _ ih =>
      refine .cons (hpq _ _ _ (List.sublist_append_left _ _) h) (ih fun a b l hl => ?_)
      exact hpq a b l (hl.trans (List.sublist_append_right _ _))

end Each

/-- The same with a value that is handed on from entry to entry. -/
inductive Chained {A B C R : Type*} (P : A → R → B → R → List C → Prop) :
    List A → R → List B → R → List C → Prop where
  | nil (r : R) : Chained P [] r [] r []
  | cons {a : A} {b : B} {as : List A} {bs : List B} {r r₁ r₂ : R} {l ls : List C}
      (h : P a r b r₁ l) (hs : Chained P as r₁ bs r₂ ls) : Chained P (a::as) r (b::bs) r₂ (l++ls)

/-- A machine takes these calls with these replies. -/
inductive Runs (M : Machine Op Reply S) : S → List (Event Op Reply) → S → Prop where
  | nil (s : S) : Runs M s [] s
  | cons {s t u : S} {o : Op} {r : Reply o} {es : List (Event Op Reply)} (h : M s o r t)
      (hs : Runs M t es u) : Runs M s (⟨o,r⟩::es) u

namespace Runs
variable {M : Machine Op Reply S} {s t u : S} {es fs : List (Event Op Reply)}

theorem append (h : Runs M s es t) (k : Runs M t fs u) : Runs M s (es++fs) u := by
  induction h with
  | nil s => exact k
  | cons hs _ ih => exact .cons hs (ih k)

/-- A relation between states that every step is in and that composes. -/
theorem rel {R : S → S → Prop} (h : Runs M s es t) (hrefl : ∀ s, R s s)
    (htrans : ∀ s t u, R s t → R t u → R s u)
    (hstep : ∀ s o r t, ⟨o,r⟩ ∈ es → M s o r t → R s t) : R s t := by
  induction h with
  | nil s => exact hrefl s
  | cons hm _ ih =>
      refine htrans _ _ _ (hstep _ _ _ _ List.mem_cons_self hm) ?_
      exact ih fun s o r t he => hstep s o r t (List.mem_cons_of_mem _ he)

/-- A run passes through the state in which a call was taken. -/
theorem split {e : Event Op Reply} (h : Runs M s (es++e::fs) u) :
    ∃ t t', Runs M s es t ∧ M t e.op e.reply t' ∧ Runs M t' fs u := by
  induction es generalizing s with
  | nil =>
      cases h with
      | cons hm hs => exact ⟨s,_,.nil s,hm,hs⟩
  | cons e' es ih =>
      cases h with
      | cons hm hs =>
          obtain ⟨t,t',h₁,h₂,h₃⟩ := ih hs
          exact ⟨t,t',.cons hm h₁,h₂,h₃⟩

/-- One of several calls that were taken in this order. -/
theorem pick_after {e : Event Op Reply} {gs : List (Event Op Reply)} (h : Runs M s es u)
    (he : (fs++e::gs).Sublist es) :
    ∃ t t' fs' gs', es = fs'++e::gs' ∧ fs.Sublist fs' ∧ gs.Sublist gs' ∧ Runs M s fs' t ∧
      M t e.op e.reply t' ∧ Runs M t' gs' u := by
  obtain ⟨es₁,es₂,rfl,hf,hrest⟩ := List.append_sublist_iff.mp he
  obtain ⟨r₁,r₂,rfl,hm,hg⟩ := List.cons_sublist_iff.mp hrest
  obtain ⟨as,bs,rfl⟩ := List.append_of_mem hm
  have hes : es₁++((as++e::bs)++r₂) = (es₁++as)++e::(bs++r₂) := by simp
  rw [hes] at h
  obtain ⟨t,t',h₁,h₂,h₃⟩ := split h
  exact ⟨t,t',es₁++as,bs++r₂,hes,hf.trans (List.sublist_append_left _ _),
    hg.trans (List.sublist_append_right _ _),h₁,h₂,h₃⟩

/-- The first of them. -/
theorem pick {e : Event Op Reply} {gs : List (Event Op Reply)} (h : Runs M s es u)
    (he : (e::gs).Sublist es) :
    ∃ t t' fs fs', es = fs++e::fs' ∧ gs.Sublist fs' ∧ Runs M s fs t ∧ M t e.op e.reply t' ∧
      Runs M t' fs' u := by
  obtain ⟨t,t',fs,fs',hes,-,hg,h₁,h₂,h₃⟩ := pick_after h (show ([]++e::gs).Sublist es from he)
  exact ⟨t,t',fs,fs',hes,hg,h₁,h₂,h₃⟩

end Runs

/-- Related states give the same reply and stay related. -/
def Simulates (R : S → T → Prop) (allowed : Op → Prop) (sem : Impl Op Reply S)
    (M : Machine Op Reply T) : Prop :=
  ∀ s t o, R s t → allowed o → ∃ t', M t o (sem o s).1 t' ∧ R (sem o s).2 t'

theorem Simulates.runs {R : S → T → Prop} {allowed : Op → Prop} {sem : Impl Op Reply S}
    {M : Machine Op Reply T} (h : Simulates R allowed sem M) {s s' : S} {t : T}
    {es : List (Event Op Reply)} (hr : Runs sem.machine s es s') (hs : R s t)
    (ha : ∀ e ∈ es, allowed e.op) : ∃ t', Runs M t es t' ∧ R s' t' := by
  induction hr generalizing t with
  | nil s => exact ⟨t,.nil t,hs⟩
  | @cons s₁ s₂ s₃ o r es hm _ ih =>
      rw [List.forall_mem_cons] at ha
      obtain ⟨t₁,ht,hr⟩ := h s₁ t o hs ha.1
      have hm : sem o s₁ = (r,s₂) := hm
      rw [hm] at ht hr
      obtain ⟨t₂,hruns,hend⟩ := ih hr ha.2
      exact ⟨t₂,.cons ht hruns,hend⟩

end

/-! ## Schedules -/

/-- Programs that share a state. -/
structure Pool (ι : Type*) (Op : Type) (Reply : Op → Type) (α : Type) (S : Type*) where
  threads : ι → Program Op Reply α
  state : S

section
variable {ι : Type*} [DecidableEq ι] {Op : Type} {Reply : Op → Type} {α : Type} {S : Type*}
variable (sem : Impl Op Reply S)

namespace Pool

/-- A thread takes its next call, unless it has finished. -/
def step (c : Pool ι Op Reply α S) (i : ι) :
    List (ι × Event Op Reply) × Pool ι Op Reply α S :=
  match c.threads i with
  | .done _ => ([],c)
  | .call o next => ([(i,⟨o,(sem o c.state).1⟩)],
      ⟨Function.update c.threads i (next (sem o c.state).1),(sem o c.state).2⟩)

/-- The calls in the order in which they were taken, and what is left. -/
def exec (c : Pool ι Op Reply α S) :
    List ι → List (ι × Event Op Reply) × Pool ι Op Reply α S
  | [] => ([],c)
  | i::is =>
      ((c.step sem i).1++((c.step sem i).2.exec is).1,((c.step sem i).2.exec is).2)

end Pool

/-- The calls of one thread. -/
def own (i : ι) (trace : List (ι × Event Op Reply)) : List (Event Op Reply) :=
  (trace.filter fun e => e.1 = i).map Prod.snd

theorem own_append (i : ι) (t u : List (ι × Event Op Reply)) :
    own i (t++u) = own i t++own i u := by
  simp [own]

theorem step_path (c : Pool ι Op Reply α S) (i j : ι) :
    Path (c.threads j) (own j (c.step sem i).1) ((c.step sem i).2.threads j) := by
  unfold Pool.step
  split
  · exact .nil _
  next o next h =>
    by_cases hj : j = i
    · subst j
      rw [h]
      simpa [own] using Path.cons (sem o c.state).1 (.nil _)
    · simpa [own,hj,Ne.symm hj] using Path.nil (c.threads j)

theorem step_runs (c : Pool ι Op Reply α S) (i : ι) :
    Runs sem.machine c.state ((c.step sem i).1.map Prod.snd) (c.step sem i).2.state := by
  unfold Pool.step
  split
  · exact .nil _
  · exact .cons rfl (.nil _)

theorem exec_append (c : Pool ι Op Reply α S) (is js : List ι) :
    (c.exec sem (is++js)).2 = ((c.exec sem is).2.exec sem js).2 := by
  induction is generalizing c with
  | nil => rfl
  | cons i is ih => exact ih _

/-- A thread that takes all its turns in a row is run alone. -/
theorem exec_alone (c : Pool ι Op Reply α S) (i : ι) :
    ∃ n, (c.exec sem (List.replicate n i)).2 =
      ⟨Function.update c.threads i (.done ((c.threads i).run sem c.state).1),
        ((c.threads i).run sem c.state).2⟩ := by
  generalize hp : c.threads i = p
  induction p generalizing c with
  | done a => exact ⟨0,by rw [Program.run_done,← hp,Function.update_eq_self]; rfl⟩
  | call o next ih =>
      have hs : (c.step sem i).2 = ⟨Function.update c.threads i (next (sem o c.state).1),
          (sem o c.state).2⟩ := by
        unfold Pool.step
        rw [hp]
      obtain ⟨n,hn⟩ := ih (sem o c.state).1 (c.step sem i).2
        (by rw [hs]; exact Function.update_self ..)
      refine ⟨n+1,hn.trans ?_⟩
      rw [hs,Function.update_idem]
      rfl

theorem exec_path (c : Pool ι Op Reply α S) (schedule : List ι) (i : ι) :
    Path (c.threads i) (own i (c.exec sem schedule).1) ((c.exec sem schedule).2.threads i) := by
  induction schedule generalizing c with
  | nil => exact .nil _
  | cons j schedule ih =>
      rw [Pool.exec,own_append]
      exact (step_path sem c j i).append (ih _)

theorem exec_runs (c : Pool ι Op Reply α S) (schedule : List ι) :
    Runs sem.machine c.state ((c.exec sem schedule).1.map Prod.snd)
      (c.exec sem schedule).2.state := by
  induction schedule generalizing c with
  | nil => exact .nil _
  | cons j schedule ih =>
      rw [Pool.exec,List.map_append]
      exact (step_runs sem c j).append (ih _)

/-- Whatever holds of the calls of every program holds of the whole trace. -/
theorem exec_allowed {allowed : Op → Prop} (c : Pool ι Op Reply α S)
    (hc : ∀ i, (c.threads i).Calls allowed) (schedule : List ι) :
    ∀ e ∈ (c.exec sem schedule).1, allowed e.2.op := by
  intro e he
  refine ((exec_path sem c schedule e.1).allowed (hc e.1)).1 e.2 ?_
  exact List.mem_map.mpr ⟨e,List.mem_filter.mpr ⟨he,by simp⟩,rfl⟩

/-- Every call of a thread is allowed by what the thread has done before. -/
theorem exec_heeds {ok : List (Event Op Reply) → Op → Prop} (c : Pool ι Op Reply α S)
    (hc : ∀ i, (c.threads i).Heeds ok []) (schedule : List ι)
    {ys zs : List (ι × Event Op Reply)} {i : ι} {e : Event Op Reply}
    (he : (c.exec sem schedule).1 = ys++(i,e)::zs) : ok (own i ys) e.op := by
  have hown : own i (c.exec sem schedule).1 = own i ys++e::own i zs := by
    rw [he,own_append]
    simp [own]
  exact (exec_path sem c schedule i).heeds (hc i) hown

variable {sem}

/-- Every interleaving of the threads is a run of a machine that simulates the
shared state. -/
theorem Simulates.exec {T : Type*} {R : S → T → Prop} {allowed : Op → Prop}
    {M : Machine Op Reply T} (h : Simulates R allowed sem M) (c : Pool ι Op Reply α S) {t : T}
    (hs : R c.state t) (hc : ∀ i, (c.threads i).Calls allowed) (schedule : List ι) :
    ∃ t', Runs M t ((c.exec sem schedule).1.map Prod.snd) t' ∧
      R (c.exec sem schedule).2.state t' := by
  refine h.runs (exec_runs sem c schedule) hs fun e he => ?_
  obtain ⟨x,hx,rfl⟩ := List.mem_map.mp he
  exact exec_allowed sem c hc schedule x hx

end

end Kage.AtomicPrograms
