import Kage.ConcurrentClients

/-!
# Accepting connections and shutting down

The main program accepts connections in one goroutine and serves each in another.
A channel with room for a fixed number of tokens bounds how many are served at a
time: a connection that finds no room is closed at once. A wait group counts the
goroutines that serve. When a signal arrives the listener is closed, the wait
group is waited for, and the program ends when it is down to zero or when that
takes too long.

Every goroutine is a sequence of steps and the steps come in any order. A
connection is served by the program of its client, and its goroutine ends after
it. A panic in it ends the process, so there is no step after one. Errors of
`Accept` can come at any time and end the accepting goroutine for good. The
counter may become negative in the model, which panics in the source.

A connection is taken from the listener, then a token is taken for it, and only
then is it counted. So waiting can be over while one connection is still on its
way to being served.
-/
namespace Kage.WorkerPool
open ByteStrings FaultyDisk PartitionLog AtomicPrograms BrokerPrograms BrokerLedger
open RequestHandlers (Socket)
open ConcurrentClients (Broker connections twoProducers empty)

/-- Where the accepting goroutine is. -/
inductive Acceptor (ι : Type*) where
  | listening
  | accepted (c : ι)
  | acquired (c : ι)
  | counted (c : ι)
  | returned
  deriving DecidableEq

namespace Acceptor
variable {ι : Type*}

/-- The connection that it has taken and not handed on. -/
def inHand : Acceptor ι → List ι
  | .accepted c => [c]
  | .acquired c => [c]
  | .counted c => [c]
  | _ => []

/-- The tokens that it has put into the channel for it. -/
def tokens : Acceptor ι → ℕ
  | .acquired _ => 1
  | .counted _ => 1
  | _ => 0

/-- What it has added to the wait group for it. -/
def added : Acceptor ι → ℕ
  | .counted _ => 1
  | _ => 0

end Acceptor

/-- Where the main goroutine is. -/
inductive Main where
  | running
  | signalled
  | draining
  | drained
  | timedOut
  deriving DecidableEq

/-- The goroutines, the channel and the wait group, with the connections that
have arrived, were turned away, and have been served. -/
structure Server (ι : Type*) where
  acceptor : Acceptor ι
  serving : List ι
  leaving : List ι
  sem : ℕ
  wg : ℤ
  main : Main
  listener : Bool
  shutdownDone : Bool
  arrived : List ι
  rejected : List ι
  served : List ι
  broker : Broker ι

inductive Event (ι : Type*) where
  | accept (c : ι)
  | acceptError
  | select
  | add
  | go
  | work (c : ι)
  | receive (c : ι)
  | done (c : ι)
  | signal
  | close
  | wait
  | drain
  | timeout
  deriving DecidableEq

section
variable {ι : Type*} [DecidableEq ι]

/-- One step of one goroutine, unless it is blocked or elsewhere. -/
def step (workerPoolSize : ℕ) (s : Server ι) : Event ι → Option (Server ι)
  | .accept c =>
      if s.acceptor = .listening ∧ s.listener ∧ c ∉ s.arrived then
        some {s with acceptor := .accepted c, arrived := c::s.arrived}
      else none
  | .acceptError =>
      if s.acceptor = .listening then some {s with acceptor := .returned} else none
  | .select =>
      match s.acceptor with
      | .accepted c =>
          if s.sem < workerPoolSize then some {s with acceptor := .acquired c, sem := s.sem+1}
          else some {s with acceptor := .listening, rejected := c::s.rejected}
      | _ => none
  | .add =>
      match s.acceptor with
      | .acquired c => some {s with acceptor := .counted c, wg := s.wg+1}
      | _ => none
  | .go =>
      match s.acceptor with
      | .counted c => some {s with acceptor := .listening, serving := c::s.serving}
      | _ => none
  | .work c =>
      if c ∈ s.serving then some {s with broker := (s.broker.step respond c).2} else none
  | .receive c =>
      match s.broker.threads c with
      | .done (some _) =>
          -- a receive from an empty channel blocks
          if c ∈ s.serving ∧ 0 < s.sem then
            some {s with serving := s.serving.erase c, leaving := c::s.leaving, sem := s.sem-1}
          else none
      | _ => none
  | .done c =>
      if c ∈ s.leaving then
        some {s with leaving := s.leaving.erase c, served := c::s.served, wg := s.wg-1}
      else none
  | .signal => if s.main = .running then some {s with main := .signalled} else none
  | .close =>
      if s.main = .signalled then some {s with main := .draining, listener := false} else none
  | .wait =>
      if s.listener = false ∧ s.wg = 0 then some {s with shutdownDone := true} else none
  | .drain =>
      if s.main = .draining ∧ s.shutdownDone then some {s with main := .drained} else none
  | .timeout => if s.main = .draining then some {s with main := .timedOut} else none

def run (workerPoolSize : ℕ) (s : Server ι) : List (Event ι) → Option (Server ι)
  | [] => some s
  | e::es => (step workerPoolSize s e).bind fun t => run workerPoolSize t es

end

/-- Nothing has arrived yet. -/
def Server.init {ι : Type*} (broker : Broker ι) : Server ι :=
  ⟨.listening,[],[],0,0,.running,true,false,[],[],[],broker⟩

/-! ## What every step keeps -/

section
variable {ι : Type*} [DecidableEq ι]

/-- Tokens and counter are those of the goroutines, every connection is in one
place, and when the wait group was found empty there is at most one left. -/
structure Accounted (workerPoolSize : ℕ) (s : Server ι) : Prop where
  sem : s.sem = s.serving.length+s.acceptor.tokens
  room : s.sem ≤ workerPoolSize
  wg : s.wg = s.serving.length+s.leaving.length+s.acceptor.added
  nodup : s.arrived.Nodup
  places : ∀ c, s.arrived.count c = s.rejected.count c+s.served.count c+s.leaving.count c+
    s.serving.count c+s.acceptor.inHand.count c
  closed : s.listener = true → s.shutdownDone = false
  going : s.main = .running ∨ s.main = .signalled ∨ s.listener = false
  drained : s.main = .drained → s.shutdownDone = true
  last : s.shutdownDone = true →
    s.leaving.length+s.serving.length+s.acceptor.inHand.length ≤ 1

theorem accounted_init (workerPoolSize : ℕ) (broker : Broker ι) :
    Accounted workerPoolSize (Server.init broker) where
  sem := rfl
  room := Nat.zero_le _
  wg := rfl
  nodup := List.nodup_nil
  places := fun _ => rfl
  closed := fun _ => rfl
  going := .inl rfl
  drained := nofun
  last := nofun

variable {workerPoolSize : ℕ} {s t : Server ι} {e : Event ι} {es : List (Event ι)}

/-- The accepting goroutine takes a connection. -/
theorem Accounted.accept (h : Accounted workerPoolSize s) {c : ι} (ha : s.acceptor = .listening)
    (hl : s.listener = true) (hc : c ∉ s.arrived) : Accounted workerPoolSize
      {s with acceptor := .accepted c, arrived := c::s.arrived} := by
  obtain ⟨hsem,hroom,hwg,hnd,hplaces,hclosed,hgoing,hdrained,-⟩ := h
  rw [ha] at hsem hwg hplaces
  refine ⟨hsem,hroom,hwg,List.nodup_cons.mpr ⟨hc,hnd⟩,fun a => ?_,hclosed,hgoing,hdrained,
    fun hs => ?_⟩
  · have hp := hplaces a
    simp only [Acceptor.inHand,List.count_cons,List.count_nil] at hp ⊢
    omega
  · have hs : s.shutdownDone = true := hs
    rw [hclosed hl] at hs
    cases hs

/-- A connection goes on to the next step of the accepting goroutine. -/
theorem Accounted.forward (h : Accounted workerPoolSize s) {a : Acceptor ι} {sem : ℕ} {wg : ℤ}
    (hand : a.inHand = s.acceptor.inHand) (hsem : sem+s.acceptor.tokens = s.sem+a.tokens)
    (hroom : sem ≤ workerPoolSize) (hwg : wg+s.acceptor.added = s.wg+a.added) :
    Accounted workerPoolSize {s with acceptor := a, sem := sem, wg := wg} where
  sem := by
    have := h.sem
    simp only
    omega
  room := hroom
  wg := by
    have := h.wg
    simp only
    omega
  nodup := h.nodup
  places := by
    simp only [hand]
    exact h.places
  closed := h.closed
  going := h.going
  drained := h.drained
  last := by
    simp only [hand]
    exact h.last

theorem Accounted.reject (h : Accounted workerPoolSize s) {c : ι}
    (ha : s.acceptor = .accepted c) : Accounted workerPoolSize
      {s with acceptor := .listening, rejected := c::s.rejected} := by
  obtain ⟨hsem,hroom,hwg,hnd,hplaces,hclosed,hgoing,hdrained,hlast⟩ := h
  rw [ha] at hsem hwg hplaces hlast
  refine ⟨hsem,hroom,hwg,hnd,fun a => ?_,hclosed,hgoing,hdrained,fun hs => ?_⟩
  · have hp := hplaces a
    simp only [Acceptor.inHand,List.count_cons,List.count_nil] at hp ⊢
    omega
  · have hl := hlast hs
    simp only [Acceptor.inHand,List.length_nil,List.length_singleton] at hl ⊢
    omega

theorem Accounted.go (h : Accounted workerPoolSize s) {c : ι} (ha : s.acceptor = .counted c) :
    Accounted workerPoolSize {s with acceptor := .listening, serving := c::s.serving} := by
  obtain ⟨hsem,hroom,hwg,hnd,hplaces,hclosed,hgoing,hdrained,hlast⟩ := h
  rw [ha] at hsem hwg hplaces hlast
  refine ⟨hsem,hroom,?_,hnd,fun a => ?_,hclosed,hgoing,hdrained,fun hs => ?_⟩
  · simp only [Acceptor.added,List.length_cons] at hwg ⊢
    omega
  · have hp := hplaces a
    simp only [Acceptor.inHand,List.count_cons,List.count_nil] at hp ⊢
    omega
  · have hl := hlast hs
    simp only [Acceptor.inHand,List.length_nil,List.length_cons] at hl ⊢
    omega

theorem Accounted.receive (h : Accounted workerPoolSize s) {c : ι} (hc : c ∈ s.serving) :
    Accounted workerPoolSize {s with
      serving := s.serving.erase c, leaving := c::s.leaving, sem := s.sem-1} := by
  obtain ⟨hsem,hroom,hwg,hnd,hplaces,hclosed,hgoing,hdrained,hlast⟩ := h
  have hpos := List.length_pos_of_mem hc
  have hlen := List.length_erase_of_mem hc
  refine ⟨?_,(Nat.sub_le _ _).trans hroom,?_,hnd,fun a => ?_,hclosed,hgoing,hdrained,fun hs => ?_⟩
  · simp only
    omega
  · simp only [List.length_cons]
    omega
  · have hp := hplaces a
    have hca := List.count_pos_iff.mpr hc
    simp only [List.count_cons,List.count_erase] at hp ⊢
    split
    · rename_i heq
      obtain rfl := eq_of_beq heq
      omega
    · omega
  · have hl := hlast hs
    simp only [List.length_cons]
    omega

theorem Accounted.done (h : Accounted workerPoolSize s) {c : ι} (hc : c ∈ s.leaving) :
    Accounted workerPoolSize {s with
      leaving := s.leaving.erase c, served := c::s.served, wg := s.wg-1} := by
  obtain ⟨hsem,hroom,hwg,hnd,hplaces,hclosed,hgoing,hdrained,hlast⟩ := h
  have hpos := List.length_pos_of_mem hc
  have hlen := List.length_erase_of_mem hc
  refine ⟨hsem,hroom,?_,hnd,fun a => ?_,hclosed,hgoing,hdrained,fun hs => ?_⟩
  · simp only
    omega
  · have hp := hplaces a
    have hca := List.count_pos_iff.mpr hc
    simp only [List.count_cons,List.count_erase] at hp ⊢
    split
    · rename_i heq
      obtain rfl := eq_of_beq heq
      omega
    · omega
  · have hl := hlast hs
    simp only
    omega

/-- When the counter is zero nothing is counted, so only a connection in hand can
be left. -/
theorem Accounted.wait (h : Accounted workerPoolSize s) (hl : s.listener = false)
    (hw : s.wg = 0) : Accounted workerPoolSize {s with shutdownDone := true} := by
  refine ⟨h.sem,h.room,h.wg,h.nodup,h.places,fun hx => ?_,h.going,fun _ => rfl,fun _ => ?_⟩
  · have hx : s.listener = true := hx
    rw [hl] at hx
    cases hx
  · have hwg := h.wg
    have hhand : s.acceptor.inHand.length ≤ 1 := by cases s.acceptor <;> simp [Acceptor.inHand]
    simp only
    omega

theorem Accounted.step (h : Accounted workerPoolSize s)
    (he : WorkerPool.step workerPoolSize s e = some t) : Accounted workerPoolSize t := by
  cases e with
  | accept c =>
      obtain ⟨⟨ha,hl,hc⟩,he⟩ := Option.ite_none_right_eq_some.mp he
      cases he
      exact h.accept ha hl hc
  | acceptError =>
      obtain ⟨ha,he⟩ := Option.ite_none_right_eq_some.mp he
      cases he
      exact h.forward (by rw [ha]; rfl) (by rw [ha]; rfl) h.room (by rw [ha]; rfl)
  | select =>
      simp only [WorkerPool.step] at he
      split at he
      · rename_i c ha
        split at he
        · rename_i hlt
          cases he
          exact h.forward (by rw [ha]; rfl) (by rw [ha]; rfl) hlt (by rw [ha]; rfl)
        · cases he
          exact h.reject ha
      · cases he
  | add =>
      simp only [WorkerPool.step] at he
      split at he
      · rename_i c ha
        cases he
        exact h.forward (by rw [ha]; rfl) (by rw [ha]; rfl) h.room
          (by rw [ha]; simp [Acceptor.added])
      · cases he
  | go =>
      simp only [WorkerPool.step] at he
      split at he
      · rename_i c ha
        cases he
        exact h.go ha
      · cases he
  | work c =>
      obtain ⟨-,he⟩ := Option.ite_none_right_eq_some.mp he
      cases he
      exact ⟨h.sem,h.room,h.wg,h.nodup,h.places,h.closed,h.going,h.drained,h.last⟩
  | receive c =>
      simp only [WorkerPool.step] at he
      split at he
      · obtain ⟨⟨hc,-⟩,he⟩ := Option.ite_none_right_eq_some.mp he
        cases he
        exact h.receive hc
      · cases he
  | done c =>
      obtain ⟨hc,he⟩ := Option.ite_none_right_eq_some.mp he
      cases he
      exact h.done hc
  | signal =>
      obtain ⟨hm,he⟩ := Option.ite_none_right_eq_some.mp he
      cases he
      exact ⟨h.sem,h.room,h.wg,h.nodup,h.places,h.closed,.inr (.inl rfl),nofun,h.last⟩
  | close =>
      obtain ⟨hm,he⟩ := Option.ite_none_right_eq_some.mp he
      cases he
      exact ⟨h.sem,h.room,h.wg,h.nodup,h.places,nofun,.inr (.inr rfl),nofun,h.last⟩
  | wait =>
      obtain ⟨⟨hl,hw⟩,he⟩ := Option.ite_none_right_eq_some.mp he
      cases he
      exact h.wait hl hw
  | drain =>
      obtain ⟨⟨hm,hs⟩,he⟩ := Option.ite_none_right_eq_some.mp he
      cases he
      have hl : s.listener = false := by simpa [hm] using h.going
      exact ⟨h.sem,h.room,h.wg,h.nodup,h.places,h.closed,.inr (.inr hl),fun _ => hs,h.last⟩
  | timeout =>
      obtain ⟨hm,he⟩ := Option.ite_none_right_eq_some.mp he
      cases he
      have hl : s.listener = false := by simpa [hm] using h.going
      exact ⟨h.sem,h.room,h.wg,h.nodup,h.places,h.closed,.inr (.inr hl),nofun,h.last⟩

theorem Accounted.run (h : Accounted workerPoolSize s)
    (hr : WorkerPool.run workerPoolSize s es = some t) : Accounted workerPoolSize t := by
  induction es generalizing s with
  | nil =>
      cases hr
      exact h
  | cons e es ih =>
      obtain ⟨u,hu,hr⟩ := Option.bind_eq_some_iff.mp hr
      exact ih (h.step hu) hr

theorem Accounted.perm (h : Accounted workerPoolSize s) : s.arrived.Perm
    (s.rejected++(s.served++(s.leaving++(s.serving++s.acceptor.inHand)))) := by
  rw [List.perm_iff_count]
  intro c
  have hp := h.places c
  simp only [List.count_append]
  omega

/-- A connection that was turned away is in no other place. -/
theorem Accounted.not_mem (h : Accounted workerPoolSize s) {c : ι} (hc : c ∈ s.rejected) :
    c ∉ s.serving ∧ c ∉ s.leaving ∧ c ∉ s.served := by
  have hp := h.places c
  have hpos := List.count_pos_iff.mpr hc
  have hone := List.nodup_iff_count_le_one.mp h.nodup c
  refine ⟨?_,?_,?_⟩ <;> rw [← List.count_eq_zero] <;> omega

/-- Only a full channel turns a connection away. -/
theorem step_rejected (he : WorkerPool.step workerPoolSize s e = some t) :
    t.rejected = s.rejected ∨ ∃ c, s.acceptor = .accepted c ∧ workerPoolSize ≤ s.sem ∧
      t.rejected = c::s.rejected := by
  cases e with
  | select =>
      simp only [WorkerPool.step] at he
      split at he
      · rename_i c ha
        split at he
        · cases he
          exact .inl rfl
        · rename_i hn
          cases he
          exact .inr ⟨c,ha,Nat.le_of_not_lt hn,rfl⟩
      · cases he
  | add | go =>
      simp only [WorkerPool.step] at he
      split at he
      · cases he
        exact .inl rfl
      · cases he
  | receive c =>
      simp only [WorkerPool.step] at he
      split at he
      · obtain ⟨-,he⟩ := Option.ite_none_right_eq_some.mp he
        cases he
        exact .inl rfl
      · cases he
  | accept | acceptError | work | done | signal | close | wait | drain | timeout =>
      obtain ⟨-,he⟩ := Option.ite_none_right_eq_some.mp he
      cases he
      exact .inl rfl

/-! ## The programs of the connections -/

/-- The connection whose program takes a step. -/
def worked : Event ι → Option ι
  | .work c => some c
  | _ => none

/-- Programs start when they are served and have ended when they leave. -/
structure Attended (programs : ι → BrokerProgram (Option Socket)) (s : Server ι) : Prop where
  fresh : ∀ c, c ∉ s.serving → c ∉ s.leaving → c ∉ s.served → s.broker.threads c = programs c
  ended : ∀ c, c ∈ s.leaving ∨ c ∈ s.served → ∃ k, s.broker.threads c = .done (some k)

variable {programs : ι → BrokerProgram (Option Socket)}

omit [DecidableEq ι] in
theorem attended_init (broker : Broker ι) : Attended broker.threads (Server.init broker) :=
  ⟨fun _ _ _ _ => rfl,fun c hc => by simp [Server.init] at hc⟩

/-- A step of a program changes no other, and none that has ended. -/
theorem threads_step (b : Broker ι) {c a : ι}
    (h : a ≠ c ∨ ∃ r, b.threads a = .done r) :
    (b.step respond c).2.threads a = b.threads a := by
  unfold Pool.step
  split
  · rfl
  next o next hc =>
    have hne : a ≠ c := by
      rcases h with h|⟨r,hr⟩
      · exact h
      · rintro rfl
        rw [hc] at hr
        cases hr
    simp [hne]

theorem Attended.step (h : Attended programs s)
    (he : WorkerPool.step workerPoolSize s e = some t) :
    Attended programs t ∧ t.broker = (s.broker.exec respond (worked e).toList).2 := by
  cases e with
  | accept | acceptError | signal | close | wait | drain | timeout =>
      obtain ⟨-,he⟩ := Option.ite_none_right_eq_some.mp he
      cases he
      exact ⟨⟨h.fresh,h.ended⟩,rfl⟩
  | select =>
      simp only [WorkerPool.step] at he
      split at he
      · split at he <;> cases he <;> exact ⟨⟨h.fresh,h.ended⟩,rfl⟩
      · cases he
  | add =>
      simp only [WorkerPool.step] at he
      split at he
      · cases he
        exact ⟨⟨h.fresh,h.ended⟩,rfl⟩
      · cases he
  | go =>
      simp only [WorkerPool.step] at he
      split at he
      · cases he
        exact ⟨⟨fun c hc => h.fresh c fun hx => hc (List.mem_cons_of_mem _ hx),h.ended⟩,rfl⟩
      · cases he
  | work c =>
      obtain ⟨hc,he⟩ := Option.ite_none_right_eq_some.mp he
      cases he
      refine ⟨⟨fun a hs hl hd => ?_,fun a ha => ?_⟩,rfl⟩
      · have hne : a ≠ c := by
          rintro rfl
          exact hs hc
        rw [threads_step _ (.inl hne)]
        exact h.fresh a hs hl hd
      · obtain ⟨k,hk⟩ := h.ended a ha
        exact ⟨k,(threads_step _ (.inr ⟨_,hk⟩)).trans hk⟩
  | receive c =>
      simp only [WorkerPool.step] at he
      split at he
      · rename_i k hk
        obtain ⟨-,he⟩ := Option.ite_none_right_eq_some.mp he
        cases he
        refine ⟨⟨fun a hs hl hd => ?_,fun a ha => ?_⟩,rfl⟩
        · obtain ⟨hne,hl⟩ := not_or.mp (mt List.mem_cons.mpr hl)
          exact h.fresh a (fun hx => hs ((List.mem_erase_of_ne hne).mpr hx)) hl hd
        · rcases ha with ha|ha
          · rcases List.mem_cons.mp ha with rfl|ha
            · exact ⟨k,hk⟩
            · exact h.ended a (.inl ha)
          · exact h.ended a (.inr ha)
      · cases he
  | done c =>
      obtain ⟨hc,he⟩ := Option.ite_none_right_eq_some.mp he
      cases he
      refine ⟨⟨fun a hs hl hd => ?_,fun a ha => h.ended a ?_⟩,rfl⟩
      · obtain ⟨hne,hd⟩ := not_or.mp (mt List.mem_cons.mpr hd)
        exact h.fresh a hs (fun hx => hl ((List.mem_erase_of_ne hne).mpr hx)) hd
      · rcases ha with ha|ha
        · exact .inl (List.mem_of_mem_erase ha)
        · rcases List.mem_cons.mp ha with rfl|ha
          · exact .inl hc
          · exact .inr ha

/-- The programs are run by the steps of the goroutines that serve. -/
theorem Attended.run (h : Attended programs s)
    (hr : WorkerPool.run workerPoolSize s es = some t) :
    Attended programs t ∧ t.broker = (s.broker.exec respond (es.filterMap worked)).2 := by
  induction es generalizing s with
  | nil =>
      cases hr
      exact ⟨h,rfl⟩
  | cons e es ih =>
      obtain ⟨u,hu,hr⟩ := Option.bind_eq_some_iff.mp hr
      obtain ⟨hs,hb⟩ := h.step hu
      obtain ⟨ht,hb'⟩ := ih hs hr
      refine ⟨ht,?_⟩
      rw [hb',hb,← exec_append]
      cases hw : worked e with
      | none => rw [List.filterMap_cons_none hw]; rfl
      | some c => rw [List.filterMap_cons_some hw]; rfl

/-! ## Coming to an end -/

/-- Some steps of the goroutines lead there. -/
def Reaches (workerPoolSize : ℕ) (s t : Server ι) : Prop :=
  ∃ es, WorkerPool.run workerPoolSize s es = some t

theorem Reaches.refl (workerPoolSize : ℕ) (s : Server ι) : Reaches workerPoolSize s s := ⟨[],rfl⟩

theorem Reaches.cons {u : Server ι} (hs : WorkerPool.step workerPoolSize s e = some t)
    (h : Reaches workerPoolSize t u) : Reaches workerPoolSize s u := by
  obtain ⟨es,hes⟩ := h
  exact ⟨e::es,Option.bind_eq_some_iff.mpr ⟨t,hs,hes⟩⟩

theorem Reaches.trans {u : Server ι} (h : Reaches workerPoolSize s t)
    (k : Reaches workerPoolSize t u) : Reaches workerPoolSize s u := by
  obtain ⟨es,hes⟩ := h
  induction es generalizing s with
  | nil =>
      cases hes
      exact k
  | cons e es ih =>
      obtain ⟨v,hv,hes⟩ := Option.bind_eq_some_iff.mp hes
      exact .cons hv (ih hes)

theorem Accounted.reaches (h : Accounted workerPoolSize s) (hr : Reaches workerPoolSize s t) :
    Accounted workerPoolSize t := by
  obtain ⟨es,hes⟩ := hr
  exact h.run hes

/-- A goroutine that serves has panicked, which ends the process. -/
def Panicked (s : Server ι) : Prop := ∃ c ∈ s.serving, s.broker.threads c = .done none

/-- The program of a connection that is served comes to its end. -/
theorem reaches_end (workerPoolSize : ℕ) {c : ι} (hc : c ∈ s.serving) :
    ∃ b r, Reaches workerPoolSize s {s with broker := b} ∧ b.threads c = .done r := by
  generalize hp : s.broker.threads c = p
  induction p generalizing s with
  | done r => exact ⟨s.broker,r,.refl _ _,hp⟩
  | call o next ih =>
      have hstep : WorkerPool.step workerPoolSize s (.work c) =
          some {s with broker := (s.broker.step respond c).2} := if_pos hc
      have hthread : (s.broker.step respond c).2.threads c = next (respond o s.broker.state).1 := by
        simp [Pool.step,hp]
      obtain ⟨b,r,hr,hb⟩ := ih (respond o s.broker.state).1
        (s := {s with broker := (s.broker.step respond c).2}) hc hthread
      exact ⟨b,r,.cons hstep hr,hb⟩

/-- The accepting goroutine gives its connection away and ends. -/
theorem reaches_returned (workerPoolSize : ℕ) (s : Server ι) : ∃ t, Reaches workerPoolSize s t ∧
    t.acceptor = .returned ∧ t.main = s.main ∧ t.listener = s.listener := by
  have hlisten (s : Server ι) (ha : s.acceptor = .listening) :
      ∃ t, Reaches workerPoolSize s t ∧ t.acceptor = .returned ∧ t.main = s.main ∧
        t.listener = s.listener :=
    ⟨_,.cons (e := .acceptError) (if_pos ha) (.refl _ _),rfl,rfl,rfl⟩
  have hcount (s : Server ι) {c : ι} (ha : s.acceptor = .counted c) :
      ∃ t, Reaches workerPoolSize s t ∧ t.acceptor = .returned ∧ t.main = s.main ∧
        t.listener = s.listener := by
    obtain ⟨t,ht,hrest⟩ := hlisten {s with acceptor := .listening, serving := c::s.serving} rfl
    exact ⟨t,.cons (e := .go) (by simp only [WorkerPool.step,ha]) ht,hrest⟩
  have hacquire (s : Server ι) {c : ι} (ha : s.acceptor = .acquired c) :
      ∃ t, Reaches workerPoolSize s t ∧ t.acceptor = .returned ∧ t.main = s.main ∧
        t.listener = s.listener := by
    obtain ⟨t,ht,hrest⟩ := hcount {s with acceptor := .counted c, wg := s.wg+1} rfl
    exact ⟨t,.cons (e := .add) (by simp only [WorkerPool.step,ha]) ht,hrest⟩
  cases ha : s.acceptor with
  | returned => exact ⟨s,.refl _ _,ha,rfl,rfl⟩
  | listening => exact hlisten s ha
  | counted c => exact hcount s ha
  | acquired c => exact hacquire s ha
  | accepted c =>
      by_cases hr : s.sem < workerPoolSize
      · obtain ⟨t,ht,hrest⟩ := hacquire {s with acceptor := .acquired c, sem := s.sem+1} rfl
        exact ⟨t,.cons (e := .select) (by simp only [WorkerPool.step,ha,if_pos hr]) ht,hrest⟩
      · obtain ⟨t,ht,hrest⟩ := hlisten
          {s with acceptor := .listening, rejected := c::s.rejected} rfl
        exact ⟨t,.cons (e := .select) (by simp only [WorkerPool.step,ha,if_neg hr]) ht,hrest⟩

/-- The goroutines that serve end one after another, or one of them panics. -/
theorem reaches_unserving (h : Accounted workerPoolSize s) :
    ∃ t, Reaches workerPoolSize s t ∧ (Panicked t ∨ t.serving = [] ∧ t.acceptor = s.acceptor ∧
      t.main = s.main ∧ t.listener = s.listener) := by
  generalize hn : s.serving.length = n
  induction n generalizing s with
  | zero => exact ⟨s,.refl _ _,.inr ⟨List.length_eq_zero_iff.mp hn,rfl,rfl,rfl⟩⟩
  | succ n ih =>
      obtain ⟨c,rest,hs⟩ := List.exists_cons_of_length_eq_add_one hn
      have hc : c ∈ s.serving := by rw [hs]; exact List.mem_cons_self
      obtain ⟨b,r,hr,hb⟩ := reaches_end workerPoolSize hc
      cases r with
      | none => exact ⟨_,hr,.inl ⟨c,hc,hb⟩⟩
      | some k =>
          have hpos : 0 < s.sem := by
            have hsem := h.sem
            omega
          have hlen := List.length_erase_of_mem hc
          have hstep : WorkerPool.step workerPoolSize {s with broker := b} (.receive c) =
              some {s with
                broker := b
                serving := s.serving.erase c
                leaving := c::s.leaving
                sem := s.sem-1} := by
            simp only [WorkerPool.step,hb,if_pos (And.intro hc hpos)]
          have hreach := hr.trans (.cons hstep (.refl _ _))
          obtain ⟨t,ht,hrest⟩ := ih (h.reaches hreach) (by simp only; omega)
          exact ⟨t,hreach.trans ht,hrest⟩

theorem reaches_unleaving (workerPoolSize : ℕ) (s : Server ι) :
    ∃ t, Reaches workerPoolSize s t ∧ t.leaving = [] ∧ t.serving = s.serving ∧
      t.acceptor = s.acceptor ∧ t.main = s.main ∧ t.listener = s.listener := by
  generalize hn : s.leaving.length = n
  induction n generalizing s with
  | zero => exact ⟨s,.refl _ _,List.length_eq_zero_iff.mp hn,rfl,rfl,rfl,rfl⟩
  | succ n ih =>
      obtain ⟨c,rest,hs⟩ := List.exists_cons_of_length_eq_add_one hn
      have hc : c ∈ s.leaving := by rw [hs]; exact List.mem_cons_self
      have hlen := List.length_erase_of_mem hc
      obtain ⟨t,ht,hrest⟩ := ih {s with
        leaving := s.leaving.erase c
        served := c::s.served
        wg := s.wg-1} (by simp only; omega)
      exact ⟨t,.cons (e := .done c) (if_pos hc) ht,hrest⟩

/-- Once the listener is closed the program can come to a clean end, unless a
goroutine panics. -/
theorem reaches_drained (h : Accounted workerPoolSize s) (hm : s.main = .draining) :
    ∃ t, Reaches workerPoolSize s t ∧ (Panicked t ∨ t.main = .drained ∧ t.serving = [] ∧
      t.leaving = [] ∧ t.acceptor = .returned) := by
  obtain ⟨t₁,hr₁,ha₁,hm₁,hl₁⟩ := reaches_returned workerPoolSize s
  obtain ⟨t₂,hr₂,hp|⟨hs₂,ha₂,hm₂,hl₂⟩⟩ := reaches_unserving (h.reaches hr₁)
  · exact ⟨t₂,hr₁.trans hr₂,.inl hp⟩
  · obtain ⟨t₃,hr₃,hv₃,hs₃,ha₃,hm₃,hl₃⟩ :=
      reaches_unleaving workerPoolSize t₂
    have hreach := hr₁.trans (hr₂.trans hr₃)
    have hacc := h.reaches hreach
    have hmain : t₃.main = .draining := by rw [hm₃,hm₂,hm₁,hm]
    have hlisten : t₃.listener = false := by simpa [hmain] using hacc.going
    have hwg : t₃.wg = 0 := by
      rw [hacc.wg,hs₃,hs₂,hv₃,ha₃,ha₂,ha₁]
      rfl
    refine ⟨{t₃ with shutdownDone := true, main := .drained},hreach.trans (.cons (e := .wait)
      (if_pos ⟨hlisten,hwg⟩) (.cons (e := .drain) (if_pos ⟨hmain,rfl⟩) (.refl _ _))),.inr
      ⟨rfl,hs₃.trans hs₂,hv₃,(ha₃.trans ha₂).trans ha₁⟩⟩

end

/-- Whatever comes over the connections and however the goroutines are interleaved,
every connection that has arrived is in one place, those that are served are no
more than the pool has room for and are run by their own programs, those that were
turned away have had no request handled, and those that were served have been
served to the end. When the program ends because all connections were drained, at
most one of them can be left. -/
theorem connections_served_once {ι : Type*} [DecidableEq ι] (workerPoolSize : ℕ)
    (advertisedHost : Bytes) (inputs : ι → Bytes × Socket) (b : Shared) {es : List (Event ι)}
    {t : Server ι}
    (hr : run workerPoolSize (Server.init (connections advertisedHost inputs b)) es = some t) :
    t.arrived.Nodup ∧
      t.arrived.Perm (t.rejected++(t.served++(t.leaving++(t.serving++t.acceptor.inHand)))) ∧
      t.serving.length ≤ workerPoolSize ∧ (t.serving ≠ [] → 0 < t.sem) ∧ 0 ≤ t.wg ∧
      t.broker = ((connections advertisedHost inputs b).exec respond (es.filterMap worked)).2 ∧
      (∀ c ∈ t.rejected, t.broker.threads c =
        connection advertisedHost (inputs c).1 (inputs c).2) ∧
      (∀ c ∈ t.served, ∃ k, t.broker.threads c = .done (some k)) ∧
      (t.main = .drained → t.leaving.length+t.serving.length+t.acceptor.inHand.length ≤ 1) := by
  have hacc := (accounted_init workerPoolSize (connections advertisedHost inputs b)).run hr
  obtain ⟨hatt,hb⟩ := (attended_init (connections advertisedHost inputs b)).run hr
  have hsem := hacc.sem
  have hroom := hacc.room
  have hwg := hacc.wg
  refine ⟨hacc.nodup,hacc.perm,by omega,fun hne => ?_,by omega,hb,fun c hc => ?_,
    fun c hc => hatt.ended c (.inr hc),fun hd => hacc.last (hacc.drained hd)⟩
  · have hpos := List.length_pos_of_ne_nil hne
    omega
  · obtain ⟨hs,hl,hd⟩ := hacc.not_mem hc
    exact hatt.fresh c hs hl hd

/-- A connection is taken before the signal and counted after the waiting. -/
def lateStart : List (Event Bool) :=
  [.accept true,.signal,.close,.wait,.drain,.select,.add,.go]

/-- The last connection can be on its way when the program ends. -/
theorem connections_served_once_late :
    ∃ t, run 1 (Server.init (connections [] twoProducers empty)) lateStart = some t ∧
      t.main = .drained ∧ t.serving = [true] ∧ t.arrived.Nodup ∧
      t.arrived.Perm (t.rejected++(t.served++(t.leaving++(t.serving++t.acceptor.inHand)))) ∧
      t.serving.length ≤ 1 ∧
      t.broker = ((connections [] twoProducers empty).exec respond (lateStart.filterMap worked)).2 ∧
      t.leaving.length+t.serving.length+t.acceptor.inHand.length ≤ 1 := by
  have hrun : (run 1 (Server.init (connections [] twoProducers empty)) lateStart).map
      (fun t => (t.main,t.serving)) = some (.drained,[true]) := by decide +kernel
  obtain ⟨t,ht,hx⟩ := Option.map_eq_some_iff.mp hrun
  obtain ⟨hm,hs⟩ := Prod.mk.inj hx
  obtain ⟨hnd,hperm,hle,-,-,hb,-,-,hlast⟩ := connections_served_once 1 [] twoProducers empty ht
  exact ⟨t,ht,hm,hs,hnd,hperm,hle,hb,hlast hm⟩

/-- A connection is turned away only while as many are served as there is room
for. -/
theorem rejected_when_full {ι : Type*} [DecidableEq ι] {workerPoolSize : ℕ} {broker : Broker ι}
    {es : List (Event ι)} {e : Event ι} {s t : Server ι}
    (hr : run workerPoolSize (Server.init broker) es = some s)
    (hs : step workerPoolSize s e = some t) (hne : t.rejected ≠ s.rejected) :
    s.serving.length = workerPoolSize ∧ ∃ c, s.acceptor = .accepted c ∧
      t.rejected = c::s.rejected := by
  have hacc := (accounted_init workerPoolSize broker).run hr
  rcases step_rejected hs with hx|⟨c,ha,hfull,hx⟩
  · exact (hne hx).elim
  · have hsem := hacc.sem
    have hroom := hacc.room
    rw [ha] at hsem
    simp only [Acceptor.tokens] at hsem
    exact ⟨by omega,c,ha,hx⟩

/-- A second connection at a pool for one. -/
theorem rejected_when_full_one :
    ∃ s t, run 1 (Server.init (connections [] twoProducers empty))
        [.accept true,.select,.add,.go,.accept false] = some s ∧ step 1 s .select = some t ∧
      s.serving.length = 1 ∧ ∃ c, s.acceptor = .accepted c ∧ t.rejected = c::s.rejected := by
  have hrun : ((run 1 (Server.init (connections [] twoProducers empty))
      [.accept true,.select,.add,.go,.accept false]).bind fun s => (step 1 s .select).map
        fun t => (s.rejected,t.rejected)) = some ([],[false]) := by decide +kernel
  obtain ⟨s,hs,hx⟩ := Option.bind_eq_some_iff.mp hrun
  obtain ⟨t,ht,hx⟩ := Option.map_eq_some_iff.mp hx
  obtain ⟨hs₀,ht₀⟩ := Prod.mk.inj hx
  exact ⟨s,t,hs,ht,rejected_when_full hs ht (by rw [hs₀,ht₀]; nofun)⟩

/-- A shutdown is never stuck: from wherever the goroutines are while the program
waits for them, they can end, and then everything that has arrived was served or
turned away. -/
theorem shutdown_can_drain {ι : Type*} [DecidableEq ι] {workerPoolSize : ℕ} {broker : Broker ι}
    {es : List (Event ι)} {s : Server ι}
    (hr : run workerPoolSize (Server.init broker) es = some s) (hm : s.main = .draining) :
    ∃ fs t, run workerPoolSize s fs = some t ∧
      (Panicked t ∨ t.main = .drained ∧ t.acceptor = .returned ∧ t.serving = [] ∧
        t.leaving = [] ∧ t.arrived.Perm (t.rejected++t.served)) := by
  have hacc := (accounted_init workerPoolSize broker).run hr
  obtain ⟨t,⟨fs,hfs⟩,hp|⟨hd,hs,hl,ha⟩⟩ := reaches_drained hacc hm
  · exact ⟨fs,t,hfs,.inl hp⟩
  · refine ⟨fs,t,hfs,.inr ⟨hd,ha,hs,hl,?_⟩⟩
    have hperm := (hacc.run hfs).perm
    rw [hs,hl,ha] at hperm
    simpa [Acceptor.inHand] using hperm

/-- The signal comes while a connection is served. -/
theorem shutdown_can_drain_one :
    ∃ s, run 1 (Server.init (connections [] twoProducers empty))
        [.accept true,.select,.add,.go,.signal,.close] = some s ∧ s.main = .draining ∧
      ∃ fs t, run 1 s fs = some t ∧
        (Panicked t ∨ t.main = .drained ∧ t.acceptor = .returned ∧ t.serving = [] ∧
          t.leaving = [] ∧ t.arrived.Perm (t.rejected++t.served)) := by
  have hrun : (run 1 (Server.init (connections [] twoProducers empty))
      [.accept true,.select,.add,.go,.signal,.close]).map Server.main = some .draining := by
    decide +kernel
  obtain ⟨s,hs,hm⟩ := Option.map_eq_some_iff.mp hrun
  exact ⟨s,hs,hm,shutdown_can_drain hs hm⟩

end Kage.WorkerPool
