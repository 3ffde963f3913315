import Kage.PartitionNames
import Kage.BrokerStores

/-!
# Concurrent creation of partition stores

Any number of calls ask a broker for partitions at the same time. A call first
looks its key up under the read lock and, when the key is missing, takes the
write lock, looks again, makes the directory, opens the store and puts it into
the map. One step of a call is one of these actions; the calls take their steps
in any order, and between them the disk may change in any way.

A store is identified by the position of its opening, so two openings are two
stores even when they are equal as values. The facts that a phase records about
the shared state are `Fits`, and they hold of every call in every run. A call
that runs alone is the sequential function of the broker.
-/
namespace Kage.StoreCreation
open ByteStrings FaultyDisk SegmentLog PartitionLog BrokerStores PartitionNames

/-- A pointer to a store: which opening made it, and what it points to. -/
structure Handle where
  id : ℕ
  store : PartitionStore
  deriving DecidableEq, Repr

inductive Phase where
  | start
  | reading
  | looked (found : Option Handle)
  | waiting
  | locked
  | making
  | opening
  | publishing (h : Handle)
  | unlocking (r : Except Err Handle)
  | done (r : Except Err Handle)

/-- The broker, its lock, and the calls. The last two lists record the keys of
all stores that were opened and put into the map, in order. -/
structure State (T : Type) where
  rootDir : List Bytes
  cfg : SegmentConfig
  stores : AList fun _ : Bytes => Handle
  disk : Disk
  readers : List T
  writer : Option T
  phase : T → Phase
  opened : List Bytes
  published : List Bytes

/-- A call takes its next step, or something else happens to the disk. -/
inductive Event (T : Type) where
  | call (t : T)
  | disk (d : Disk)

section Calls
variable {T : Type} [DecidableEq T] (call : T → TopicPartition)

def State.go (s : State T) (t : T) (p : Phase) : State T :=
  {s with phase := Function.update s.phase t p}

def step (s : State T) (t : T) : State T :=
  let key := keyOf (call t)
  let dir := joinPath s.rootDir key
  match s.phase t with
  | .start => if s.writer = none then {s.go t .reading with readers := t::s.readers} else s
  | .reading => s.go t (.looked (s.stores.lookup key))
  | .looked none => {s.go t .waiting with readers := s.readers.erase t}
  | .looked (some h) => {s.go t (.done (.ok h)) with readers := s.readers.erase t}
  | .waiting =>
      if s.writer = none ∧ s.readers = [] then {s.go t .locked with writer := some t} else s
  | .locked =>
      match s.stores.lookup key with
      | some h => s.go t (.unlocking (.ok h))
      | none => s.go t .making
  | .making =>
      match s.disk.mkdirAll dir with
      | (some e,d) =>
          {s.go t (.unlocking (.error (.wrap "storage: create partition dir %q" e))) with disk := d}
      | (none,d) => {s.go t .opening with disk := d}
  | .opening =>
      match openPartitionStore dir s.cfg s.disk with
      | (.error e,d) =>
          {s.go t (.unlocking (.error (.wrap "storage: open partition %q/%d" e))) with disk := d}
      | (.ok ps,d) =>
          {s.go t (.publishing ⟨s.opened.length,ps⟩) with
            disk := d
            opened := s.opened++[key]}
  | .publishing h =>
      {s.go t (.unlocking (.ok h)) with
        stores := s.stores.insert key h
        published := s.published++[key]}
  | .unlocking r => {s.go t (.done r) with writer := none}
  | .done _ => s

def next (s : State T) : Event T → State T
  | .call t => step call s t
  | .disk d => {s with disk := d}

def run (s : State T) (events : List (Event T)) : State T := events.foldl (next call) s

/-- Number the stores of a broker by the order of its entries. -/
def handles (stores : AList fun _ : Bytes => PartitionStore) : AList fun _ : Bytes => Handle :=
  ⟨stores.entries.map (Sigma.map id fun k ps => ⟨stores.keys.idxOf k,ps⟩),
    stores.nodupKeys.map₂ _⟩

/-- Calls are about to be made to the broker. -/
def start (bs : BrokerStore) (d : Disk) : State T :=
  ⟨bs.rootDir,bs.cfg,handles bs.stores,d,[],none,fun _ => .start,bs.stores.keys,[]⟩

/-- The steps of a call that leave the map, the lock and the openings alone. -/
inductive Along (s : State T) (t : T) : Phase → Phase → Prop
  | read : Along s t .start .reading
  | look : Along s t .reading (.looked (s.stores.lookup (keyOf (call t))))
  | miss : Along s t (.looked none) .waiting
  | hit (h : Handle) : Along s t (.looked (some h)) (.done (.ok h))
  | lookAgain {h : Handle} : s.stores.lookup (keyOf (call t)) = some h →
      Along s t .locked (.unlocking (.ok h))
  | missAgain : s.stores.lookup (keyOf (call t)) = none → Along s t .locked .making
  | noDir (e : Err) : Along s t .making (.unlocking (.error e))
  | madeDir : Along s t .making .opening
  | noStore (e : Err) : Along s t .opening (.unlocking (.error e))

/-- All that a step of a call can do. -/
inductive Moves (s : State T) (t : T) : State T → Prop
  | stay : Moves s t s
  | along {p : Phase} (readers : List T) (d : Disk) : Along call s t (s.phase t) p →
      Moves s t {s.go t p with readers := readers, disk := d}
  | lock : s.phase t = .waiting → s.writer = none →
      Moves s t {s.go t .locked with writer := some t}
  | opens (ps : PartitionStore) (d : Disk) : s.phase t = .opening →
      Moves s t {s.go t (.publishing ⟨s.opened.length,ps⟩) with
        disk := d
        opened := s.opened++[keyOf (call t)]}
  | publish {h : Handle} : s.phase t = .publishing h →
      Moves s t {s.go t (.unlocking (.ok h)) with
        stores := s.stores.insert (keyOf (call t)) h
        published := s.published++[keyOf (call t)]}
  | unlock {r : Except Err Handle} : s.phase t = .unlocking r →
      Moves s t {s.go t (.done r) with writer := none}

/-- What a phase says about the shared state. -/
def Fits (s : State T) (t : T) : Phase → Prop
  | .start => True
  | .reading => True
  | .looked none => True
  | .looked (some h) => s.stores.lookup (keyOf (call t)) = some h
  | .waiting => True
  | .locked => s.writer = some t
  | .making => s.writer = some t ∧ s.stores.lookup (keyOf (call t)) = none
  | .opening => s.writer = some t ∧ s.stores.lookup (keyOf (call t)) = none
  | .publishing h => s.writer = some t ∧ s.stores.lookup (keyOf (call t)) = none ∧
      s.opened[h.id]? = some (keyOf (call t))
  | .unlocking (.ok h) => s.writer = some t ∧ s.stores.lookup (keyOf (call t)) = some h
  | .unlocking (.error _) => s.writer = some t
  | .done (.ok h) => s.stores.lookup (keyOf (call t)) = some h
  | .done (.error _) => True

structure Inv (s : State T) : Prop where
  fits : ∀ t, Fits call s t (s.phase t)
  once : s.opened.Nodup
  kept : ∀ k ∈ s.opened, k ∈ s.stores ∨ ∃ t h, s.phase t = .publishing h ∧ k = keyOf (call t)
  shown : s.published.Nodup
  known : ∀ k ∈ s.published, k ∈ s.stores
  made : ∀ k h, s.stores.lookup k = some h → s.opened[h.id]? = some k

end Calls

section Phases
variable {T : Type} {call : T → TopicPartition} {s : State T} {t : T}

theorem Along.fits {p q : Phase} (h : Along call s t p q) (hf : Fits call s t p) :
    Fits call s t q := by
  cases h with
  | read => trivial
  | look =>
      cases hl : s.stores.lookup (keyOf (call t)) with
      | none => trivial
      | some h => exact hl
  | miss => trivial
  | hit h => exact hf
  | lookAgain hl => exact ⟨hf,hl⟩
  | missAgain hl => exact ⟨hf,hl⟩
  | noDir e => exact hf.1
  | madeDir => exact hf
  | noStore e => exact hf.1

theorem Along.ne_publishing {p q : Phase} (h : Along call s t p q) (k : Handle) :
    p ≠ .publishing k := by
  cases h <;> intro hx <;> cases hx

theorem getElem?_grow {l : List Bytes} {i : ℕ} {k : Bytes} (m : List Bytes)
    (h : l[i]? = some k) : (l++m)[i]? = some k := by
  rw [List.getElem?_append_left (List.getElem?_eq_some_iff.mp h).1,h]

/-- The facts of a call survive a change of the shared state in which its store
stays and, if it holds the lock, nothing else happens to it. -/
theorem Fits.mono {s' : State T} {p : Phase} (hf : Fits call s t p)
    (hw : s.writer = some t → s'.writer = some t ∧
      (s.stores.lookup (keyOf (call t)) = none → s'.stores.lookup (keyOf (call t)) = none))
    (hl : ∀ h, s.stores.lookup (keyOf (call t)) = some h →
      s'.stores.lookup (keyOf (call t)) = some h)
    (ho : ∀ (i : ℕ) k, s.opened[i]? = some k → s'.opened[i]? = some k) : Fits call s' t p := by
  cases p with
  | start => trivial
  | reading => trivial
  | looked found =>
      cases found with
      | none => trivial
      | some h => exact hl h hf
  | waiting => trivial
  | locked => exact (hw hf).1
  | making => exact ⟨(hw hf.1).1,(hw hf.1).2 hf.2⟩
  | opening => exact ⟨(hw hf.1).1,(hw hf.1).2 hf.2⟩
  | publishing h => exact ⟨(hw hf.1).1,(hw hf.1).2 hf.2.1,ho _ _ hf.2.2⟩
  | unlocking r =>
      cases r with
      | error e => exact (hw hf).1
      | ok h => exact ⟨(hw hf.1).1,hl h hf.2⟩
  | done r =>
      cases r with
      | error e => trivial
      | ok h => exact hl h hf

/-- Only the holder of the lock is between its second lookup and its return. -/
theorem Inv.unlocked (h : Inv call s) (hw : s.writer = none) {u : T} {k : Handle} :
    s.phase u ≠ .publishing k := by
  intro hp
  have hf := h.fits u
  rw [hp,Fits,hw] at hf
  cases hf.1

/-- The holder of the lock is the only call that has opened a store and not yet
put it into the map. -/
theorem Inv.publisher (h : Inv call s) (hw : s.writer = some t) {u : T} {x : Handle}
    (hu : s.phase u = .publishing x) : u = t := by
  have hf := h.fits u
  rw [hu,Fits,hw] at hf
  exact (Option.some_inj.mp hf.1).symm

theorem lookup_handles (stores : AList fun _ : Bytes => PartitionStore) (k : Bytes) :
    (handles stores).lookup k = (stores.lookup k).map fun ps => ⟨stores.keys.idxOf k,ps⟩ :=
  List.dlookup_map₂ k

theorem start_inv (call : T → TopicPartition) (bs : BrokerStore) (d : Disk) :
    Inv call (start bs d) where
  fits := fun _ => trivial
  once := bs.stores.keys_nodup
  kept := by
    intro k hk
    left
    have hs : (bs.stores.lookup k).isSome := AList.lookup_isSome.mpr hk
    rw [← AList.lookup_isSome]
    exact (congrArg Option.isSome (lookup_handles bs.stores k)).trans (by simpa using hs)
  shown := List.nodup_nil
  known := by simp [start]
  made := by
    intro k h hk
    have hl := (lookup_handles bs.stores k).symm.trans hk
    obtain ⟨ps,hps,rfl⟩ := Option.map_eq_some_iff.mp hl
    have hm : k ∈ bs.stores.keys := by
      rw [← AList.mem_keys,← AList.lookup_isSome,hps]
      rfl
    exact List.getElem?_idxOf hm

end Phases

section Steps
variable {T : Type} [DecidableEq T] {call : T → TopicPartition} {s s' : State T} {t : T}

theorem step_moves (call : T → TopicPartition) (s : State T) (t : T) :
    Moves call s t (step call s t) := by
  unfold step
  cases hp : s.phase t with
  | start =>
      simp only
      split
      · exact .along _ s.disk (hp ▸ .read)
      · exact .stay
  | reading => exact .along s.readers s.disk (hp ▸ .look)
  | looked found =>
      cases found with
      | none => exact .along _ s.disk (hp ▸ .miss)
      | some h => exact .along _ s.disk (hp ▸ .hit h)
  | waiting =>
      simp only
      split
      · rename_i hw
        exact .lock hp hw.1
      · exact .stay
  | locked =>
      simp only
      cases hl : s.stores.lookup (keyOf (call t)) with
      | none => exact .along s.readers s.disk (hp ▸ .missAgain hl)
      | some h => exact .along s.readers s.disk (hp ▸ .lookAgain hl)
  | making =>
      simp only
      rcases s.disk.mkdirAll (joinPath s.rootDir (keyOf (call t))) with ⟨r,d⟩
      cases r with
      | none => exact .along s.readers d (hp ▸ .madeDir)
      | some e => exact .along s.readers d (hp ▸ .noDir _)
  | opening =>
      simp only
      rcases openPartitionStore (joinPath s.rootDir (keyOf (call t))) s.cfg s.disk with ⟨r,d⟩
      cases r with
      | error e => exact .along s.readers d (hp ▸ .noStore _)
      | ok ps => exact .opens ps d hp
  | publishing h => exact .publish hp
  | unlocking r => exact .unlock hp
  | done r => exact .stay

@[simp] theorem go_phase_self (s : State T) (t : T) (p : Phase) : (s.go t p).phase t = p :=
  Function.update_self ..

theorem go_phase_ne (s : State T) {t u : T} (h : u ≠ t) (p : Phase) :
    (s.go t p).phase u = s.phase u :=
  Function.update_of_ne h ..

/-- A step of one call keeps the facts of the others if it keeps the shared state. -/
theorem fits_go {p : Phase} (hs : ∀ u ≠ t, Fits call s u (s.phase u) → Fits call s' u (s.phase u))
    (ht : Fits call s' t p) (h : ∀ u, Fits call s u (s.phase u)) (u : T) :
    Fits call s' u ((s.go t p).phase u) := by
  by_cases hu : u = t
  · subst hu
    rwa [go_phase_self]
  · rw [go_phase_ne s hu]
    exact hs u hu (h u)

theorem Inv.along (h : Inv call s) {p : Phase} (hp : Along call s t (s.phase t) p)
    (readers : List T) (d : Disk) :
    Inv call {s.go t p with readers := readers, disk := d} where
  fits := fits_go (fun _ _ hu => hu) (hp.fits (h.fits t)) h.fits
  once := h.once
  kept := by
    intro k hk
    apply (h.kept k hk).imp_right
    rintro ⟨u,x,hu,rfl⟩
    refine ⟨u,x,?_,rfl⟩
    rw [← hu]
    apply go_phase_ne
    rintro rfl
    exact hp.ne_publishing x hu
  shown := h.shown
  known := h.known
  made := h.made

theorem Inv.lock (h : Inv call s) (hw : s.writer = none) :
    Inv call {s.go t .locked with writer := some t} where
  fits := by
    refine fits_go (fun u hu hf => ?_) rfl h.fits
    refine hf.mono (fun hx => ?_) (fun _ hx => hx) (fun _ _ hx => hx)
    rw [hw] at hx
    cases hx
  once := h.once
  kept := by
    intro k hk
    apply (h.kept k hk).imp_right
    rintro ⟨u,x,hu,rfl⟩
    exact absurd hu (h.unlocked hw)
  shown := h.shown
  known := h.known
  made := h.made

theorem Inv.opens (h : Inv call s) (hp : s.phase t = .opening) (ps : PartitionStore) (d : Disk) :
    Inv call {s.go t (.publishing ⟨s.opened.length,ps⟩) with
      disk := d
      opened := s.opened++[keyOf (call t)]} := by
  have hf := h.fits t
  rw [hp] at hf
  obtain ⟨hw,hnone⟩ := hf
  have hnew : keyOf (call t) ∉ s.opened := by
    intro hk
    rcases h.kept _ hk with hm|⟨u,x,hu,-⟩
    · rw [← AList.lookup_isSome,hnone] at hm
      cases hm
    · rw [h.publisher hw hu,hp] at hu
      cases hu
  constructor
  · refine fits_go (fun u hu hf => ?_) ?_ h.fits
    · refine hf.mono (fun hx => ?_) (fun _ hx => hx) (fun _ _ => getElem?_grow _)
      exact absurd (Option.some_inj.mp (hx.symm.trans hw)) hu
    · exact ⟨hw,hnone,by simp⟩
  · have hn := h.once.concat hnew
    rw [List.concat_eq_append] at hn
    exact hn
  · intro k hk
    rcases List.mem_append.mp hk with hk|hk
    · rcases h.kept k hk with hm|⟨u,x,hu,-⟩
      · exact .inl hm
      · rw [h.publisher hw hu,hp] at hu
        cases hu
    · rw [List.mem_singleton.mp hk]
      exact .inr ⟨t,_,go_phase_self _ _ _,rfl⟩
  · exact h.shown
  · exact h.known
  · exact fun k x hx => getElem?_grow _ (h.made k x hx)

theorem Inv.publish (h : Inv call s) {x : Handle} (hp : s.phase t = .publishing x) :
    Inv call {s.go t (.unlocking (.ok x)) with
      stores := s.stores.insert (keyOf (call t)) x
      published := s.published++[keyOf (call t)]} := by
  have hf := h.fits t
  rw [hp] at hf
  obtain ⟨hw,hnone,hat⟩ := hf
  have hnot : keyOf (call t) ∉ s.stores := by
    rw [← AList.lookup_isSome,hnone]
    exact Bool.false_ne_true
  have hstay : ∀ k y, s.stores.lookup k = some y →
      (s.stores.insert (keyOf (call t)) x).lookup k = some y := by
    intro k y hy
    rw [AList.lookup_insert_ne,hy]
    rintro rfl
    rw [hnone] at hy
    cases hy
  constructor
  · refine fits_go (fun u hu hf => ?_) ⟨hw,AList.lookup_insert _⟩ h.fits
    refine hf.mono (fun hx => ?_) (fun y hy => hstay _ y hy) (fun _ _ hx => hx)
    exact absurd (Option.some_inj.mp (hx.symm.trans hw)) hu
  · exact h.once
  · intro k hk
    left
    rcases h.kept k hk with hm|⟨u,y,hu,rfl⟩
    · exact AList.mem_insert _ |>.mpr (.inr hm)
    · rw [h.publisher hw hu]
      exact AList.mem_insert _ |>.mpr (.inl rfl)
  · have hn := h.shown.concat fun hk => hnot (h.known _ hk)
    rw [List.concat_eq_append] at hn
    exact hn
  · intro k hk
    rcases List.mem_append.mp hk with hk|hk
    · exact AList.mem_insert _ |>.mpr (.inr (h.known k hk))
    · exact AList.mem_insert _ |>.mpr (.inl (List.mem_singleton.mp hk))
  · intro k y hy
    by_cases hk : k = keyOf (call t)
    · subst hk
      rw [AList.lookup_insert] at hy
      rw [← Option.some_inj.mp hy]
      exact hat
    · rw [AList.lookup_insert_ne hk] at hy
      exact h.made k y hy

theorem Inv.unlock (h : Inv call s) {r : Except Err Handle} (hp : s.phase t = .unlocking r) :
    Inv call {s.go t (.done r) with writer := none} := by
  have hf := h.fits t
  have hw : s.writer = some t := by
    rw [hp] at hf
    cases r with
    | error e => exact hf
    | ok x => exact hf.1
  constructor
  · refine fits_go (fun u hu hf => ?_) ?_ h.fits
    · refine hf.mono (fun hx => ?_) (fun _ hx => hx) (fun _ _ hx => hx)
      exact absurd (Option.some_inj.mp (hx.symm.trans hw)) hu
    · rw [hp] at hf
      cases r with
      | error e => trivial
      | ok x => exact hf.2
  · exact h.once
  · intro k hk
    apply (h.kept k hk).imp_right
    rintro ⟨u,x,hu,rfl⟩
    rw [h.publisher hw hu,hp] at hu
    cases hu
  · exact h.shown
  · exact h.known
  · exact h.made

theorem Inv.moves (h : Inv call s) (hm : Moves call s t s') : Inv call s' := by
  cases hm with
  | stay => exact h
  | along readers d hp => exact h.along hp readers d
  | lock hp hw => exact h.lock hw
  | opens ps d hp => exact h.opens hp ps d
  | publish hp => exact h.publish hp
  | unlock hp => exact h.unlock hp

end Steps

section Runs
variable {T : Type} [DecidableEq T] {call : T → TopicPartition} {s : State T} {t : T}

theorem Inv.next (h : Inv call s) (e : Event T) : Inv call (next call s e) := by
  cases e with
  | call t => exact h.moves (step_moves call s t)
  | disk d => exact ⟨h.fits,h.once,h.kept,h.shown,h.known,h.made⟩

theorem Inv.run (h : Inv call s) (events : List (Event T)) : Inv call (run call s events) := by
  induction events generalizing s with
  | nil => exact h
  | cons e events ih => exact ih (h.next e)

/-- The call has its store and will return it. -/
def Settled (s : State T) (t : T) : Prop :=
  ∃ h, s.phase t = .unlocking (.ok h) ∨ s.phase t = .done (.ok h)

/-- A step changes the map only when its call succeeds. -/
theorem step_stores (call : T → TopicPartition) (s : State T) (t : T) :
    (step call s t).stores = s.stores ∨ Settled (step call s t) t := by
  have hm := step_moves call s t
  generalize step call s t = s' at hm
  cases hm with
  | stay => exact .inl rfl
  | along readers d hp => exact .inl rfl
  | lock hp hw => exact .inl rfl
  | opens ps d hp => exact .inl rfl
  | publish hp => exact .inr ⟨_,.inl (go_phase_self _ _ _)⟩
  | unlock hp => exact .inl rfl

theorem Settled.step (h : Settled s t) (u : T) : Settled (step call s u) t := by
  obtain ⟨x,hx⟩ := h
  by_cases hu : t = u
  · subst hu
    rcases hx with hx|hx
    · refine ⟨x,.inr ?_⟩
      simp only [StoreCreation.step,hx]
      exact go_phase_self _ _ _
    · refine ⟨x,.inr ?_⟩
      simp only [StoreCreation.step,hx]
  · have hsame : (StoreCreation.step call s u).phase t = s.phase t := by
      have hm := step_moves call s u
      generalize StoreCreation.step call s u = s' at hm
      cases hm with
      | stay => rfl
      | along readers d hp => exact go_phase_ne s hu _
      | lock hp hw => exact go_phase_ne s hu _
      | opens ps d hp => exact go_phase_ne s hu _
      | publish hp => exact go_phase_ne s hu _
      | unlock hp => exact go_phase_ne s hu _
    exact ⟨x,by rwa [hsame]⟩

theorem Settled.run (h : Settled s t) (events : List (Event T)) :
    Settled (run call s events) t := by
  induction events generalizing s with
  | nil => exact h
  | cons e events ih =>
      apply ih
      cases e with
      | call u => exact h.step u
      | disk d => exact h

end Runs

/-- In every run of calls on a broker a key is opened and put into the map at
most once, the calls that succeed for it return the store of that one opening,
and no step of a call that fails changes the map. -/
theorem one_store_per_key {T : Type} [DecidableEq T] (call : T → TopicPartition)
    (bs : BrokerStore) (d : Disk) (events : List (Event T)) :
    let s := run call (start bs d) events
    s.opened.Nodup ∧ s.published.Nodup ∧
      (∀ t h, s.phase t = .done (.ok h) →
        s.stores.lookup (keyOf (call t)) = some h ∧ s.opened[h.id]? = some (keyOf (call t))) ∧
      (∀ t u h k, keyOf (call t) = keyOf (call u) → s.phase t = .done (.ok h) →
        s.phase u = .done (.ok k) → h = k) ∧
      ∀ t e, s.phase t = .done (.error e) → ∀ before, before++[.call t] <+: events →
        (run call (start bs d) (before++[.call t])).stores =
          (run call (start bs d) before).stores := by
  intro s
  have hi : Inv call s := (start_inv call bs d).run events
  have hdone : ∀ t h, s.phase t = .done (.ok h) → s.stores.lookup (keyOf (call t)) = some h := by
    intro t h hp
    have hf := hi.fits t
    rwa [hp] at hf
  refine ⟨hi.once,hi.shown,?_,?_,?_⟩
  · intro t h hp
    exact ⟨hdone t h hp,hi.made _ h (hdone t h hp)⟩
  · intro t u h k hk ht hu
    have hl := hdone t h ht
    rw [hk,hdone u k hu] at hl
    exact (Option.some_inj.mp hl).symm
  · intro t e hp before hpre
    obtain ⟨rest,hrest⟩ := hpre
    have hstep : run call (start bs d) (before++[.call t]) =
        step call (run call (start bs d) before) t := by
      rw [run,List.foldl_append]
      rfl
    rw [hstep]
    rcases step_stores call (run call (start bs d) before) t with heq|hset
    · exact heq
    · have hfin : s = run call (step call (run call (start bs d) before) t) rest := by
        rw [← hstep,run,run,← List.foldl_append,hrest]
        rfl
      have hset : Settled (run call (step call (run call (start bs d) before) t) rest) t :=
        hset.run rest
      rw [← hfin] at hset
      obtain ⟨x,hx⟩ := hset
      rw [hp] at hx
      rcases hx with hx|hx <;> cases hx

section Alone
variable {T : Type} {bs : BrokerStore} {s : State T} {t : T}

/-- The broker with the numbers of its stores forgotten. -/
structure Erases (s : State T) (bs : BrokerStore) : Prop where
  root : bs.rootDir = s.rootDir
  cfg : bs.cfg = s.cfg
  stores : ∀ k, bs.stores.lookup k = (s.stores.lookup k).map Handle.store

/-- A call on a broker that nobody else uses. -/
structure Quiet (s : State T) (t : T) : Prop where
  writer : s.writer = none
  readers : s.readers = []
  phase : s.phase t = .start

/-- The call returned what the sequential function returns, and left the broker
and the disk as that function leaves them. -/
def Agrees (bs : BrokerStore) (tp : TopicPartition) (s s' : State T) (t : T) : Prop :=
  ∃ r bs', bs.getOrCreatePartition tp.topic tp.partition s.disk =
      (r.map Handle.store,bs',s'.disk) ∧
    s'.phase t = .done r ∧ Erases s' bs' ∧ s'.writer = none ∧ s'.readers = []

theorem Erases.of_stores {s' : State T} (he : Erases s bs) (hr : s'.rootDir = s.rootDir)
    (hc : s'.cfg = s.cfg) (hs : s'.stores = s.stores) : Erases s' bs :=
  ⟨he.root.trans hr.symm,he.cfg.trans hc.symm,fun k => by rw [hs]; exact he.stores k⟩

/-- Nine steps of a call that runs alone complete it. -/
theorem alone_agrees [DecidableEq T] {call : T → TopicPartition} (he : Erases s bs)
    (hq : Quiet s t) : Agrees bs (call t) s (run call s (.replicate 9 (.call t))) t := by
  have hl := he.stores (keyOf (call t))
  have hdir : bs.partitionDir (call t).topic (call t).partition =
      joinPath s.rootDir (keyOf (call t)) := by
    rw [BrokerStore.partitionDir,he.root]
    rfl
  cases hs : s.stores.lookup (keyOf (call t)) with
  | some h =>
      rw [hs,Option.map_some] at hl
      have hr : run call s (.replicate 9 (.call t)) =
          {s.go t (.done (.ok h)) with readers := []} := by
        simp [run,next,step,State.go,List.replicate,hq.writer,hq.readers,hq.phase,hs]
      rw [hr]
      exact ⟨.ok h,bs,getOrCreatePartition_of_lookup hl,go_phase_self _ _ _,
        he.of_stores rfl rfl rfl,hq.writer,rfl⟩
  | none =>
      rw [hs,Option.map_none,keyOf] at hl
      rcases hm : s.disk.mkdirAll (joinPath s.rootDir (keyOf (call t))) with ⟨r,d₁⟩
      cases r with
      | some e =>
          have hr : run call s (.replicate 9 (.call t)) =
              {s.go t (.done (.error (.wrap "storage: create partition dir %q" e))) with
                disk := d₁} := by
            simp [run,next,step,State.go,List.replicate,hq.writer,hq.readers,hq.phase,hs,hm]
          rw [hr]
          refine ⟨_,bs,?_,go_phase_self _ _ _,he.of_stores rfl rfl rfl,hq.writer,hq.readers⟩
          simp only [BrokerStore.getOrCreatePartition,hl,hdir,hm]
          rfl
      | none =>
          rcases ho : openPartitionStore (joinPath s.rootDir (keyOf (call t))) s.cfg d₁ with ⟨r,d₂⟩
          cases r with
          | error e =>
              have hr : run call s (.replicate 9 (.call t)) =
                  {s.go t (.done (.error (.wrap "storage: open partition %q/%d" e))) with
                    disk := d₂} := by
                simp [run,next,step,State.go,List.replicate,hq.writer,hq.readers,hq.phase,hs,hm,ho]
              rw [hr]
              refine ⟨_,bs,?_,go_phase_self _ _ _,he.of_stores rfl rfl rfl,hq.writer,hq.readers⟩
              simp only [BrokerStore.getOrCreatePartition,hl,hdir,hm,he.cfg,ho]
              rfl
          | ok ps =>
              have hr : run call s (.replicate 9 (.call t)) =
                  {s.go t (.done (.ok ⟨s.opened.length,ps⟩)) with
                    disk := d₂
                    stores := s.stores.insert (keyOf (call t)) ⟨s.opened.length,ps⟩
                    opened := s.opened++[keyOf (call t)]
                    published := s.published++[keyOf (call t)]} := by
                simp [run,next,step,State.go,List.replicate,hq.writer,hq.readers,hq.phase,hs,hm,ho]
              rw [hr]
              refine ⟨_,bs.put (call t).topic (call t).partition ps,?_,go_phase_self _ _ _,
                ⟨he.root,he.cfg,fun k => ?_⟩,hq.writer,hq.readers⟩
              · simp only [BrokerStore.getOrCreatePartition,hl,hdir,hm,he.cfg,ho]
                rfl
              · by_cases hk : k = keyOf (call t)
                · subst hk
                  rw [AList.lookup_insert]
                  exact put_lookup bs _ _ ps
                · rw [AList.lookup_insert_ne hk,put_lookup_ne bs hk]
                  exact he.stores k

end Alone

end Kage.StoreCreation
