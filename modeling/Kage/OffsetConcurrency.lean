import Kage.OffsetStorage

/-!
# Concurrent commits

Calls that commit offsets run side by side. Each takes its commits one by one,
and each commit in two atomic steps: the append to the log, under the lock of
the partition, and the update of the cache, under another lock. Looking the
partition up belongs to the first step: every call gets the same store. Any call
may step next, so between the two steps of one commit other calls may append and
cache.

A state also remembers the commits in log order and which of them have reached
the cache. These are histories: no step depends on them. With them the calls
are writers of a board whose log is the log on the disk, and the cache agrees
with the log as soon as no call is in progress, provided that no commit is
cached after a later one for its key.
-/
namespace Kage.OffsetConcurrency
open ByteStrings LengthPrefixed FaultyDisk SegmentLog PartitionLog RollingLog PartitionRuns
open BrokerStores LastWrite OffsetRecords OffsetHandlers OffsetStorage

/-- The commits a call has yet to append, and the one it has appended but not
cached, with its position in the log. -/
structure Call where
  todo : List Commit
  appended : Option (ℕ × Commit)

structure State where
  handler : Handler
  disk : Disk
  calls : List Call
  log : List Commit
  cached : List ℕ

inductive Event where
  | request (req : OffsetCommitRequest)
  | append (call : ℕ)
  | cache (call : ℕ)

def start (bs : BrokerStore) (d : Disk) : State := ⟨newHandler bs,d,[],[],[]⟩

/-- The atomic steps; an event that is not possible has no successor. -/
def step (s : State) : Event → Option State
  | .request req => some {s with calls := s.calls++[⟨commits req,none⟩]}
  | .append i =>
      match s.calls[i]? with
      | some ⟨c::todo,none⟩ =>
          match appendCommit c s.handler.store s.disk with
          | (some _,bs,d) => some {s with
              handler := {s.handler with store := bs}
              disk := d
              calls := s.calls.set i ⟨todo,none⟩}
          | (none,bs,d) => some {s with
              handler := {s.handler with store := bs}
              disk := d
              calls := s.calls.set i ⟨todo,some (s.log.length,c)⟩
              log := s.log++[c]}
      | _ => none
  | .cache i =>
      match s.calls[i]? with
      | some ⟨todo,some (n,c)⟩ => some {s with
          handler := {s.handler with offsetCache := cacheCommit c s.handler.offsetCache}
          calls := s.calls.set i ⟨todo,none⟩
          cached := n::s.cached}
      | _ => none

def run : State → List Event → Option State
  | s,[] => some s
  | s,e::es =>
      match step s e with
      | none => none
      | some s => run s es

/-- No call is in progress. -/
def Quiescent (s : State) : Prop := ∀ call ∈ s.calls, call.todo = [] ∧ call.appended = none

instance (s : State) : Decidable (Quiescent s) :=
  inferInstanceAs (Decidable (∀ call ∈ s.calls, call.todo = [] ∧ call.appended = none))

/-- The event does not cache a commit after a later one for its key. -/
def InOrder (s : State) : Event → Prop
  | .cache i => ∀ call ∈ s.calls[i]?, ∀ a ∈ call.appended, ∀ m ∈ s.cached, a.1 < m →
      ∀ c ∈ s.log[m]?, c.key ≠ a.2.key
  | _ => True

/-- Every event of a run is in order where it happens. -/
def AllInOrder : State → List Event → Prop
  | _,[] => True
  | s,e::es => InOrder s e ∧ ∀ s' ∈ step s e, AllInOrder s' es

instance (s : State) : (e : Event) → Decidable (InOrder s e)
  | .request _ => isTrue trivial
  | .append _ => isTrue trivial
  | .cache i => inferInstanceAs (Decidable (∀ call ∈ s.calls[i]?, ∀ a ∈ call.appended,
      ∀ m ∈ s.cached, a.1 < m → ∀ c ∈ s.log[m]?, c.key ≠ a.2.key))

instance decidableAllInOrder : (s : State) → (es : List Event) → Decidable (AllInOrder s es)
  | _,[] => isTrue trivial
  | s,e::es =>
      haveI := fun s' => decidableAllInOrder s' es
      inferInstanceAs (Decidable (InOrder s e ∧ ∀ s' ∈ step s e, AllInOrder s' es))

/-- The records of the log, in log order, as they lie in the segments. -/
def Logged (s : State) (payloads : List Bytes) : Prop :=
  (s.handler.store.stores.lookup offsetsName = none ∧ payloads = []) ∨
    ∃ ps segs, s.handler.store.stores.lookup offsetsName = some ps ∧
      Tiled ps s.disk segs (frames payloads)

/-- What replaying these records gives; malformed ones are skipped. -/
def replayRecords (payloads : List Bytes) : OffsetCache :=
  replay (fun _ => none) (payloads.filterMap fun p => (decodeOffsetRecord p).toOption)

def board (s : State) : Board OffsetCacheKey Int64 :=
  ⟨s.log.map Commit.write,s.handler.offsetCache,s.cached⟩

/-- What holds in any run, whatever its order. -/
structure Inv (root : List Bytes) (cfg : SegmentConfig) (s : State) : Prop where
  position : ∀ call ∈ s.calls, ∀ n c, call.appended = some (n,c) → s.log[n]? = some c
  covered : ∀ n < s.log.length, n ∈ s.cached ∨
    ∃ call ∈ s.calls, ∃ c, call.appended = some (n,c)
  stored : ∃ r closed last, Keeps root cfg s.handler.store s.disk r ∧ r.Tiles ∅ closed last ∧
    Bounded (capacity cfg) (closed++[last]) ∧ closed.flatten++last = commitLog s.log

theorem step_append_cases {s s' : State} {i : ℕ} (h : step s (.append i) = some s') :
    ∃ c todo err bs d, s.calls[i]? = some ⟨c::todo,none⟩ ∧
      appendCommit c s.handler.store s.disk = (err,bs,d) ∧
      s' = {s with
        handler := {s.handler with store := bs}
        disk := d
        calls := s.calls.set i ⟨todo,if err = none then some (s.log.length,c) else none⟩
        log := if err = none then s.log++[c] else s.log} := by
  unfold step at h
  simp only at h
  split at h
  · rename_i c todo hc
    rcases ha : appendCommit c s.handler.store s.disk with ⟨err,bs,d⟩
    rw [ha] at h
    cases err with
    | none => exact ⟨c,todo,none,bs,d,hc,ha,by simpa using (Option.some_inj.mp h).symm⟩
    | some e => exact ⟨c,todo,some e,bs,d,hc,ha,by simpa using (Option.some_inj.mp h).symm⟩
  · cases h

theorem step_cache_cases {s s' : State} {i : ℕ} (h : step s (.cache i) = some s') :
    ∃ todo n c, s.calls[i]? = some ⟨todo,some (n,c)⟩ ∧
      s' = {s with
        handler := {s.handler with offsetCache := cacheCommit c s.handler.offsetCache}
        calls := s.calls.set i ⟨todo,none⟩
        cached := n::s.cached} := by
  unfold step at h
  simp only at h
  split at h
  · rename_i todo n c hc
    exact ⟨todo,n,c,hc,(Option.some_inj.mp h).symm⟩
  · cases h

section Sequential
variable {s t : State} {i : ℕ} {todo rest : List Commit} {h h' : Handler} {d d' : Disk}

/-- One call alone comes to its later commits, with this effect. -/
def Reaches (s : State) (i : ℕ) (todo : List Commit) (h : Handler) (d : Disk) : Prop :=
  ∃ es t, run s es = some t ∧ t.calls = s.calls.set i ⟨todo,none⟩ ∧ t.handler = h ∧ t.disk = d

theorem run_trans {es es' : List Event} {u : State} (a : run s es = some t)
    (b : run t es' = some u) : run s (es++es') = some u := by
  induction es generalizing s with
  | nil =>
      obtain rfl := Option.some_inj.mp a
      exact b
  | cons e es ih =>
      rw [run] at a
      rw [List.cons_append,run]
      cases he : step s e with
      | none => simp [he] at a
      | some v =>
          simp only [he] at a ⊢
          exact ih a

theorem Reaches.refl (hi : s.calls[i]? = some ⟨todo,none⟩) :
    Reaches s i todo s.handler s.disk := by
  obtain ⟨hlt,hget⟩ := List.getElem?_eq_some_iff.mp hi
  refine ⟨[],s,rfl,?_,rfl,rfl⟩
  rw [← hget,List.set_getElem_self]

theorem Reaches.trans (hi : i < s.calls.length) (a : Reaches s i todo h d)
    (b : ∀ t : State, t.calls[i]? = some ⟨todo,none⟩ → t.handler = h → t.disk = d →
      Reaches t i rest h' d') : Reaches s i rest h' d' := by
  obtain ⟨es,t,hr,hc,hh,hd⟩ := a
  have hi' : t.calls[i]? = some ⟨todo,none⟩ := by
    rw [hc]
    exact List.getElem?_set_self hi
  obtain ⟨es',u,hr',hc',hh',hd'⟩ := b t hi' hh hd
  exact ⟨es++es',u,run_trans hr hr',by rw [hc',hc,List.set_set],hh',hd'⟩

/-- A commit is its append and, unless that failed, its update of the cache. -/
theorem commitPartition_reaches {c : Commit} {resp : OffsetCommitPartitionResponse}
    (hi : s.calls[i]? = some ⟨c::todo,none⟩)
    (hc : commitPartition c s.handler s.disk = (resp,h,d)) : Reaches s i todo h d := by
  have hlt := (List.getElem?_eq_some_iff.mp hi).1
  rcases ha : appendCommit c s.handler.store s.disk with ⟨err,bs,e⟩
  rw [commitPartition,ha] at hc
  cases err with
  | some x =>
      obtain ⟨-,hs⟩ := Prod.mk.inj hc
      obtain ⟨rfl,rfl⟩ := Prod.mk.inj hs
      have hrun : run s [.append i] = some {s with
          handler := {s.handler with store := bs}
          disk := e
          calls := s.calls.set i ⟨todo,none⟩} := by simp only [run,step,hi,ha]
      exact ⟨_,_,hrun,rfl,rfl,rfl⟩
  | none =>
      obtain ⟨-,hs⟩ := Prod.mk.inj hc
      obtain ⟨rfl,rfl⟩ := Prod.mk.inj hs
      have hrun : run s [.append i,.cache i] = some {s with
          handler := ⟨cacheCommit c s.handler.offsetCache,bs⟩
          disk := e
          calls := (s.calls.set i ⟨todo,some (s.log.length,c)⟩).set i ⟨todo,none⟩
          log := s.log++[c]
          cached := s.log.length::s.cached} := by
        simp only [run,step,hi,ha,List.getElem?_set_self hlt]
      exact ⟨_,_,hrun,List.set_set _,rfl,rfl⟩

theorem commitPartitions_reaches {groupID topicName : WireString}
    {parts : List OffsetCommitPartition} {resps : List OffsetCommitPartitionResponse}
    (hi : s.calls[i]? = some ⟨topicCommits groupID ⟨topicName,parts⟩++todo,none⟩)
    (hc : commitPartitions groupID topicName parts s.handler s.disk = (resps,h,d)) :
    Reaches s i todo h d := by
  induction parts generalizing s resps with
  | nil =>
      obtain ⟨-,hs⟩ := Prod.mk.inj hc
      obtain ⟨rfl,rfl⟩ := Prod.mk.inj hs
      exact .refl hi
  | cons part parts ih =>
      rcases h₁ : commitPartition ⟨groupID,topicName,part.partition,part.committedOffset⟩
        s.handler s.disk with ⟨resp,h',d'⟩
      rcases h₂ : commitPartitions groupID topicName parts h' d' with ⟨resps',h'',d''⟩
      simp only [commitPartitions,h₁,h₂] at hc
      obtain ⟨-,hs⟩ := Prod.mk.inj hc
      obtain ⟨rfl,rfl⟩ := Prod.mk.inj hs
      refine (commitPartition_reaches hi h₁).trans (List.getElem?_eq_some_iff.mp hi).1 ?_
      rintro t ht rfl rfl
      exact ih ht h₂

theorem commitTopics_reaches {groupID : WireString} {topics : List OffsetCommitTopic}
    {resps : List OffsetCommitTopicResponse}
    (hi : s.calls[i]? = some ⟨topics.flatMap (topicCommits groupID)++todo,none⟩)
    (hc : commitTopics groupID topics s.handler s.disk = (resps,h,d)) :
    Reaches s i todo h d := by
  induction topics generalizing s resps with
  | nil =>
      obtain ⟨-,hs⟩ := Prod.mk.inj hc
      obtain ⟨rfl,rfl⟩ := Prod.mk.inj hs
      exact .refl hi
  | cons topic topics ih =>
      rcases h₁ : commitPartitions groupID topic.topicName topic.partitions s.handler s.disk with
        ⟨parts,h',d'⟩
      rcases h₂ : commitTopics groupID topics h' d' with ⟨resps',h'',d''⟩
      simp only [commitTopics,h₁,h₂] at hc
      obtain ⟨-,hs⟩ := Prod.mk.inj hc
      obtain ⟨rfl,rfl⟩ := Prod.mk.inj hs
      rw [List.flatMap_cons,List.append_assoc] at hi
      refine (commitPartitions_reaches hi h₁).trans (List.getElem?_eq_some_iff.mp hi).1 ?_
      rintro t ht rfl rfl
      exact ih ht h₂

/-- Handling a request without interruption is one of the runs. -/
theorem handleOffsetCommit_run (s : State) (req : OffsetCommitRequest)
    {resps : List OffsetCommitTopicResponse}
    (hc : handleOffsetCommit req s.handler s.disk = (resps,h,d)) :
    ∃ es t, run s (.request req::es) = some t ∧ t.calls = s.calls++[⟨[],none⟩] ∧
      t.handler = h ∧ t.disk = d := by
  have hi : (s.calls++[⟨commits req,none⟩])[s.calls.length]? =
      some (⟨commits req++[],none⟩ : Call) := by simp
  obtain ⟨es,t,hr,hcalls,hh,hd⟩ := commitTopics_reaches
    (s := {s with calls := s.calls++[⟨commits req,none⟩]}) hi hc
  refine ⟨es,t,hr,?_,hh,hd⟩
  rw [hcalls]
  simp

end Sequential

section Invariant
variable {root : List Bytes} {cfg : SegmentConfig} {s s' : State}

/-- Replacing one call keeps the others. -/
theorem mem_set_of_ne {calls : List Call} {i : ℕ} {old call : Call} (hi : calls[i]? = some old)
    (hc : call ∈ calls) (hne : call ≠ old) (x : Call) : call ∈ calls.set i x := by
  obtain ⟨j,hj⟩ := List.mem_iff_getElem?.mp hc
  have hij : i ≠ j := by
    rintro rfl
    exact hne (Option.some_inj.mp (hj.symm.trans hi))
  exact List.mem_of_getElem? ((List.getElem?_set_ne hij).trans hj)

theorem mem_set_self {calls : List Call} {i : ℕ} {old : Call} (hi : calls[i]? = some old)
    (x : Call) : x ∈ calls.set i x :=
  List.mem_set (List.getElem?_eq_some_iff.mp hi).1 x

theorem start_inv (cfg : SegmentConfig) {d : Disk} (hf : Fresh root d) :
    Inv root cfg (start ⟨root,cfg,∅⟩ d) where
  position := fun _ hc => (List.not_mem_nil hc).elim
  covered := fun _ hn => (Nat.not_lt_zero _ hn).elim
  stored := ⟨_,[],[],.unopened hf,.empty,by simp [Bounded],rfl⟩

theorem request_inv (h : Inv root cfg s) (req : OffsetCommitRequest) :
    Inv root cfg {s with calls := s.calls++[⟨commits req,none⟩]} where
  position := fun call hc n c ha => by
    rcases List.mem_append.mp hc with hc|hc
    · exact h.position call hc n c ha
    · rw [List.mem_singleton.mp hc] at ha
      cases ha
  covered := fun n hn => by
    rcases h.covered n hn with hc|⟨call,hc,c,ha⟩
    · exact .inl hc
    · exact .inr ⟨call,List.mem_append_left _ hc,c,ha⟩
  stored := h.stored

/-- A call that is between commits is not the one that covers a position. -/
theorem covered_of_set {i n : ℕ} {old x : Call} (hi : s.calls[i]? = some old)
    (ho : old.appended = none)
    (h : n ∈ s.cached ∨ ∃ call ∈ s.calls, ∃ c, call.appended = some (n,c)) :
    n ∈ s.cached ∨ ∃ call ∈ s.calls.set i x, ∃ c, call.appended = some (n,c) := by
  rcases h with h|⟨call,hc,c,ha⟩
  · exact .inl h
  · refine .inr ⟨call,mem_set_of_ne hi hc ?_ x,c,ha⟩
    rintro rfl
    rw [ho] at ha
    cases ha

theorem append_inv (h : Inv root cfg s) {i : ℕ} (hs : step s (.append i) = some s') :
    Inv root cfg s' := by
  obtain ⟨c,todo,err,bs,d,hi,ha,rfl⟩ := step_append_cases hs
  obtain ⟨r,closed,last,hk,ht,hb,hlog⟩ := h.stored
  obtain ⟨err',bs',d',ha',herr,hk'⟩ := hk.appendCommit c
  obtain ⟨rfl,hbd⟩ := Prod.mk.inj (ha.symm.trans ha')
  obtain ⟨rfl,rfl⟩ := Prod.mk.inj hbd
  obtain ⟨closed',last',ht',hb',hlog'⟩ := ht.append (capacity cfg) (frame c.record)
  simp only [← herr,hlog] at hlog'
  cases err with
  | some e =>
      refine ⟨fun call hc n c' hn => ?_,
        fun n hn => covered_of_set hi rfl (h.covered n hn),_,closed',last',hk',ht',hb' hb,?_⟩
      · rcases List.mem_or_eq_of_mem_set hc with hc|rfl
        · exact h.position call hc n c' hn
        · simp at hn
      · simpa using hlog'
  | none =>
      refine ⟨fun call hc n c' hn => ?_,fun n hn => ?_,_,closed',last',hk',ht',hb' hb,?_⟩
      · simp only [if_true]
        rcases List.mem_or_eq_of_mem_set hc with hc|rfl
        · have hlt := h.position call hc n c' hn
          rw [List.getElem?_append_left (List.getElem?_eq_some_iff.mp hlt).1]
          exact hlt
        · simp only [if_true,Option.some_inj,Prod.mk.injEq] at hn
          obtain ⟨rfl,rfl⟩ := hn
          simp
      · simp only [if_true,List.length_append,List.length_singleton] at hn
        rcases Nat.lt_succ_iff_lt_or_eq.mp hn with hn|rfl
        · exact covered_of_set hi rfl (h.covered n hn)
        · exact .inr ⟨_,mem_set_self hi _,c,rfl⟩
      · simpa [commitLog] using hlog'

theorem cache_inv (h : Inv root cfg s) {i : ℕ} (hs : step s (.cache i) = some s') :
    Inv root cfg s' := by
  obtain ⟨todo,n,c,hi,rfl⟩ := step_cache_cases hs
  refine ⟨fun call hc m c' hm => ?_,fun m hm => ?_,h.stored⟩
  · rcases List.mem_or_eq_of_mem_set hc with hc|rfl
    · exact h.position call hc m c' hm
    · cases hm
  · by_cases hmn : m = n
    · exact .inl (List.mem_cons.mpr (.inl hmn))
    · rcases h.covered m hm with hc|⟨call,hc,c',ha⟩
      · exact .inl (List.mem_cons_of_mem _ hc)
      · refine .inr ⟨call,mem_set_of_ne hi hc ?_ _,c',ha⟩
        rintro rfl
        exact hmn (congrArg Prod.fst (Option.some_inj.mp ha)).symm

theorem step_inv (h : Inv root cfg s) {e : Event} (hs : step s e = some s') : Inv root cfg s' := by
  cases e with
  | request req =>
      obtain rfl := Option.some_inj.mp hs
      exact request_inv h req
  | append i => exact append_inv h hs
  | cache i => exact cache_inv h hs

/-- An event in order keeps the cache at the latest cached commits. -/
theorem step_current (h : Inv root cfg s) (hb : (board s).Current) {e : Event}
    (hs : step s e = some s') (ho : InOrder s e) : (board s').Current := by
  cases e with
  | request req =>
      obtain rfl := Option.some_inj.mp hs
      exact hb
  | append i =>
      obtain ⟨c,todo,err,bs,d,-,-,rfl⟩ := step_append_cases hs
      cases err with
      | some e => exact hb
      | none =>
          have hcur := hb.append c.write
          simpa [board,Board.append] using hcur
  | cache i =>
      obtain ⟨todo,n,c,hi,rfl⟩ := step_cache_cases hs
      have hn : s.log[n]? = some c := h.position _ (List.mem_of_getElem? hi) n c rfl
      refine hb.publish (i := n) (w := c.write) (by simp [board,hn]) ?_
      rintro ⟨m,w,hlt,⟨hw,hmem⟩,hkey⟩
      obtain ⟨c',hc',rfl⟩ : ∃ c', s.log[m]? = some c' ∧ c'.write = w := by
        simpa [board] using hw
      exact ho _ hi _ rfl m hmem hlt c' hc' hkey

theorem run_cons_some {e : Event} {es : List Event} (h : run s (e::es) = some s') :
    ∃ t, step s e = some t ∧ run t es = some s' := by
  rw [run] at h
  cases he : step s e with
  | none => simp [he] at h
  | some t => exact ⟨t,rfl,by simpa [he] using h⟩

theorem run_inv (h : Inv root cfg s) {es : List Event} (hr : run s es = some s') :
    Inv root cfg s' := by
  induction es generalizing s with
  | nil =>
      obtain rfl := Option.some_inj.mp hr
      exact h
  | cons e es ih =>
      obtain ⟨t,he,ht⟩ := run_cons_some hr
      exact ih (step_inv h he) ht

theorem run_current (h : Inv root cfg s) (hb : (board s).Current) {es : List Event}
    (hr : run s es = some s') (ho : AllInOrder s es) : (board s').Current := by
  induction es generalizing s with
  | nil =>
      obtain rfl := Option.some_inj.mp hr
      exact hb
  | cons e es ih =>
      obtain ⟨t,he,ht⟩ := run_cons_some hr
      exact ih (step_inv h he) (step_current h hb he ho.1) ht (ho.2 t he)

/-- The log of the disk holds the records of the appended commits. -/
theorem Inv.logged (h : Inv root cfg s) : Logged s (s.log.map Commit.record) := by
  obtain ⟨r,closed,last,hk,ht,hb,hlog⟩ := h.stored
  rw [commitLog] at hlog
  rcases s with ⟨⟨cache,bs⟩,d,calls,log,cached⟩
  cases hk with
  | unopened hf =>
      have hc : closed = [] := ht.closed_eq_nil rfl
      have hl : last = [] := ht.active.symm
      subst hc hl
      refine .inl ⟨rfl,?_⟩
      cases log with
      | nil => rfl
      | cons c cs =>
          have hn := congrArg List.length hlog
          simp only [List.flatten_nil,List.append_nil,List.length_nil,List.map_cons,
            frames_length_cons] at hn
          omega
  | @opened stores ps _ _ hs hf hdir hcfg hroot hsub =>
      have htiled := tiled_of_tiles hf ht (by rw [hcfg]; exact hb)
      rw [hlog] at htiled
      exact .inr ⟨ps,_,lookup_of_entries hs,htiled⟩

theorem replayRecords_record (cs : List Commit) :
    replayRecords (cs.map Commit.record) = replay (fun _ => none) (cs.map Commit.write) := by
  have hd : (fun p => (decodeOffsetRecord p).toOption) ∘ Commit.record =
      fun c => some c.write := by
    funext c
    rw [Function.comp_apply,decodeOffsetRecord_record]
    rfl
  rw [replayRecords,List.filterMap_map,hd,List.filterMap_eq_map']

end Invariant

/-- In every run in which no commit is cached after a later one for its key, the
cache is the replay of the log whenever no call is in progress. -/
theorem cache_replays_log (root : List Bytes) (cfg : SegmentConfig) (d : Disk)
    (hf : Fresh root d) :
    ∃ bs, openBrokerStore root cfg d = (.ok bs,d) ∧
      ∀ es s, run (start bs d) es = some s → AllInOrder (start bs d) es → Quiescent s →
        ∃ payloads, Logged s payloads ∧ s.handler.offsetCache = replayRecords payloads := by
  refine ⟨⟨root,cfg,∅⟩,openBrokerStore_fresh hf cfg,fun es s hr ho hq => ?_⟩
  have hs := start_inv cfg hf
  have hinv := run_inv hs hr
  have hcur := run_current hs Board.empty_current hr ho
  refine ⟨s.log.map Commit.record,hinv.logged,?_⟩
  rw [replayRecords_record]
  refine hcur.eq_replay fun n hn => ?_
  rw [board,List.length_map] at hn
  rcases hinv.covered n hn with hc|⟨call,hcall,c,ha⟩
  · exact hc
  · rw [(hq call hcall).2] at ha
    cases ha

/-- Two calls for one key overlap and are cached in log order. -/
theorem cache_replays_two_calls : ∃ s payloads,
    run (start ⟨[],⟨0⟩,∅⟩ emptyRoot) [.request (commitRequest 1),.request (commitRequest 2),
      .append 0,.append 1,.cache 0,.cache 1] = some s ∧
      Logged s payloads ∧ s.handler.offsetCache = replayRecords payloads := by
  obtain ⟨bs,ho,h⟩ := cache_replays_log [] ⟨0⟩ emptyRoot fresh_emptyRoot
  rw [openBrokerStore_fresh fresh_emptyRoot] at ho
  obtain rfl := Except.ok.inj (Prod.mk.inj ho).1
  have hrun : (run (start ⟨[],⟨0⟩,∅⟩ emptyRoot) [.request (commitRequest 1),
      .request (commitRequest 2),.append 0,.append 1,.cache 0,.cache 1]).isSome := by
    decide +kernel
  have hq : ∀ s ∈ run (start ⟨[],⟨0⟩,∅⟩ emptyRoot) [.request (commitRequest 1),
      .request (commitRequest 2),.append 0,.append 1,.cache 0,.cache 1], Quiescent s := by
    decide +kernel
  obtain ⟨s,hs⟩ := Option.isSome_iff_exists.mp hrun
  obtain ⟨payloads,hl,hc⟩ := h _ s hs (by decide +kernel) (hq s hs)
  exact ⟨s,payloads,hs,hl,hc⟩

/-- The key of the commits that `commitRequest` makes. -/
def requestKey : OffsetCacheKey := ⟨ascii "g",ascii "t",0⟩

/-- Two calls for one key append in one order and cache in the other: the cache
keeps offset one and the last record of the log has offset two. -/
theorem cache_misses_last_record : ∃ s payloads,
    run (start ⟨[],⟨0⟩,∅⟩ emptyRoot) [.request (commitRequest 1),.request (commitRequest 2),
      .append 0,.append 1,.cache 1,.cache 0] = some s ∧ Quiescent s ∧ Logged s payloads ∧
      s.handler.offsetCache requestKey = some 1 ∧ replayRecords payloads requestKey = some 2 ∧
      s.handler.offsetCache ≠ replayRecords payloads := by
  have hrun : (run (start ⟨[],⟨0⟩,∅⟩ emptyRoot) [.request (commitRequest 1),
      .request (commitRequest 2),.append 0,.append 1,.cache 1,.cache 0]).isSome := by
    decide +kernel
  have hobs : ∀ s ∈ run (start ⟨[],⟨0⟩,∅⟩ emptyRoot) [.request (commitRequest 1),
      .request (commitRequest 2),.append 0,.append 1,.cache 1,.cache 0],
      Quiescent s ∧ s.handler.offsetCache requestKey = some 1 ∧
        replayRecords (s.log.map Commit.record) requestKey = some 2 := by
    decide +kernel
  obtain ⟨s,hs⟩ := Option.isSome_iff_exists.mp hrun
  obtain ⟨hq,hc,hr⟩ := hobs s hs
  refine ⟨s,_,hs,hq,(run_inv (start_inv _ fresh_emptyRoot) hs).logged,hc,hr,fun he => ?_⟩
  rw [he,hr] at hc
  exact absurd hc (by decide)

end Kage.OffsetConcurrency
