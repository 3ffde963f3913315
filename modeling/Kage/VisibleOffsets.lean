import Kage.ConcurrentClients

/-!
# Which committed offsets a client sees

A commit goes to the log first and to the cache afterwards, and other clients
come in between. An offset fetch looks at the cache once, under its lock, so all
its answers belong to one moment: they are those of the map of all commits that
had reached the cache by then. Each of these commits has its record in the log of
offsets already. A client whose connection has ended has put into the cache what
its responses acknowledge and nothing else, so an acknowledged commit is seen by
every later fetch until it is overwritten.
-/
namespace Kage.VisibleOffsets
open ByteStrings LengthPrefixed FaultyDisk SegmentLog PartitionLog BrokerStores OffsetRecords
open OffsetHandlers RequestParsers RequestHandlers AtomicPrograms BrokerPrograms BrokerLedger
open LedgerJournal ClientSessions AcknowledgedRecords RequestEncodings OffsetStorage
open ConcurrentClients (Ordinary Broker connections trace exec_ledger exec_served own_sublist send
  ordinary_send)

/-- A commit that reached the cache. -/
def cached : BrokerEvent → Option Commit
  | ⟨.cache c,_⟩ => some c
  | _ => none

/-- The cache after these calls. -/
def cacheAfter (cache : OffsetCache) (es : List BrokerEvent) : OffsetCache :=
  (es.filterMap cached).foldl (fun cache c => cacheCommit c cache) cache

/-- The record of a commit is in the log of offsets. -/
def Recorded (s : Ledger) (c : Commit) : Prop :=
  ∃ base offset, window (s.content (partitionKey ConsumerOffsetsTopic 0) base) offset
    (frame c.record).length = frame c.record

/-! ## Commits are logged before they are cached -/

/-- A commit goes to the cache only after its record was appended. -/
def Logged (past : List BrokerEvent) : Op → Prop
  | .cache c => ∃ offset, ⟨.append ConsumerOffsetsTopic 0 c.record,.ok offset⟩ ∈ past
  | _ => True

theorem commitPartition_heeds (c : Commit) (past : List BrokerEvent) :
    (commitPartitionProgram c).Heeds Logged past := by
  refine Program.closed_heeds.bind (fun past => ?_) (fun r past => ?_) past
  · have hcalls : (getOrCreatePartitionProgram ConsumerOffsetsTopic 0).Calls
        (Touches (fun _ => True) (fun _ => False) False) := getOrCreate_calls trivial 0
    refine hcalls.heeds (fun o past ho => ?_) past
    cases o <;> trivial
  · cases r with
    | some e => trivial
    | none =>
        refine ⟨trivial,fun result => ?_⟩
        cases result with
        | error e => trivial
        | ok o => exact ⟨⟨o,by simp⟩,fun _ => trivial⟩

theorem forEach_closed {α β : Type} {Q : (α : Type) → BrokerProgram α → Prop}
    (hQ : Program.Closed Q) {f : α → BrokerProgram (Option β)} (h : ∀ a, Q _ (f a))
    (as : List α) : Q _ (forEach f as) := by
  induction as with
  | nil => exact hQ.done _
  | cons a as ih =>
      refine hQ.bind (h a) fun b => ?_
      cases b with
      | none => exact hQ.done _
      | some b => exact hQ.bind ih fun _ => hQ.done _

theorem serve_heeds (r : Request) (past : List BrokerEvent) : (serve r).Heeds Logged past := by
  have hquiet (hc : ¬Caches r) : (serve r).Heeds Logged past := by
    refine (serve_calls r).heeds (fun o past ho => ?_) past
    cases o <;> trivial
  have hQ : Program.Closed fun _ (p : BrokerProgram _) => ∀ past, p.Heeds Logged past :=
    Program.closed_heeds
  cases r with
  | offsetCommit req =>
      refine hQ.bind (forEach_closed hQ (fun topic => ?_) _) (fun _ => hQ.done _) past
      exact hQ.bind (forEach_closed hQ (fun part => commitPartition_heeds _) _) fun _ => hQ.done _
  | _ => exact hquiet id

/-- In every interleaving the calls before a commit reaches the cache include the
append of its record. -/
theorem trace_logged {ι : Type*} [DecidableEq ι] {advertisedHost : Bytes}
    {inputs : ι → Bytes × Socket} {b : Shared} {schedule : List ι} {fs gs : List BrokerEvent}
    {e : BrokerEvent} (h : trace (connections advertisedHost inputs b) schedule = fs++e::gs) :
    Logged fs e.op := by
  obtain ⟨ys,zs',hx,hys,hz⟩ := List.map_eq_append_iff.mp h
  obtain ⟨⟨i,e'⟩,zs,rfl,rfl,-⟩ := List.map_eq_cons_iff.mp hz
  have hall (i : ι) : ((connections advertisedHost inputs b).threads i).Heeds Logged [] :=
    connection_holds Program.closed_heeds (fun x _ => serve_heeds x.2) _ []
  have hlog := exec_heeds respond (connections advertisedHost inputs b) hall schedule hx
  rcases e' with ⟨o,reply⟩
  cases o <;> try trivial
  obtain ⟨offset,hm⟩ := hlog
  exact ⟨offset,hys ▸ (own_sublist i ys).subset hm⟩

/-! ## What the responses tell -/

/-- The commits that a response acknowledges. -/
def Commits : Request → Response → List Commit → Prop
  | .offsetCommit req,.offsetCommit topics,l => Each (fun topic tresp l =>
      tresp.topicName = topic.topicName ∧
      Each (fun part presp l => presp.partition = part.partition ∧
        l = if presp.errorCode = 0 then [⟨req.request.groupID,topic.topicName,part.partition,
          part.committedOffset⟩] else []) topic.partitions tresp.partitions l)
      req.request.topics topics l
  | _,_,l => l = []

section
variable {es l : List BrokerEvent}

theorem cached_of_quiet {α : Type} {names writing : Bytes → Prop} {p q : BrokerProgram α}
    (h : Path p es q) (hp : p.Calls (Touches names writing False)) :
    es.filterMap cached = [] := by
  refine List.filterMap_eq_nil_iff.mpr fun e he => ?_
  have hop := (h.allowed hp).1 e he
  rcases e with ⟨o,r⟩
  cases o <;> first | rfl | exact hop.elim

theorem commitPartition_cached {c : Commit} {resp : OffsetCommitPartitionResponse}
    (h : Path (commitPartitionProgram c) es (.done (some resp))) :
    resp.partition = c.partition ∧
      es.filterMap cached = if resp.errorCode = 0 then [c] else [] := by
  obtain ⟨r,fs,gs,rfl,hfs,hgs⟩ := Path.of_bind h
  have hcalls : (getOrCreatePartitionProgram ConsumerOffsetsTopic 0).Calls
      (Touches (fun _ => True) (fun _ => True) False) := getOrCreate_calls trivial 0
  have hquiet := cached_of_quiet hfs hcalls
  rw [List.filterMap_append,hquiet,List.nil_append]
  cases r with
  | some e =>
      obtain ⟨rfl,hd⟩ := Path.of_done hgs
      cases hd
      exact ⟨rfl,rfl⟩
  | none =>
      obtain ⟨result,hs,rfl,hr⟩ := Path.of_perform hgs
      cases result with
      | error e =>
          obtain ⟨rfl,hd⟩ := Path.of_done hr
          cases hd
          exact ⟨rfl,rfl⟩
      | ok o =>
          obtain ⟨u,us,rfl,hu⟩ := Path.of_call hr
          obtain ⟨rfl,hd⟩ := Path.of_done hu
          cases hd
          exact ⟨rfl,rfl⟩

theorem serve_commits {r : Request} {resp : Response}
    (h : Path (serve r) es (.done (some resp))) : Commits r resp (es.filterMap cached) := by
  have hquiet (hc : ¬Caches r) : es.filterMap cached = [] :=
    cached_of_quiet h ((serve_calls r).mono fun o ho => by
      cases o <;> first | exact ho | exact (hc ho).elim)
  cases r with
  | offsetCommit req =>
      obtain ⟨out,hout,hmap⟩ := Path.of_map h
      obtain ⟨topics,rfl,rfl⟩ := Option.map_eq_some_iff.mp hmap
      refine (forEach_path hout).filterMap fun topic tresp fs ht => ?_
      obtain ⟨parts',hp,hmap⟩ := Path.of_map ht
      obtain ⟨parts,rfl,rfl⟩ := Option.map_eq_some_iff.mp hmap
      exact ⟨rfl,(forEach_path hp).filterMap fun _ _ _ => commitPartition_cached⟩
  | _ => exact hquiet id

end

/-! ## The cache as a map -/

section
variable {cfg : SegmentConfig} {s t u : Ledger} {es l : List BrokerEvent}

theorem step_offsets {o : Op} {reply : Op.Reply o} (h : Ledger.Step cfg s o reply t) :
    t.offsets = cacheAfter s.offsets [⟨o,reply⟩] := by
  cases o with
  | append topic partition data =>
      have h : s.Append cfg (partitionKey topic partition) data reply t := h
      unfold Ledger.Append at h
      split at h
      · rw [h.2]
        rfl
      · obtain ⟨-,written,rfl,-⟩ := h
        rfl
  | read topic partition o n =>
      have h : s.Read topic partition o n reply t := h
      simp only [Ledger.Read] at h
      split at h
      · rw [h.2]
        rfl
      · split at h
        · rw [h.2]
          rfl
        · rw [h.2]
          rfl
  | create topic partition =>
      obtain ⟨-,rfl⟩ := h
      unfold Ledger.create
      split <;> rfl
  | cache c =>
      obtain rfl : t = _ := h
      rfl
  | find | size | readFull | topics | offsets =>
      obtain ⟨-,rfl⟩ := h
      rfl

theorem runs_offsets (h : Runs (Ledger.Step cfg) s es t) :
    t.offsets = cacheAfter s.offsets es := by
  induction h with
  | nil s => rfl
  | @cons s t u o r es hs _ ih =>
      rw [ih,step_offsets hs,cacheAfter,cacheAfter,cacheAfter,← List.foldl_append,
        ← List.filterMap_append]
      rfl

/-- When commits are logged before they are cached, the records of the cached ones
were accepted. -/
theorem accepted_of_cached (hlogged : ∀ fs e gs, es = fs++e::gs → Logged fs e.op) {c : Commit}
    (hc : c ∈ es.filterMap cached) :
    ∃ offset, (⟨ConsumerOffsetsTopic,0,c.record,offset⟩ : Accepted) ∈ es.filterMap accepted := by
  obtain ⟨e,he,hec⟩ := List.mem_filterMap.mp hc
  obtain ⟨fs,gs,rfl⟩ := List.append_of_mem he
  have hlog := hlogged fs e gs rfl
  rcases e with ⟨o,reply⟩
  cases o <;> cases hec
  obtain ⟨offset,hmem⟩ := hlog
  exact ⟨offset,List.mem_filterMap.mpr ⟨_,List.mem_append_left _ hmem,rfl⟩⟩

theorem runs_recorded (h : Runs (Ledger.Step cfg) s es t)
    (hlogged : ∀ fs e gs, es = fs++e::gs → Logged fs e.op) :
    ∀ c ∈ es.filterMap cached, Recorded t c := by
  intro c hc
  obtain ⟨offset,hm⟩ := accepted_of_cached hlogged hc
  obtain ⟨as,has,hj⟩ := runs_journal h
  rw [← has] at hm
  obtain ⟨⟨a,base⟩,ha,rfl⟩ := List.mem_map.mp hm
  exact ⟨base,_,hj.window ha⟩

/-- The answers of an offset fetch are those of the map at one moment, whose
commits are in the log. -/
def Sees (cfg : SegmentConfig) (s t : Ledger) (es : List BrokerEvent) : Request → Response → Prop
  | .offsetFetch req,.offsetFetch resps => ∃ u fs gs, es = fs++gs ∧
      Runs (Ledger.Step cfg) s fs u ∧ Runs (Ledger.Step cfg) u gs t ∧
      resps = handleOffsetFetch req ⟨cacheAfter s.offsets fs,⟨[],cfg,∅⟩⟩ ∧
      ∀ c ∈ fs.filterMap cached, Recorded u c
  | _,_ => True

theorem serve_sees {r : Request} {resp : Response} (h : Path (serve r) l (.done (some resp)))
    (hl : l.Sublist es) (hruns : Runs (Ledger.Step cfg) s es t)
    (hlogged : ∀ fs e gs, es = fs++e::gs → Logged fs e.op) : Sees cfg s t es r resp := by
  cases r with
  | offsetFetch req =>
      obtain ⟨resps,hout,hmap⟩ := Path.of_map h
      cases hmap
      obtain ⟨reply,fs,rfl,hd⟩ := Path.of_call hout
      obtain ⟨rfl,hd⟩ := Path.of_done hd
      cases hd
      obtain ⟨u,u',fs,gs,rfl,-,hfs,hstep,hgs⟩ := hruns.pick hl
      refine ⟨u,fs,_::gs,rfl,hfs,.cons hstep hgs,?_,fun c hc => ?_⟩
      · rw [← runs_offsets hfs]
        exact hstep.1
      · exact runs_recorded hfs (fun fs₁ e fs₂ he => hlogged fs₁ e (fs₂++_) (by
          rw [he,List.append_assoc]; rfl)) c hc
  | _ => trivial

end

/-- In every interleaving a client whose connection has ended has seen, in each
offset fetch, the map of the commits that had reached the cache at one moment,
all of them logged by then, and has put into the cache what its responses
acknowledge. -/
theorem visible_offsets_are_logged {ι : Type*} [DecidableEq ι] {root : List Bytes}
    {cfg : SegmentConfig} {b : Shared} {s : Ledger} (hb : Represents root cfg b s)
    (advertisedHost : Bytes) (inputs : ι → Bytes × Socket) (hn : Ordinary inputs)
    (schedule : List ι) :
    ∃ t, Runs (Ledger.Step cfg) s (trace (connections advertisedHost inputs b) schedule) t ∧
      Represents root cfg
        ((connections advertisedHost inputs b).exec respond schedule).2.state t ∧
      ∀ i k, ((connections advertisedHost inputs b).exec respond schedule).2.threads i =
          .done (some k) →
        ∃ n resps, Served advertisedHost (requests (inputs i).1) (inputs i).2
            (own i ((connections advertisedHost inputs b).exec respond schedule).1) k n resps ∧
          List.Forall₂ (Sees cfg s t (trace (connections advertisedHost inputs b) schedule))
            (((requests (inputs i).1).take n).map Prod.snd) resps ∧
          Each Commits (((requests (inputs i).1).take n).map Prod.snd) resps
            ((own i ((connections advertisedHost inputs b).exec respond schedule).1).filterMap
              cached) := by
  obtain ⟨t,hruns,ht⟩ := exec_ledger hb hn schedule
  refine ⟨t,hruns,ht,fun i k hk => ?_⟩
  obtain ⟨n,resps,hs⟩ := exec_served hk
  refine ⟨n,resps,hs,hs.each.forall₂ fun r resp l hl hp => ?_,
    hs.each.filterMap fun _ _ _ => serve_commits⟩
  refine serve_sees hp (hl.trans (own_sublist i _)) hruns fun fs e gs he => ?_
  exact trace_logged he

/-- A group commits offset five of a partition. -/
def commitFive : Call where
  apiVersion := 2
  correlationID := 1
  clientID := none
  request := .offsetCommit ⟨aGroup,0,emptyString,0,[⟨aTopic,[⟨⟨0,5⟩,emptyString⟩]⟩]⟩
  body := writeOffsetCommitRequest ⟨aGroup,0,emptyString,0,[⟨aTopic,[⟨⟨0,5⟩,emptyString⟩]⟩]⟩
    [(aTopic,[(⟨0,5⟩,none)])]
  encoded := ⟨by simp [InRange],[(aTopic,[(⟨0,5⟩,none)])],rfl,rfl⟩

/-- The group asks for its offset. -/
def fetchOffset : Call where
  apiVersion := 1
  correlationID := 2
  clientID := none
  request := .offsetFetch ⟨aGroup,[⟨aTopic,[0]⟩]⟩
  body := writeOffsetFetchRequest ⟨aGroup,[⟨aTopic,[0]⟩]⟩
  encoded := ⟨by simp [InRange],rfl⟩

/-- One connection commits and the other asks. -/
def members (i : Bool) : Bytes × Socket := if i then send [commitFive] else send [fetchOffset]

theorem ordinary_members : Ordinary members := by
  intro i
  cases i with
  | true =>
      refine ordinary_send fun c hc topic ht => ?_
      obtain rfl := List.mem_singleton.mp hc
      obtain rfl : topic = ConsumerOffsetsTopic := ht
      unfold Single
      decide +kernel
  | false =>
      refine ordinary_send fun c hc topic ht => ?_
      obtain rfl := List.mem_singleton.mp hc
      exact ht.elim

theorem visible_offsets_are_logged_members :
    ∃ t, Runs (Ledger.Step ⟨0⟩) .blank (trace (connections [] members ConcurrentClients.empty)
        [true,true,true,true,false]) t ∧
      Represents [] ⟨0⟩ ((connections [] members ConcurrentClients.empty).exec respond
        [true,true,true,true,false]).2.state t ∧
      ∀ i k, ((connections [] members ConcurrentClients.empty).exec respond
          [true,true,true,true,false]).2.threads i = .done (some k) →
        ∃ n resps, Served [] (requests (members i).1) (members i).2
            (own i ((connections [] members ConcurrentClients.empty).exec respond
              [true,true,true,true,false]).1) k n resps ∧
          List.Forall₂ (Sees ⟨0⟩ .blank t (trace (connections [] members
              ConcurrentClients.empty) [true,true,true,true,false]))
            (((requests (members i).1).take n).map Prod.snd) resps ∧
          Each Commits (((requests (members i).1).take n).map Prod.snd) resps
            ((own i ((connections [] members ConcurrentClients.empty).exec respond
              [true,true,true,true,false]).1).filterMap cached) :=
  visible_offsets_are_logged ConcurrentClients.represents_empty [] members ordinary_members _

end Kage.VisibleOffsets
