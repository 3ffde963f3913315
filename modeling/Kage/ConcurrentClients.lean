import Kage.AcknowledgedRecords

/-!
# Clients served side by side

Any number of connections are served at once, each by a program of its own, in
any interleaving of their calls. Over a connection come any bytes. As long as the
requests that can be read from them name no topic with a separator, the broker
stays a ledger throughout: the calls in the order in which they were taken are a
run of it. The files have gained the accepted appends of all connections, each
once and whole, and the appends of a connection that has ended are those that its
responses tell of.
-/
namespace Kage.ConcurrentClients
open ByteStrings LengthPrefixed FaultyDisk SegmentLog PartitionLog BrokerStores OffsetRecords
open OffsetHandlers OffsetStorage RequestParsers RequestEncodings RequestHandlers PipelinedRequests
open AtomicPrograms BrokerPrograms BrokerLedger LedgerJournal ClientSessions AcknowledgedRecords

/-- No request that can be read names a topic that is more than one component of a
path. -/
def Ordinary {ι : Type*} (inputs : ι → Bytes × Socket) : Prop :=
  ∀ i, ∀ x ∈ requests (inputs i).1, ∀ topic, Names x.2 topic → Single topic

/-- Connections in the middle of being served, and what they share. -/
abbrev Broker (ι : Type*) := Pool ι Op Op.Reply (Option Socket) Shared

/-- Connections over which these bytes are sent are about to be served. -/
def connections {ι : Type*} (advertisedHost : Bytes) (inputs : ι → Bytes × Socket) (b : Shared) :
    Broker ι := ⟨fun i => connection advertisedHost (inputs i).1 (inputs i).2,b⟩

theorem serve_allowed {r : Request} (h : ∀ topic, Names r topic → Single topic) :
    (serve r).Calls Allowed := by
  refine (serve_calls r).mono fun o ho => ?_
  cases o with
  | create topic partition => exact h topic ho
  | _ => trivial

section
variable {ι : Type*} {root : List Bytes} {cfg : SegmentConfig} {b : Shared}
variable {s : Ledger} {advertisedHost : Bytes} {inputs : ι → Bytes × Socket}

theorem connections_allowed (hn : Ordinary inputs) (i : ι) :
    ((connections advertisedHost inputs b).threads i).Calls Allowed :=
  connection_holds (Program.closed_calls Allowed) (fun x hx => serve_allowed (hn i x hx)) _

variable [DecidableEq ι]

/-- The calls of all connections, in order. -/
def trace (c : Broker ι) (schedule : List ι) : List BrokerEvent :=
  (c.exec respond schedule).1.map Prod.snd

theorem trace_calls {P : Op → Prop}
    (h : ∀ i, ((connections advertisedHost inputs b).threads i).Calls P) {schedule : List ι}
    {e : BrokerEvent} (he : e ∈ trace (connections advertisedHost inputs b) schedule) :
    P e.op := by
  obtain ⟨x,hx,rfl⟩ := List.mem_map.mp he
  exact exec_allowed respond _ h schedule x hx

/-- The calls are a run of the ledger, whose end the broker is related to. -/
theorem exec_simulated {R : Shared → Ledger → Prop}
    (hR : Simulates R Allowed respond (Ledger.Step cfg)) (advertisedHost : Bytes) (hb : R b s)
    (hn : Ordinary inputs) (schedule : List ι) :
    ∃ t, Runs (Ledger.Step cfg) s (trace (connections advertisedHost inputs b) schedule) t ∧
      R ((connections advertisedHost inputs b).exec respond schedule).2.state t :=
  hR.exec _ hb (connections_allowed hn) schedule

theorem exec_ledger (hb : Represents root cfg b s) (hn : Ordinary inputs) (schedule : List ι) :
    ∃ t, Runs (Ledger.Step cfg) s (trace (connections advertisedHost inputs b) schedule) t ∧
      Represents root cfg
        ((connections advertisedHost inputs b).exec respond schedule).2.state t :=
  exec_simulated (represents_simulates root cfg) _ hb hn schedule

theorem exec_served {schedule : List ι} {i : ι} {k : Socket}
    (h : ((connections advertisedHost inputs b).exec respond schedule).2.threads i =
      .done (some k)) :
    ∃ n resps, Served advertisedHost (requests (inputs i).1) (inputs i).2
      (own i ((connections advertisedHost inputs b).exec respond schedule).1) k n resps := by
  have hp := exec_path respond (connections advertisedHost inputs b) schedule i
  rw [h] at hp
  exact connection_served hp

end

/-- The socket of a connection that has ended. -/
def ended {ι : Type*} (c : Broker ι) (i : ι) : Option Socket :=
  match c.threads i with
  | .done k => k
  | .call _ _ => none

theorem ended_eq_some {ι : Type*} {c : Broker ι} {i : ι} {k : Socket} (h : ended c i = some k) :
    c.threads i = .done (some k) := by
  unfold ended at h
  split at h
  · rename_i hk
    rw [hk,h]
  · cases h

/-- The calls of one connection are among those of all. -/
theorem own_sublist {ι : Type*} [DecidableEq ι] (i : ι) (es : List (ι × BrokerEvent)) :
    (own i es).Sublist (es.map Prod.snd) :=
  List.filter_sublist.map _

/-- Whatever the connections send and however they are interleaved, the files gain
the accepted appends, each whole and at the offset that was returned, and a
connection that has ended was answered an initial part of the requests that can be
read from its bytes, and has appended what these answers tell of and nothing
else. -/
theorem connections_account_for_files {ι : Type*} [DecidableEq ι] {root : List Bytes}
    {cfg : SegmentConfig} {b : Shared} {s : Ledger} (hb : Represents root cfg b s)
    (advertisedHost : Bytes) (inputs : ι → Bytes × Socket) (hn : Ordinary inputs)
    (schedule : List ι) :
    ∃ t as, Represents root cfg
        ((connections advertisedHost inputs b).exec respond schedule).2.state t ∧
      Journal s t as ∧
      as.map Prod.fst = (trace (connections advertisedHost inputs b) schedule).filterMap accepted ∧
      ∀ i k, ((connections advertisedHost inputs b).exec respond schedule).2.threads i =
          .done (some k) →
        ∃ n resps, Served advertisedHost (requests (inputs i).1) (inputs i).2
            (own i ((connections advertisedHost inputs b).exec respond schedule).1) k n resps ∧
          Each Acks (((requests (inputs i).1).take n).map Prod.snd) resps
            ((own i ((connections advertisedHost inputs b).exec respond schedule).1).filterMap
              accepted) := by
  obtain ⟨t,hruns,ht⟩ := exec_ledger hb hn schedule
  obtain ⟨as,has,hj⟩ := runs_journal hruns
  refine ⟨t,as,ht,hj,has,fun i k hk => ?_⟩
  obtain ⟨n,resps,hs⟩ := exec_served hk
  exact ⟨n,resps,hs,hs.each.filterMap fun _ _ _ => serve_acks⟩

/-- A broker that was started on an empty root. -/
def empty : Shared := ⟨newHandler ⟨[],⟨0⟩,∅⟩,emptyRoot,fun _ => 0⟩

theorem represents_empty : Represents [] ⟨0⟩ empty .blank :=
  represents_blank ⟨0⟩ rfl fun _ _ => rfl

/-- An empty batch for one partition. -/
def produceOne (acks : Int16) (correlationID : Int32) : Call where
  apiVersion := 2
  correlationID := correlationID
  clientID := none
  request := .produce ⟨acks,0,[⟨aTopic,[⟨0,[]⟩]⟩]⟩
  body := writeProduceRequest 2 none ⟨acks,0,[⟨aTopic,[⟨0,[]⟩]⟩]⟩
  encoded := ⟨by simp [InRange],none,rfl⟩

/-- These requests are sent, over a connection that does not fail. -/
def send (calls : List Call) : Bytes × Socket := (stream (calls.map Call.wire),⟨[],[]⟩)

theorem ordinary_send {calls : List Call}
    (h : ∀ c ∈ calls, ∀ topic, Names c.request topic → Single topic) :
    ∀ x ∈ requests (send calls).1, ∀ topic, Names x.2 topic → Single topic := by
  intro x hx
  rw [send,requests_stream] at hx
  obtain ⟨c,hc,rfl⟩ := List.mem_map.mp hx
  exact h c hc

theorem single_produceOne {acks : Int16} {correlationID : Int32} {topic : Bytes}
    (h : Names (produceOne acks correlationID).request topic) : Single topic := by
  obtain ⟨t,ht,rfl⟩ := h
  obtain rfl : t = ⟨aTopic,[⟨0,[]⟩]⟩ := by simpa using ht
  unfold Single
  decide +kernel

/-- Two producers for the same partition. -/
def twoProducers (i : Bool) : Bytes × Socket := send [produceOne 1 (if i then 1 else 2)]

theorem ordinary_twoProducers : Ordinary twoProducers := by
  refine fun i => ordinary_send fun c hc topic ht => ?_
  obtain rfl := List.mem_singleton.mp hc
  exact single_produceOne ht

example : (trace (connections [] twoProducers empty) [true,false,true,false,true,false]).filterMap
    accepted = [⟨ascii "t",0,[],0⟩,⟨ascii "t",0,[],4⟩] := by decide +kernel

/-- A producer, and a connection over which no request is sent. -/
def noisy (i : Bool) : Bytes × Socket :=
  if i then send [produceOne 1 1] else ([0,0,0,99,0,1],⟨[],[]⟩)

theorem ordinary_noisy : Ordinary noisy := by
  intro i
  cases i with
  | true =>
      refine ordinary_send fun c hc topic ht => ?_
      obtain rfl := List.mem_singleton.mp hc
      exact single_produceOne ht
  | false =>
      intro x hx
      have hnone : (requests (noisy false).1).length = 0 := by decide +kernel
      rw [List.eq_nil_of_length_eq_zero hnone] at hx
      exact (List.not_mem_nil hx).elim

theorem connections_account_for_files_noisy :
    ∃ t as, Represents [] ⟨0⟩ ((connections [] noisy empty).exec respond
        [false,true,true,false,true]).2.state t ∧ Journal .blank t as ∧
      as.map Prod.fst = (trace (connections [] noisy empty)
        [false,true,true,false,true]).filterMap accepted ∧
      ∀ i k, ((connections [] noisy empty).exec respond
          [false,true,true,false,true]).2.threads i = .done (some k) →
        ∃ n resps, Served [] (requests (noisy i).1) (noisy i).2
            (own i ((connections [] noisy empty).exec respond
              [false,true,true,false,true]).1) k n resps ∧
          Each Acks (((requests (noisy i).1).take n).map Prod.snd) resps
            ((own i ((connections [] noisy empty).exec respond
              [false,true,true,false,true]).1).filterMap accepted) :=
  connections_account_for_files represents_empty [] noisy ordinary_noisy _

end Kage.ConcurrentClients
