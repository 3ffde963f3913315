import Kage.FetchedBatches

/-!
# Answers of connections that are served side by side

Whatever the connections send, whatever fails on the disk and whatever the broker
holds, a connection that has ended has been sent the answers to its own requests
in the order in which they can be read from its bytes, one framed message for
each, which begins with the correlation id of the request. Produce requests that
ask for no answer get none. A connection that failed was cut somewhere in this
sequence.
-/
namespace Kage.AnsweredConnections
open ByteStrings LengthPrefixed FaultyDisk OffsetRecords OffsetHandlers RequestParsers
open FetchHandler ResponseEncoders RequestHandlers AtomicPrograms BrokerPrograms LedgerJournal
open ClientSessions AcknowledgedRecords ConcurrentClients FetchedBatches

/-- No answer, or a message that begins with the correlation id. -/
def Answered (x : RequestHeader × Request) : Option Bytes → Prop
  | none => ∃ req, x.2 = .produce req ∧ req.acks = AcksNone
  | some message => (∀ req, x.2 = .produce req → req.acks ≠ AcksNone) ∧
      ∃ fields, message = writeInt32 x.1.correlationID++fields

section
variable {es l : List BrokerEvent} {topic : Bytes} {part : FetchPartitionData}
variable {remaining left : Int32}

theorem looks_sized {resp : FetchPartitionResponse}
    (h : Looks topic part remaining resp left es) : Sized resp := by
  cases h with
  | refused e _ => exact .inl (show ¬(-1 : Int32) > 0 by decide)
  | unserved size code _ => exact .inl (show ¬(-1 : Int32) > 0 by decide)
  | served size cap r n raw _ _ _ _ => exact .inr ⟨_,rfl,rfl⟩

theorem partitions_sized {parts : List FetchPartitionData} {resps : List FetchPartitionResponse}
    (h : Chained (Looks topic) parts remaining resps left es) : ∀ p ∈ resps, Sized p := by
  induction h with
  | nil r => exact fun p hp => (List.not_mem_nil hp).elim
  | cons h _ ih => exact List.forall_mem_cons.mpr ⟨looks_sized h,ih⟩

theorem chained_sized {topics : List FetchTopicData} {resps : List FetchTopicResponse}
    (h : Chained LooksAll topics remaining resps left es) :
    ∀ t ∈ resps, ∀ p ∈ t.partitions, Sized p := by
  induction h with
  | nil r => exact fun t ht => (List.not_mem_nil ht).elim
  | cons h _ ih => exact List.forall_mem_cons.mpr ⟨partitions_sized h.2,ih⟩

/-- The answer of a request that was served. -/
theorem serve_answered {header : RequestHeader} {r : Request} {resp : Response}
    (advertisedHost : Bytes) (h : Path (serve r) es (.done (some resp))) :
    ∃ m, Answered (header,r) m ∧ reply advertisedHost (header,r) resp = frames m.toList := by
  have hother (hp : ∀ req, r ≠ .produce req) {ws : List Bytes} {fields : Bytes}
      (hw : writes advertisedHost header r resp = some ws)
      (hf : ws.flatten = fullMessage (writeInt32 header.correlationID++fields)) :
      ∃ m, Answered (header,r) m ∧ reply advertisedHost (header,r) resp = frames m.toList := by
    refine ⟨some (writeInt32 header.correlationID++fields),
      ⟨fun req hr => (hp req hr).elim,fields,rfl⟩,?_⟩
    rw [reply,hw,Option.getD_some,hf]
    simp [fullMessage]
  cases r with
  | produce req =>
      obtain ⟨out,hout,hmap⟩ := Path.of_map h
      obtain ⟨topics,rfl,rfl⟩ := Option.map_eq_some_iff.mp hmap
      by_cases ha : req.acks = AcksNone
      · refine ⟨none,⟨req,rfl,ha⟩,?_⟩
        simp [reply,writes,ha]
      · refine ⟨some (encodeProduceResponse header.correlationID topics),
          ⟨fun req' hr' => ?_,_,rfl⟩,?_⟩
        · cases hr'
          exact ha
        · simp [reply,writes,ha,fullMessage]
  | fetch req =>
      obtain ⟨out,hout,hmap⟩ := Path.of_map h
      obtain ⟨resps,rfl,rfl⟩ := Option.map_eq_some_iff.mp hmap
      obtain ⟨left,hc⟩ := fetchTopics_path hout
      obtain ⟨fields,hf⟩ := writeFetchResponse_flatten (chained_sized hc) header.correlationID 0
      exact hother (by simp) rfl hf
  | listOffsets req =>
      obtain ⟨out,hout,hmap⟩ := Path.of_map h
      obtain ⟨resps,rfl,rfl⟩ := Option.map_eq_some_iff.mp hmap
      exact hother (by simp) rfl List.flatten_singleton
  | metadata req =>
      obtain ⟨out,hout,hmap⟩ := Path.of_map h
      cases hmap
      exact hother (by simp) rfl List.flatten_singleton
  | offsetCommit req =>
      obtain ⟨out,hout,hmap⟩ := Path.of_map h
      obtain ⟨resps,rfl,rfl⟩ := Option.map_eq_some_iff.mp hmap
      exact hother (by simp) rfl List.flatten_singleton
  | offsetFetch req =>
      obtain ⟨out,hout,hmap⟩ := Path.of_map h
      cases hmap
      exact hother (by simp) rfl List.flatten_singleton
  | findCoordinator req =>
      cases (Path.of_done h).2
      exact hother (by simp) rfl List.flatten_singleton
  | joinGroup req =>
      cases (Path.of_done h).2
      exact hother (by simp) rfl List.flatten_singleton
  | heartbeat req =>
      cases (Path.of_done h).2
      exact hother (by simp) rfl List.flatten_singleton
  | leaveGroup req =>
      cases (Path.of_done h).2
      exact hother (by simp) rfl List.flatten_singleton
  | syncGroup req =>
      cases (Path.of_done h).2
      exact hother (by simp) rfl List.flatten_singleton
  | apiVersions =>
      cases (Path.of_done h).2
      exact hother (by simp) rfl List.flatten_singleton

theorem replies_framed {xs : List (RequestHeader × Request)} {resps : List Response}
    (advertisedHost : Bytes)
    (h : Each (fun x resp l => Path (serve x.2) l (.done (some resp))) xs resps es) :
    ∃ ms, List.Forall₂ Answered xs ms ∧
      replies advertisedHost xs resps = frames (ms.filterMap id) := by
  induction h with
  | nil => exact ⟨[],.nil,rfl⟩
  | cons h _ ih =>
      obtain ⟨m,hm,hans⟩ := serve_answered advertisedHost h
      obtain ⟨ms,hms,hrest⟩ := ih
      refine ⟨m::ms,.cons hm hms,?_⟩
      rw [replies,hans,hrest,← frames_append]
      cases m <;> rfl

end

/-- Whatever the connections send, in every interleaving, from every state of the
broker and with every schedule of failures, a connection that has ended was sent
the answers to the requests that can be read from its bytes, in their order: all
of them, or an initial part if a write failed. -/
theorem connections_answered_in_order {ι : Type*} [DecidableEq ι] (advertisedHost : Bytes)
    (inputs : ι → Bytes × Socket) (b : Shared) (schedule : List ι) (i : ι) (k : Socket)
    (h : ((connections advertisedHost inputs b).exec respond schedule).2.threads i =
      .done (some k)) :
    ∃ n messages, List.Forall₂ Answered ((requests (inputs i).1).take n) messages ∧
      k.sent <+: (inputs i).2.sent++frames (messages.filterMap id) ∧
      ((inputs i).2.Reliable → (requests (inputs i).1).length ≤ n ∧
        k.sent = (inputs i).2.sent++frames (messages.filterMap id)) := by
  have hpath := exec_path respond (connections advertisedHost inputs b) schedule i
  rw [h] at hpath
  obtain ⟨n,resps,hs⟩ := connection_served hpath
  obtain ⟨ms,hms,hans⟩ := replies_framed advertisedHost hs.each.of_map
  have hsent := hs.sent
  have hrel := hs.reliable
  rw [hans] at hsent hrel
  exact ⟨n,ms,hms,hsent,fun hk => ⟨(hrel hk).1.ge,(hrel hk).2⟩⟩

theorem connections_answered_noisy : ∃ k n messages,
    ((connections [] noisy empty).exec respond [false,true,true,false,true]).2.threads true =
        .done (some k) ∧
      List.Forall₂ Answered ((requests (noisy true).1).take n) messages ∧
      k.sent <+: (noisy true).2.sent++frames (messages.filterMap id) ∧
      ((noisy true).2.Reliable → (requests (noisy true).1).length ≤ n ∧
        k.sent = (noisy true).2.sent++frames (messages.filterMap id)) := by
  have hs : (ended ((connections [] noisy empty).exec respond
      [false,true,true,false,true]).2 true).isSome = true := by decide +kernel
  obtain ⟨k,hs⟩ := Option.isSome_iff_exists.mp hs
  have hk := ended_eq_some hs
  obtain ⟨n,ms,h⟩ := connections_answered_in_order [] noisy empty _ true k hk
  exact ⟨k,n,ms,hk,h⟩

end Kage.AnsweredConnections
