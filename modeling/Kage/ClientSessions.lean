import Kage.BrokerPrograms
import Kage.PipelinedRequests
import Kage.RequestEncodings

/-!
# Sessions of clients

A connection, with the bytes taken away: the requests that can be read from its
bytes, one behind the other until the bytes do not go on with a request, and the
responses to them. As a program over the shared operations the connection serves
these requests and writes what their responses are encoded as, so whatever holds
of the requests in every interleaving holds of connections. From the bytes of a
client that sends nothing but requests all of them are read.
-/
namespace Kage.ClientSessions
open ByteStrings LengthPrefixed FaultyDisk StreamParsers BrokerStores FetchHandler OffsetRecords
open OffsetHandlers RequestParsers ProduceHandler ResponseEncoders RequestHandlers
open FieldRoundTrips RequestPanics RequestEncodings PipelinedRequests AtomicPrograms BrokerPrograms

inductive Request where
  | produce (req : ProduceRequest)
  | fetch (req : WireFetchRequest)
  | listOffsets (req : ListOffsetsRequest)
  | metadata (req : MetadataRequest)
  | offsetCommit (req : WireOffsetCommitRequest)
  | offsetFetch (req : OffsetFetchRequest)
  | findCoordinator (req : FindCoordinatorRequest)
  | joinGroup (req : JoinGroupRequest)
  | heartbeat (req : HeartbeatRequest)
  | leaveGroup (req : LeaveGroupRequest)
  | syncGroup (req : SyncGroupRequest)
  | apiVersions

/-- What a handler answers with. The requests about groups are answered without
a look at the broker. -/
inductive Response where
  | produce (topics : List ProduceTopicResponse)
  | fetch (topics : List FetchTopicResponse)
  | listOffsets (topics : List ListOffsetsTopicResponse)
  | metadata (topics : List TopicMetadata)
  | offsetCommit (topics : List OffsetCommitTopicResponse)
  | offsetFetch (topics : List OffsetFetchTopicResponse)
  | fixed

/-- No response means that the process has gone down. -/
def serve : Request → BrokerProgram (Option Response)
  | .produce req => do return (← handleProduceProgram req).map .produce
  | .fetch req => do return (← handleFetchProgram req.toFetchRequest).map .fetch
  | .listOffsets req => do return (← handleListOffsetsProgram req.topics).map .listOffsets
  | .metadata req => do return some (.metadata (← handleMetadataProgram req.topics))
  | .offsetCommit req => do return (← handleOffsetCommitProgram req.request).map .offsetCommit
  | .offsetFetch req => do return some (.offsetFetch (← handleOffsetFetchProgram req))
  | _ => return some .fixed

/-- The calls of `Write` for a response, if there are any. -/
def writes (advertisedHost : Bytes) (header : RequestHeader) :
    Request → Response → Option (List Bytes)
  | .produce req,.produce topics =>
      if req.acks = AcksNone then none
      else some [fullMessage (encodeProduceResponse header.correlationID topics)]
  | .fetch _,.fetch topics => some (writeFetchResponse header.correlationID 0 topics)
  | .listOffsets _,.listOffsets topics =>
      some [fullMessage (encodeListOffsetsResponse header.correlationID topics)]
  | .metadata _,.metadata topics => some [fullMessage (encodeMetadataResponse
      header.correlationID header.apiVersion ⟨[⟨1,advertisedHost,9092,none⟩],none,1,topics⟩)]
  | .offsetCommit _,.offsetCommit topics =>
      some [fullMessage (encodeOffsetCommitResponse header.correlationID topics)]
  | .offsetFetch _,.offsetFetch topics =>
      some [fullMessage (encodeOffsetFetchResponse header.correlationID topics)]
  | .findCoordinator _,.fixed => some [fullMessage
      (encodeFindCoordinatorResponse header.correlationID 1 advertisedHost 9092)]
  | .joinGroup req,.fixed => some [fullMessage (joinGroupMessage header req)]
  | .heartbeat _,.fixed => some [fullMessage (encodeHeartbeatResponse header.correlationID)]
  | .leaveGroup _,.fixed => some [fullMessage (encodeLeaveGroupResponse header.correlationID)]
  | .syncGroup req,.fixed => some [fullMessage (syncGroupMessage header req)]
  | .apiVersions,.fixed =>
      some [fullMessage (encodeApiVersionsResponse header.correlationID)]
  | _,_ => none

/-- What is read behind a header. -/
def parseBody (header : RequestHeader) : Parser Request :=
  if header.apiKey = ApiKeyProduce then .produce <$> parseProduceRequest header
  else if header.apiKey = ApiKeyFetch then .fetch <$> parseFetchRequest
  else if header.apiKey = ApiKeyListOffsets then .listOffsets <$> parseListOffsetsRequest
  else if header.apiKey = ApiKeyMetadata then .metadata <$> parseMetadataRequest header
  else if header.apiKey = ApiKeyOffsetCommit then .offsetCommit <$> parseOffsetCommitRequest
  else if header.apiKey = ApiKeyOffsetFetch then .offsetFetch <$> parseOffsetFetchRequest
  else if header.apiKey = ApiKeyFindCoordinator then
    .findCoordinator <$> parseFindCoordinatorRequest
  else if header.apiKey = ApiKeyJoinGroup then .joinGroup <$> parseJoinGroupRequest
  else if header.apiKey = ApiKeyHeartbeat then .heartbeat <$> parseHeartbeatRequest
  else if header.apiKey = ApiKeyLeaveGroup then .leaveGroup <$> parseLeaveGroupRequest
  else if header.apiKey = ApiKeySyncGroup then .syncGroup <$> parseSyncGroupRequest
  else if header.apiKey = ApiKeyApiVersions then pure .apiVersions
  else .fail (.sentinel "unsupported api_key: %d")

def readRequest : Parser (RequestHeader × Request) := do
  let header ← parseRequestHeader
  return (header,← parseBody header)

def requestsFrom : ℕ → Bytes → List (RequestHeader × Request)
  | 0,_ => []
  | fuel+1,s =>
      match readRequest s with
      | .ok x rest => x::requestsFrom fuel rest
      | _ => []

/-- The requests that can be read from the bytes of a connection. -/
def requests (s : Bytes) : List (RequestHeader × Request) := requestsFrom (s.length+1) s

/-- The batches of a request are as long as a count of thirty-two bits can say. -/
def Request.Bounded : Request → Prop
  | .produce req => ∀ t ∈ req.topics, ∀ p ∈ t.partitions, p.recordBatch.length < 2^31
  | _ => True

/-- What is sent back for a request. -/
def reply (advertisedHost : Bytes) (x : RequestHeader × Request) (resp : Response) : Bytes :=
  ((writes advertisedHost x.1 x.2 resp).getD []).flatten

def replies (advertisedHost : Bytes) : List (RequestHeader × Request) → List Response → Bytes
  | x::xs,resp::resps => reply advertisedHost x resp++replies advertisedHost xs resps
  | _,_ => []

/-! ## One request -/

section
variable {advertisedHost : Bytes} {header : RequestHeader} {s rest : Bytes} {k : Socket}

/-- How a request ends once its handler has returned. -/
def finish (k : Socket) (rest : Bytes) : Option (Option (List Bytes)) → Turn
  | none => .panic
  | some none => .next rest k
  | some (some ws) =>
      match k.writeAll ws with
      | (none,k) => .next rest k
      | (some _,k) => .stop k

theorem served_of_parse {α : Type} {parse : Parser α} {req : α} (h : parse s = .ok req rest)
    (work : WorkProgram α) :
    servedProgram parse work s k = work req >>= fun out => .done (finish k rest out) := by
  simp only [servedProgram,h]
  congr 1
  funext out
  rcases out with _|_|ws
  · rfl
  · rfl
  · simp only [finish]
    rcases k.writeAll ws with ⟨e,k'⟩
    cases e <;> rfl

/-- How a handler goes on when its body was read. -/
def handled (advertisedHost : Bytes) (header : RequestHeader) (k : Socket) :
    Outcome Request → BrokerProgram Turn
  | .panic => .done .panic
  | .error _ => .done (.stop k)
  | .ok r rest => serve r >>= fun resp =>
      .done (finish k rest (resp.map (writes advertisedHost header r)))

theorem served_handled {α : Type} {parse : Parser α} {mk : α → Request} {work : WorkProgram α}
    (hw : ∀ req, work req = serve (mk req) >>= fun resp =>
      .done (resp.map (writes advertisedHost header (mk req)))) :
    servedProgram parse work s k = handled advertisedHost header k ((mk <$> parse) s) := by
  cases hp : parse s with
  | panic =>
      rw [show (mk <$> parse) s = .panic by exact bind_eq_panic_iff.mpr (.inl hp)]
      simp only [servedProgram,hp]
      rfl
  | error e =>
      rw [show (mk <$> parse) s = .error e from bind_error hp]
      simp only [servedProgram,hp]
      rfl
  | ok req rest =>
      rw [show (mk <$> parse) s = .ok (mk req) rest from bind_ok hp,served_of_parse hp,hw,
        Program.bind_assoc]
      rfl

theorem handled_ite {p : Prop} [Decidable p] {f g : Bytes → Socket → BrokerProgram Turn}
    {a b : Parser Request} (ha : f s k = handled advertisedHost header k (a s))
    (hb : g s k = handled advertisedHost header k (b s)) :
    (if p then f else g) s k =
      handled advertisedHost header k ((if p then a else b : Parser Request) s) := by
  split
  · exact ha
  · exact hb

theorem produceProgram_eq (req : ProduceRequest) :
    produceProgram header req = handleProduceProgram req >>= fun x =>
      .done ((x.map .produce).map (writes advertisedHost header (.produce req))) := by
  unfold produceProgram
  congr 1
  funext x
  cases x with
  | none => rfl
  | some topics =>
      simp only [Option.map_some,writes]
      split <;> rfl

/-- A dispatched request is read, served and answered. -/
theorem dispatch_handled (advertisedHost : Bytes) (header : RequestHeader) (s : Bytes)
    (k : Socket) :
    dispatchProgram advertisedHost header s k =
      handled advertisedHost header k (parseBody header s) := by
  have hwork {β : Type} (p : BrokerProgram β) (f : β → Option Response)
      (ws : Response → Option (List Bytes)) :
      (p >>= fun x => .done ((f x).map ws)) =
        (p >>= fun x => .done (f x)) >>= fun resp => .done (resp.map ws) := by
    rw [Program.bind_assoc]
    rfl
  refine handled_ite (served_handled fun req => (produceProgram_eq req).trans (hwork _ _ _)) ?_
  refine handled_ite (served_handled fun req => .trans (congrArg (Bind.bind _) ?_)
    (hwork _ _ _)) ?_
  · exact funext fun x => by cases x <;> rfl
  refine handled_ite (served_handled fun req => .trans (congrArg (Bind.bind _) ?_)
    (hwork _ _ _)) ?_
  · exact funext fun x => by cases x <;> rfl
  refine handled_ite (served_handled fun req => hwork (handleMetadataProgram req.topics)
    (some ∘ .metadata) (writes advertisedHost header (.metadata req))) ?_
  refine handled_ite (served_handled fun req => .trans (congrArg (Bind.bind _) ?_)
    (hwork _ _ _)) ?_
  · exact funext fun x => by cases x <;> rfl
  refine handled_ite (served_handled fun req => hwork (handleOffsetFetchProgram req)
    (some ∘ .offsetFetch) (writes advertisedHost header (.offsetFetch req))) ?_
  refine handled_ite (served_handled fun req => rfl) ?_
  refine handled_ite (served_handled fun req => rfl) ?_
  refine handled_ite (served_handled fun req => rfl) ?_
  refine handled_ite (served_handled fun req => rfl) ?_
  refine handled_ite (served_handled fun req => rfl) ?_
  exact handled_ite (served_of_parse rfl _) rfl

/-- How a connection goes on after a request. -/
def Turn.resume (go : Bytes → Socket → BrokerProgram (Option Socket)) :
    Turn → BrokerProgram (Option Socket)
  | .panic => .done none
  | .stop k => .done (some k)
  | .next rest k => go rest k

/-- How a connection goes on when a request was read. -/
def proceed (advertisedHost : Bytes) (go : Bytes → Socket → BrokerProgram (Option Socket))
    (k : Socket) : Outcome (RequestHeader × Request) → BrokerProgram (Option Socket)
  | .panic => .done none
  | .error _ => .done (some k)
  | .ok x rest => serve x.2 >>= fun resp =>
      Turn.resume go (finish k rest (resp.map (writes advertisedHost x.1 x.2)))

/-- The loop serves the request that can be read. -/
theorem connectionLoop_reads (advertisedHost : Bytes) (fuel : ℕ) (s : Bytes) (k : Socket) :
    connectionLoop advertisedHost (fuel+1) s k =
      proceed advertisedHost (connectionLoop advertisedHost fuel) k (readRequest s) := by
  rw [connectionLoop]
  cases hh : parseRequestHeader s with
  | panic => rw [show readRequest s = .panic from bind_eq_panic_iff.mpr (.inl hh)]; rfl
  | error e => rw [show readRequest s = .error e from bind_error hh]; rfl
  | ok header rest =>
      simp only [dispatch_handled]
      rw [show readRequest s = ((header,·) <$> parseBody header) rest from bind_ok hh]
      cases hb : parseBody header rest with
      | panic =>
          rw [show ((header,·) <$> parseBody header) rest = .panic from
            bind_eq_panic_iff.mpr (.inl hb)]
          rfl
      | error e =>
          rw [show ((header,·) <$> parseBody header) rest = .error e from bind_error hb]
          rfl
      | ok r rest' =>
          rw [show ((header,·) <$> parseBody header) rest = .ok (header,r) rest' from bind_ok hb]
          simp only [handled,proceed]
          rw [Program.bind_assoc]
          exact congrArg (Bind.bind _) (funext fun resp => by
            rw [Program.done_bind]
            cases finish k rest' (resp.map (writes advertisedHost header r)) <;> rfl)

end

/-! ## Sockets -/

/-- A write that fails leaves a part of what it was given. -/
theorem write_sent {k k' : Socket} {b : Bytes} {e : Option Err} (h : k.write b = (e,k')) :
    k'.sent <+: k.sent++b ∧ (e = none → k'.sent = k.sent++b) ∧
      (k.Reliable → e = none ∧ k'.Reliable) := by
  rcases k with ⟨sent,faults⟩
  cases faults with
  | nil =>
      obtain ⟨rfl,rfl⟩ := Prod.mk.inj h
      exact ⟨List.prefix_rfl,fun _ => rfl,fun hk => ⟨rfl,hk⟩⟩
  | cons f faults =>
      cases f with
      | none =>
          obtain ⟨rfl,rfl⟩ := Prod.mk.inj h
          exact ⟨List.prefix_rfl,fun _ => rfl,fun hk =>
            ⟨rfl,fun f hf => hk f (List.mem_cons_of_mem _ hf)⟩⟩
      | some n =>
          obtain ⟨rfl,rfl⟩ := Prod.mk.inj h
          refine ⟨?_,nofun,fun hk => ?_⟩
          · exact (List.prefix_append_right_inj sent).mpr (List.take_prefix n b)
          · cases hk (some n) List.mem_cons_self

theorem writeAll_sent {k k' : Socket} {ws : List Bytes} {e : Option Err}
    (h : k.writeAll ws = (e,k')) :
    k'.sent <+: k.sent++ws.flatten ∧ (e = none → k'.sent = k.sent++ws.flatten) ∧
      (k.Reliable → e = none ∧ k'.Reliable) := by
  induction ws generalizing k with
  | nil =>
      obtain ⟨rfl,rfl⟩ := Prod.mk.inj h
      simp
  | cons b ws ih =>
      rw [Socket.writeAll] at h
      rcases hw : k.write b with ⟨e₁,k₁⟩
      obtain ⟨hp,hs,hr⟩ := write_sent hw
      rw [hw] at h
      rw [List.flatten_cons,← List.append_assoc]
      cases e₁ with
      | some x =>
          obtain ⟨rfl,rfl⟩ := Prod.mk.inj h
          exact ⟨hp.trans (List.prefix_append _ _),by simp,hr⟩
      | none =>
          obtain ⟨hp₁,hs₁,hr₁⟩ := ih h
          rw [hs rfl] at hp₁ hs₁
          exact ⟨hp₁,hs₁,fun hk => hr₁ (hr hk).2⟩

/-- What there is to write was written and the loop goes on, or a write failed and it
stops. -/
theorem finish_writes (rest : Bytes) (k : Socket) (o : Option (List Bytes)) :
    ∃ k', k'.sent <+: k.sent++(o.getD []).flatten ∧
      (finish k rest (some o) = .next rest k' ∧ k'.sent = k.sent++(o.getD []).flatten ∧
          (k.Reliable → k'.Reliable) ∨
        finish k rest (some o) = .stop k' ∧ ¬k.Reliable) := by
  cases o with
  | none => exact ⟨k,by simp,.inl ⟨rfl,by simp,id⟩⟩
  | some ws =>
      rcases hk : k.writeAll ws with ⟨e,k'⟩
      obtain ⟨hp,hs,hr⟩ := writeAll_sent hk
      refine ⟨k',hp,?_⟩
      cases e with
      | none => exact .inl ⟨by simp only [finish,hk],hs rfl,fun h => (hr h).2⟩
      | some x => exact .inr ⟨by simp only [finish,hk],fun h => nomatch (hr h).1⟩

/-! ## The whole connection -/

section
variable {advertisedHost s : Bytes} {k : Socket}

/-- What holds of the requests that can be read holds of the connection. -/
theorem connectionLoop_holds {Q : (α : Type) → BrokerProgram α → Prop} (hQ : Program.Closed Q)
    {fuel : ℕ} (h : ∀ x ∈ requestsFrom fuel s, Q _ (serve x.2)) (k : Socket) :
    Q _ (connectionLoop advertisedHost fuel s k) := by
  induction fuel generalizing s k with
  | zero => exact hQ.done _
  | succ fuel ih =>
      rw [connectionLoop_reads]
      rw [requestsFrom] at h
      cases hr : readRequest s with
      | panic => exact hQ.done _
      | error e => exact hQ.done _
      | ok x rest =>
          rw [hr] at h
          obtain ⟨hx,hrest⟩ := List.forall_mem_cons.mp h
          refine hQ.bind hx fun resp => ?_
          cases resp with
          | none => exact hQ.done _
          | some resp =>
              rw [Option.map_some]
              obtain ⟨k',-,⟨hnext,-⟩|⟨hstop,-⟩⟩ :=
                finish_writes rest k (writes advertisedHost x.1 x.2 resp)
              · rw [hnext]
                exact ih hrest k'
              · rw [hstop]
                exact hQ.done _

/-- What a connection has come to, whatever was sent over it: an initial part of the
requests that can be read was served. -/
structure Served (advertisedHost : Bytes) (xs : List (RequestHeader × Request)) (k : Socket)
    (es : List (Event Op Op.Reply)) (k' : Socket) (n : ℕ) (resps : List Response) : Prop where
  count : resps.length = n
  le : n ≤ xs.length
  each : Each (fun r resp l => Path (serve r) l (.done (some resp))) ((xs.take n).map Prod.snd)
    resps es
  sent : k'.sent <+: k.sent++replies advertisedHost (xs.take n) resps
  reliable : k.Reliable → n = xs.length ∧
    k'.sent = k.sent++replies advertisedHost (xs.take n) resps

theorem connectionLoop_served {fuel : ℕ} {k' : Socket} {es : List (Event Op Op.Reply)}
    (h : Path (connectionLoop advertisedHost fuel s k) es (.done (some k'))) :
    ∃ n resps, Served advertisedHost (requestsFrom fuel s) k es k' n resps := by
  have hend (k : Socket) : Served advertisedHost [] k [] k 0 [] :=
    ⟨rfl,le_rfl,.nil,by simp [replies],fun _ => ⟨rfl,by simp [replies]⟩⟩
  induction fuel generalizing s k es with
  | zero =>
      obtain ⟨rfl,hk⟩ := Path.of_done h
      cases hk
      exact ⟨0,[],hend _⟩
  | succ fuel ih =>
      rw [connectionLoop_reads] at h
      rw [requestsFrom]
      cases hr : readRequest s with
      | panic =>
          rw [hr] at h
          cases (Path.of_done h).2
      | error e =>
          rw [hr] at h
          obtain ⟨rfl,hk⟩ := Path.of_done h
          cases hk
          exact ⟨0,[],hend _⟩
      | ok x rest =>
          rw [hr] at h
          obtain ⟨resp,fs,gs,rfl,hserve,hrest⟩ := Path.of_bind h
          cases resp with
          | none => cases (Path.of_done hrest).2
          | some resp =>
              rw [Option.map_some] at hrest
              obtain ⟨k₁,hpre,⟨hnext,hsent,hrel⟩|⟨hstop,hrel⟩⟩ :=
                finish_writes rest k (writes advertisedHost x.1 x.2 resp)
              · rw [hnext] at hrest
                obtain ⟨n,resps,hc⟩ := ih hrest
                refine ⟨n+1,resp::resps,by simp [hc.count],Nat.succ_le_succ hc.le,
                  .cons hserve hc.each,?_,fun hk => ?_⟩
                · have hs := hc.sent
                  rwa [hsent,List.append_assoc] at hs
                · obtain ⟨rfl,hs⟩ := hc.reliable (hrel hk)
                  rw [hsent,List.append_assoc] at hs
                  exact ⟨rfl,hs⟩
              · rw [hstop] at hrest
                obtain ⟨rfl,hk⟩ := Path.of_done hrest
                cases hk
                refine ⟨1,[resp],rfl,by simp,.cons hserve .nil,?_,fun hk => (hrel hk).elim⟩
                simpa [replies,reply] using hpre

theorem connection_holds {Q : (α : Type) → BrokerProgram α → Prop} (hQ : Program.Closed Q)
    (h : ∀ x ∈ requests s, Q _ (serve x.2)) (k : Socket) :
    Q _ (connection advertisedHost s k) := connectionLoop_holds hQ h k

/-- A connection that has ended without taking the process down has served an
initial part of the requests that can be read, and the client has got an initial
part of the answers. Both are all of them when no write failed. -/
theorem connection_served {k' : Socket} {es : List (Event Op Op.Reply)}
    (h : Path (connection advertisedHost s k) es (.done (some k'))) :
    ∃ n resps, Served advertisedHost (requests s) k es k' n resps := connectionLoop_served h

end

/-! ## Clients that send nothing but requests -/

def Request.apiKey : Request → Int16
  | .produce _ => ApiKeyProduce
  | .fetch _ => ApiKeyFetch
  | .listOffsets _ => ApiKeyListOffsets
  | .metadata _ => ApiKeyMetadata
  | .offsetCommit _ => ApiKeyOffsetCommit
  | .offsetFetch _ => ApiKeyOffsetFetch
  | .findCoordinator _ => ApiKeyFindCoordinator
  | .joinGroup _ => ApiKeyJoinGroup
  | .heartbeat _ => ApiKeyHeartbeat
  | .leaveGroup _ => ApiKeyLeaveGroup
  | .syncGroup _ => ApiKeySyncGroup
  | .apiVersions => ApiKeyApiVersions

/-- The bytes are the body of the request in the layout of a version. -/
def Request.Body (version : Int16) : Request → Bytes → Prop
  | .produce v,b => InRange .produce v ∧ Written version .produce v b
  | .fetch v,b => InRange .fetch v ∧ Written version .fetch v b
  | .listOffsets v,b => InRange .listOffsets v ∧ Written version .listOffsets v b
  | .metadata v,b => InRange .metadata v ∧ Written version .metadata v b
  | .offsetCommit v,b => InRange .offsetCommit v ∧ Written version .offsetCommit v b
  | .offsetFetch v,b => InRange .offsetFetch v ∧ Written version .offsetFetch v b
  | .findCoordinator v,b => Written version .findCoordinator v b
  | .joinGroup v,b => InRange .joinGroup v ∧ Written version .joinGroup v b
  | .heartbeat v,b => Written version .heartbeat v b
  | .leaveGroup v,b => Written version .leaveGroup v b
  | .syncGroup v,b => InRange .syncGroup v ∧ Written version .syncGroup v b
  | .apiVersions,b => b = []

/-- A request as it is sent. -/
structure Call where
  apiVersion : Int16
  correlationID : Int32
  clientID : Option WireString
  request : Request
  body : Bytes
  encoded : request.Body apiVersion body

namespace Call

def wire (c : Call) : ClientRequest :=
  ⟨c.request.apiKey,c.apiVersion,c.correlationID,c.clientID,c.body⟩

/-- What is read of it. -/
def headed (c : Call) : RequestHeader × Request := (c.wire.header,c.request)

end Call

/-- The body of a request is read back. -/
theorem parseBody_request {header : RequestHeader} (r : Request)
    (hk : header.apiKey = r.apiKey) {b : Bytes} (hb : r.Body header.apiVersion b) (rest : Bytes) :
    parseBody header (b++rest) = .ok r rest := by
  cases r with
  | produce v =>
      obtain ⟨hr,transactionalID,rfl⟩ := hb
      rw [parseBody,show header.apiKey = ApiKeyProduce from hk]
      exact bind_ok (returns_parseProduceRequest hr header transactionalID rest)
  | fetch v =>
      obtain ⟨hr,rfl⟩ := hb
      rw [parseBody,show header.apiKey = ApiKeyFetch from hk]
      exact bind_ok (returns_parseFetchRequest hr rest)
  | listOffsets v =>
      obtain ⟨hr,rfl⟩ := hb
      rw [parseBody,show header.apiKey = ApiKeyListOffsets from hk]
      exact bind_ok (returns_parseListOffsetsRequest hr rest)
  | metadata v =>
      obtain ⟨hr,allow,rfl⟩ := hb
      rw [parseBody,show header.apiKey = ApiKeyMetadata from hk]
      exact bind_ok (returns_parseMetadataRequest hr header allow rest)
  | offsetCommit v =>
      obtain ⟨hr,form,hf,rfl⟩ := hb
      rw [parseBody,show header.apiKey = ApiKeyOffsetCommit from hk]
      exact bind_ok (returns_parseOffsetCommitRequest hr hf rest)
  | offsetFetch v =>
      obtain ⟨hr,rfl⟩ := hb
      rw [parseBody,show header.apiKey = ApiKeyOffsetFetch from hk]
      exact bind_ok (returns_parseOffsetFetchRequest hr rest)
  | findCoordinator v =>
      obtain rfl : b = writeString v.key.1 := hb
      rw [parseBody,show header.apiKey = ApiKeyFindCoordinator from hk]
      exact bind_ok (((returns_readString v.key).context _).map _ rest)
  | joinGroup v =>
      obtain ⟨hr,rfl⟩ := hb
      rw [parseBody,show header.apiKey = ApiKeyJoinGroup from hk]
      exact bind_ok (returns_parseJoinGroupRequest hr rest)
  | heartbeat v =>
      obtain rfl : b = writeHeartbeatRequest v := hb
      rw [parseBody,show header.apiKey = ApiKeyHeartbeat from hk]
      exact bind_ok (returns_parseHeartbeatRequest v rest)
  | leaveGroup v =>
      obtain rfl : b = writeLeaveGroupRequest v := hb
      rw [parseBody,show header.apiKey = ApiKeyLeaveGroup from hk]
      exact bind_ok (returns_parseLeaveGroupRequest v rest)
  | syncGroup v =>
      obtain ⟨hr,rfl⟩ := hb
      rw [parseBody,show header.apiKey = ApiKeySyncGroup from hk]
      exact bind_ok (returns_parseSyncGroupRequest hr rest)
  | apiVersions =>
      obtain rfl : b = [] := hb
      rw [parseBody,show header.apiKey = ApiKeyApiVersions from hk]
      rfl

theorem readRequest_call (c : Call) (rest : Bytes) :
    readRequest (frame c.wire.bytes++rest) = .ok c.headed rest := by
  have hbody := parseBody_request c.request (show c.wire.header.apiKey = _ from rfl) c.encoded rest
  rw [readRequest,bind_ok (parseRequestHeader_request _ _)]
  exact bind_ok hbody

theorem stream_cons (c : Call) (calls : List Call) : stream ((c::calls).map Call.wire) =
    frame c.wire.bytes++stream (calls.map Call.wire) := frames_cons _ _

theorem requestsFrom_stream {calls : List Call} {fuel : ℕ} (hf : calls.length ≤ fuel) :
    requestsFrom fuel (stream (calls.map Call.wire)) = calls.map Call.headed := by
  induction calls generalizing fuel with
  | nil => cases fuel <;> rfl
  | cons c calls ih =>
      obtain ⟨fuel,rfl⟩ := Nat.exists_eq_succ_of_ne_zero (show fuel ≠ 0 by simp at hf; omega)
      rw [stream_cons,requestsFrom,readRequest_call]
      exact congrArg (c.headed::·) (ih (Nat.le_of_succ_le_succ hf))

theorem calls_le_stream (calls : List Call) :
    calls.length ≤ (stream (calls.map Call.wire)).length := by
  induction calls with
  | nil => simp
  | cons c calls ih =>
      rw [stream_cons,List.length_append,frame_length,List.length_cons]
      omega

/-- The requests of a client are those that can be read from what it sends. -/
theorem requests_stream (calls : List Call) :
    requests (stream (calls.map Call.wire)) = calls.map Call.headed :=
  requestsFrom_stream (Nat.le_succ_of_le (calls_le_stream calls))

end Kage.ClientSessions
