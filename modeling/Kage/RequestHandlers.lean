import Kage.FetchEntries
import Kage.ResponseEncoders

/-!
# Serving a connection

A connection is served request by request: the header is parsed, the API key
chooses a handler, the handler parses the body, does its work and writes its
answer, and the loop goes on with the bytes that are left. The first error ends
the connection. The handlers differ in what they parse and what they do in
between, so their common frame is written once, and each is an instance of it.

The client's side is the byte stream that the connection delivers until it ends
and the bytes that were sent back, with a schedule of failing writes. Logging
and the names of the client are left out. The order in which a map is visited is
left open by the source; here it is the order of its entries.
-/
namespace Kage.RequestHandlers
open ByteStrings LengthPrefixed FaultyDisk StreamParsers WireLayouts PartitionLog BrokerStores
open FetchHandler OffsetRecords OffsetHandlers OffsetStorage RequestParsers ProduceHandler
open FetchEntries ResponseEncoders

def ApiKeyProduce : Int16 := 0
def ApiKeyFetch : Int16 := 1
def ApiKeyListOffsets : Int16 := 2
def ApiKeyMetadata : Int16 := 3
def ApiKeyOffsetCommit : Int16 := 8
def ApiKeyOffsetFetch : Int16 := 9
def ApiKeyFindCoordinator : Int16 := 10
def ApiKeyJoinGroup : Int16 := 11
def ApiKeyHeartbeat : Int16 := 12
def ApiKeyLeaveGroup : Int16 := 13
def ApiKeySyncGroup : Int16 := 14
def ApiKeyApiVersions : Int16 := 18

def AcksNone : Int16 := 0
def TimestampEarliest : Int64 := -2
def TimestampLatest : Int64 := -1
def ErrCodeUnknownTopicOrPartition : Int16 := 3
def dummyMemberID : Bytes := ascii "kage-member-1"

/-- What was sent, and for each of the next writes how many bytes it still takes
when it fails. -/
structure Socket where
  sent : Bytes
  faults : List (Option ℕ)
  deriving DecidableEq

namespace Socket

def write (k : Socket) (b : Bytes) : Option Err × Socket :=
  match k.faults with
  | [] => (none,{k with sent := k.sent++b})
  | none::faults => (none,⟨k.sent++b,faults⟩)
  | some n::faults => (some .device,⟨k.sent++b.take n,faults⟩)

/-- Writes up to the first that fails. -/
def writeAll : List Bytes → Socket → Option Err × Socket
  | [],k => (none,k)
  | b::bs,k =>
      match k.write b with
      | (some e,k) => (some e,k)
      | (none,k) => writeAll bs k

/-- No write fails. -/
def Reliable (k : Socket) : Prop := ∀ f ∈ k.faults, f = none

end Socket

/-- The handler with its stores, the disk, the connection and the value of
`KAGE_ADVERTISED_HOST`. -/
structure State where
  handler : Handler
  disk : Disk
  socket : Socket
  advertised : Bytes

/-- A broker that was started on an empty root, and a new connection. -/
def idle : State := ⟨newHandler ⟨[],⟨0⟩,∅⟩,emptyRoot,⟨[],[]⟩,[]⟩

def State.withStore (st : State) (bs : BrokerStore) (d : Disk) : State :=
  {st with handler := {st.handler with store := bs}, disk := d}

def State.advertisedHost (st : State) : Bytes :=
  if st.advertised = [] then ascii "127.0.0.1" else st.advertised

/-- What a request ends in: the bytes behind it, an error that closes the
connection, or the end of the process. -/
inductive Result where
  | next (rest : Bytes) (st : State)
  | stop (e : Err) (st : State)
  | panic

/-- What a handler does between parsing and writing: nothing if it takes the
process down, else the calls of `Write` that it makes, if it answers. -/
abbrev Work (α : Type) := α → State → Option (Option (List Bytes) × State)

/-- The frame of the handlers. -/
def served {α : Type} (parseText writeText : String) (parse : Parser α) (work : Work α)
    (s : Bytes) (st : State) : Result :=
  match parse s with
  | .panic => .panic
  | .error e => .stop (.wrap parseText e) st
  | .ok req rest =>
      match work req st with
      | none => .panic
      | some (none,st) => .next rest st
      | some (some writes,st) =>
          match st.socket.writeAll writes with
          | (none,k) => .next rest {st with socket := k}
          | (some e,k) => .stop (.wrap writeText e) {st with socket := k}

/-- A single message that the state determines. -/
def answer {α : Type} (message : α → State → Bytes) : Work α := fun req st =>
  some (some [fullMessage (message req st)],st)

/-! ## The work of the handlers -/

def produceWork (header : RequestHeader) : Work ProduceRequest := fun req st =>
  match handleProduce req st.handler.store st.disk with
  | (none,_,_,_) => none
  | (some topics,_,bs,d) =>
      let st := st.withStore bs d
      if req.acks = AcksNone then some (none,st)
      else some (some [fullMessage (encodeProduceResponse header.correlationID topics)],st)

def fetchWork (header : RequestHeader) : Work WireFetchRequest := fun req st =>
  match answerFetch req.toFetchRequest st.handler.store st.disk with
  | none => none
  | some (topics,bs,d) =>
      some (some (writeFetchResponse header.correlationID 0 topics),st.withStore bs d)

def listOffsetsPartition (topicName : WireString) (part : ListOffsetsPartitionRequest)
    (bs : BrokerStore) (d : Disk) : ListOffsetsPartitionResponse × BrokerStore × Disk :=
  let partResp : ListOffsetsPartitionResponse := {partition := part.partition, timestamp := -1}
  if part.timestamp = TimestampEarliest then ({partResp with offset := 0},bs,d)
  else if part.timestamp = TimestampLatest then
    match bs.getOrCreatePartition topicName.1 part.partition d with
    | (.error _,bs,d) => ({partResp with errorCode := ErrCodeUnknownTopicOrPartition},bs,d)
    | (.ok ps,bs,d) => ({partResp with offset := ps.Size},bs,d)
  else ({partResp with offset := 0},bs,d)

def listOffsetsPartitions (topicName : WireString) : List ListOffsetsPartitionRequest →
    BrokerStore → Disk → List ListOffsetsPartitionResponse × BrokerStore × Disk
  | [],bs,d => ([],bs,d)
  | part::parts,bs,d =>
      match listOffsetsPartition topicName part bs d with
      | (resp,bs,d) =>
          match listOffsetsPartitions topicName parts bs d with
          | (resps,bs,d) => (resp::resps,bs,d)

def handleListOffsets : List ListOffsetsTopicRequest → BrokerStore → Disk →
    List ListOffsetsTopicResponse × BrokerStore × Disk
  | [],bs,d => ([],bs,d)
  | topic::topics,bs,d =>
      match listOffsetsPartitions topic.topicName topic.partitions bs d with
      | (parts,bs,d) =>
          match handleListOffsets topics bs d with
          | (resps,bs,d) => (⟨topic.topicName,parts⟩::resps,bs,d)

def listOffsetsWork (header : RequestHeader) : Work ListOffsetsRequest := fun req st =>
  match handleListOffsets req.topics st.handler.store st.disk with
  | (topics,bs,d) =>
      some (some [fullMessage (encodeListOffsetsResponse header.correlationID topics)],
        st.withStore bs d)

/-- Requested topics are created; one that cannot be is passed over. -/
def ensureTopics : List WireString → BrokerStore → Disk → BrokerStore × Disk
  | [],bs,d => (bs,d)
  | t::ts,bs,d =>
      match bs.getOrCreatePartition t.1 0 d with
      | (_,bs,d) => ensureTopics ts bs d

def byTopic (tps : List TopicPartition) : List TopicMetadata :=
  (tps.map TopicPartition.topic).eraseDups.map fun topicName => {
    errorCode := 0
    name := topicName
    partitions := (tps.filter fun tp => tp.topic = topicName).map fun tp =>
      {errorCode := 0, partition := tp.partition, leader := 1, replicas := [1], isr := [1]}}

def metadataWork (header : RequestHeader) : Work MetadataRequest := fun req st =>
  match ensureTopics req.topics st.handler.store st.disk with
  | (bs,d) =>
      let resp : MetadataResponse :=
        ⟨[⟨1,st.advertisedHost,9092,none⟩],none,1,byTopic bs.topics⟩
      some (some [fullMessage (encodeMetadataResponse header.correlationID header.apiVersion resp)],
        st.withStore bs d)

def offsetCommitWork (header : RequestHeader) : Work WireOffsetCommitRequest := fun req st =>
  match handleOffsetCommit req.request st.handler st.disk with
  | (topics,h,d) =>
      some (some [fullMessage (encodeOffsetCommitResponse header.correlationID topics)],
        {st with handler := h, disk := d})

def offsetFetchWork (header : RequestHeader) : Work OffsetFetchRequest := answer fun req st =>
  encodeOffsetFetchResponse header.correlationID (handleOffsetFetch req st.handler)

def findCoordinatorWork (header : RequestHeader) : Work FindCoordinatorRequest :=
  answer fun _ st => encodeFindCoordinatorResponse header.correlationID 1 st.advertisedHost 9092

/-- The first protocol on offer is the chosen one. -/
def joinGroupWork (header : RequestHeader) : Work JoinGroupRequest := answer fun req _ =>
  let chosen : Bytes × Bytes := match req.protocols with
    | [] => ([],[])
    | p::_ => (p.name.1,p.metadata)
  encodeJoinGroupResponse header.correlationID 1 chosen.1 dummyMemberID dummyMemberID
    [⟨dummyMemberID,chosen.2⟩]

def heartbeatWork (header : RequestHeader) : Work HeartbeatRequest :=
  answer fun _ _ => encodeHeartbeatResponse header.correlationID

def leaveGroupWork (header : RequestHeader) : Work LeaveGroupRequest :=
  answer fun _ _ => encodeLeaveGroupResponse header.correlationID

/-- The assignment of the only member goes back as it came. -/
def syncGroupWork (header : RequestHeader) : Work SyncGroupRequest := answer fun req _ =>
  encodeSyncGroupResponse header.correlationID
    (((req.assignments.find? fun a => a.memberID.1 = dummyMemberID).map
      SyncGroupAssignment.assignment).getD [])

def apiVersionsWork (header : RequestHeader) : Work Unit :=
  answer fun _ _ => encodeApiVersionsResponse header.correlationID

/-! ## Dispatch and the loop -/

def dispatch (header : RequestHeader) : Bytes → State → Result :=
  if header.apiKey = ApiKeyProduce then
    served "handleProduce: parse" "handleProduce: write response" (parseProduceRequest header)
      (produceWork header)
  else if header.apiKey = ApiKeyFetch then
    served "handleFetch: parse" "handleFetch: write response" parseFetchRequest (fetchWork header)
  else if header.apiKey = ApiKeyListOffsets then
    served "handleListOffsets: parse" "handleListOffsets: write response" parseListOffsetsRequest
      (listOffsetsWork header)
  else if header.apiKey = ApiKeyMetadata then
    served "handleMetadata" "handleMetadata: failed to write response"
      (parseMetadataRequest header) (metadataWork header)
  else if header.apiKey = ApiKeyOffsetCommit then
    served "handleOffsetCommit: parse" "handleOffsetCommit: write response"
      parseOffsetCommitRequest (offsetCommitWork header)
  else if header.apiKey = ApiKeyOffsetFetch then
    served "handleOffsetFetch: parse" "handleOffsetFetch: write response" parseOffsetFetchRequest
      (offsetFetchWork header)
  else if header.apiKey = ApiKeyFindCoordinator then
    served "handleFindCoordinator: parse" "handleFindCoordinator: write response"
      parseFindCoordinatorRequest (findCoordinatorWork header)
  else if header.apiKey = ApiKeyJoinGroup then
    served "handleJoinGroup: parse" "handleJoinGroup: write response" parseJoinGroupRequest
      (joinGroupWork header)
  else if header.apiKey = ApiKeyHeartbeat then
    served "handleHeartbeat: parse" "handleHeartbeat: write response" parseHeartbeatRequest
      (heartbeatWork header)
  else if header.apiKey = ApiKeyLeaveGroup then
    served "handleLeaveGroup: parse" "handleLeaveGroup: write response" parseLeaveGroupRequest
      (leaveGroupWork header)
  else if header.apiKey = ApiKeySyncGroup then
    served "handleSyncGroup: parse" "handleSyncGroup: write response" parseSyncGroupRequest
      (syncGroupWork header)
  else if header.apiKey = ApiKeyApiVersions then
    -- The body is not looked at.
    served "" "handleApiVersions: write response" (pure ()) (apiVersionsWork header)
  else fun _ st => .stop (.sentinel "unsupported api_key: %d") st

/-- How a connection ends. -/
inductive Ending where
  | closed (st : State)
  | panic

/-- The loop over the requests. Every pass takes a header off the stream, so its
length bounds the passes. -/
def handleLoop : ℕ → Bytes → State → Ending
  | 0,_,st => .closed st
  | fuel+1,s,st =>
      match parseRequestHeader s with
      | .panic => .panic
      | .error _ => .closed st
      | .ok header rest =>
          match dispatch header rest st with
          | .panic => .panic
          | .stop _ st => .closed st
          | .next rest st => handleLoop fuel rest st

def handle (s : Bytes) (st : State) : Ending := handleLoop (s.length+1) s st

/-- The layout that the handler of a key parses. -/
def bodyLayout (apiKey apiVersion : Int16) : Option Layout :=
  if apiKey = ApiKeyProduce then some (produceLayout apiVersion)
  else if apiKey = ApiKeyFetch then some fetchLayout
  else if apiKey = ApiKeyListOffsets then some listOffsetsLayout
  else if apiKey = ApiKeyMetadata then some (metadataLayout apiVersion)
  else if apiKey = ApiKeyOffsetCommit then some offsetCommitLayout
  else if apiKey = ApiKeyOffsetFetch then some offsetFetchLayout
  else if apiKey = ApiKeyFindCoordinator then some findCoordinatorLayout
  else if apiKey = ApiKeyJoinGroup then some joinGroupLayout
  else if apiKey = ApiKeyHeartbeat then some heartbeatLayout
  else if apiKey = ApiKeyLeaveGroup then some leaveGroupLayout
  else if apiKey = ApiKeySyncGroup then some syncGroupLayout
  else if apiKey = ApiKeyApiVersions then some .done
  else none

/-! ## What a handler reads and writes -/

/-- The field that asks for no answer, at its place in the body of a produce
request. -/
def acksOf (apiVersion : Int16) (body : Bytes) : Int16 :=
  toInt16 ((if apiVersion ≥ 3 then (skipString body).getD [] else body).take 2)

/-- Requests that are not answered. -/
def Silent (apiKey apiVersion : Int16) (body : Bytes) : Prop :=
  apiKey = ApiKeyProduce ∧ acksOf apiVersion body = AcksNone

/-- An answer is one framed message that begins with the correlation id. -/
def Reply (header : RequestHeader) (body : Bytes) : Option (List Bytes) → Prop
  | none => Silent header.apiKey header.apiVersion body
  | some writes => ¬Silent header.apiKey header.apiVersion body ∧
      ∃ fields, writes.flatten = fullMessage (writeInt32 header.correlationID++fields)

/-- A handler parses its layout and leaves the writing to its frame. -/
structure Serves {α : Type} (header : RequestHeader) (parse : Parser α) (work : Work α)
    (L : Layout) : Prop where
  spans : Spans parse L
  socket : ∀ req st out st', work req st = some (out,st') → st'.socket = st.socket
  replies : ∀ s req rest st out st', parse s = .ok req rest → work req st = some (out,st') →
    Reply header s out

section Serving
variable {header : RequestHeader} {α : Type} {parse : Parser α} {L : Layout}

theorem parseProduceBody_acks {s rest : Bytes} {req : ProduceRequest}
    (h : parseProduceBody s = .ok req rest) : req.acks = toInt16 (s.take 2) := by
  obtain ⟨acks,s₁,ha,h⟩ := bind_eq_ok h
  obtain ⟨timeoutMs,s₂,-,h⟩ := bind_eq_ok h
  obtain ⟨topics,s₃,-,h⟩ := bind_eq_ok h
  cases h
  exact ((reads_readInt16.context _).of_ok ha).1

theorem parseProduceRequest_acks {s rest : Bytes} {req : ProduceRequest}
    (h : parseProduceRequest header s = .ok req rest) :
    req.acks = acksOf header.apiVersion s := by
  unfold parseProduceRequest at h
  unfold acksOf
  split at h
  next hv =>
    obtain ⟨u,t,ht,h⟩ := bind_eq_ok h
    have hs : skipString s = some t := by rw [← takes_readTransactionalID.1 s,ht,remaining_ok]
    rw [if_pos hv,hs,parseProduceBody_acks h]
    rfl
  next hv => rw [if_neg hv,parseProduceBody_acks h]

/-- A handler that always sends one message serves its layout. -/
theorem serves_message (hk : header.apiKey ≠ ApiKeyProduce) (hs : Spans parse L) {work : Work α}
    (hw : ∀ req st, ∃ fields st', work req st =
        some (some [fullMessage (writeInt32 header.correlationID++fields)],st') ∧
      st'.socket = st.socket) :
    Serves header parse work L where
  spans := hs
  socket := by
    intro req st out st' h
    obtain ⟨fields,st₁,hx,hsock⟩ := hw req st
    rw [hx] at h
    cases h
    exact hsock
  replies := by
    intro s req rest st out st' _ h
    obtain ⟨fields,st₁,hx,-⟩ := hw req st
    rw [hx] at h
    cases h
    exact ⟨fun hn => hk hn.1,fields,List.flatten_singleton⟩

/-- What a produce request that does not take the process down leaves and sends. -/
theorem produceWork_eq_some {req : ProduceRequest} {st st' : State} {out : Option (List Bytes)}
    (h : produceWork header req st = some (out,st')) :
    ∃ topics calls bs d,
      handleProduce req st.handler.store st.disk = (some topics,calls,bs,d) ∧
      st' = st.withStore bs d ∧ out = if req.acks = AcksNone then none
        else some [fullMessage (encodeProduceResponse header.correlationID topics)] := by
  unfold produceWork at h
  rcases hx : handleProduce req st.handler.store st.disk with ⟨_|topics,calls,bs,d⟩
  · rw [hx] at h
    cases h
  · rw [hx] at h
    simp only at h
    refine ⟨topics,calls,bs,d,rfl,?_⟩
    split at h
    next hz =>
      cases h
      exact ⟨rfl,(if_pos hz).symm⟩
    next hz =>
      cases h
      exact ⟨rfl,(if_neg hz).symm⟩

theorem serves_produce (hk : header.apiKey = ApiKeyProduce) :
    Serves header (parseProduceRequest header) (produceWork header)
      (produceLayout header.apiVersion) where
  spans := (walks_parseProduceRequest header).1
  socket := by
    intro req st out st' h
    obtain ⟨topics,calls,bs,d,-,rfl,-⟩ := produceWork_eq_some h
    rfl
  replies := by
    intro s req rest st out st' hp h
    have ha := parseProduceRequest_acks hp
    obtain ⟨topics,calls,bs,d,-,-,rfl⟩ := produceWork_eq_some h
    split
    next hz => exact ⟨hk,ha.symm.trans hz⟩
    next hz => exact ⟨fun hn => hz (ha.trans hn.2),_,List.flatten_singleton⟩

theorem fetchWork_eq_some {req : WireFetchRequest} {st st' : State} {out : Option (List Bytes)}
    (h : fetchWork header req st = some (out,st')) :
    ∃ topics bs d, answerFetch req.toFetchRequest st.handler.store st.disk = some (topics,bs,d) ∧
      st' = st.withStore bs d ∧ out = some (writeFetchResponse header.correlationID 0 topics) := by
  unfold fetchWork at h
  rcases hx : answerFetch req.toFetchRequest st.handler.store st.disk with _|⟨topics,bs,d⟩
  · rw [hx] at h
    cases h
  · rw [hx] at h
    cases h
    exact ⟨topics,bs,d,rfl,rfl,rfl⟩

theorem serves_fetch (hk : header.apiKey ≠ ApiKeyProduce) :
    Serves header parseFetchRequest (fetchWork header) fetchLayout where
  spans := walks_parseFetchRequest.1
  socket := by
    intro req st out st' h
    obtain ⟨topics,bs,d,-,rfl,-⟩ := fetchWork_eq_some h
    rfl
  replies := by
    intro s req rest st out st' _ h
    obtain ⟨topics,bs,d,ha,-,rfl⟩ := fetchWork_eq_some h
    have hs := handleFetch_sized req.toFetchRequest st.handler.store st.disk
    rw [handleFetch_of_answerFetch ha] at hs
    exact ⟨fun hn => hk hn.1,writeFetchResponse_flatten hs _ _⟩

/-- A function refuses every request, or it is a handler of a layout. -/
def Handles (header : RequestHeader) (layout : Option Layout)
    (f : Bytes → State → Result) : Prop :=
  (layout = none ∧ ∀ s st, ∃ e, f s st = .stop e st) ∨
    ∃ (α : Type) (parse : Parser α) (work : Work α) (parseText writeText : String) (L : Layout),
      layout = some L ∧ f = served parseText writeText parse work ∧ Serves header parse work L

theorem handles_ite {c : Prop} [Decidable c] {o o' : Option Layout}
    {f f' : Bytes → State → Result} (h : c → Handles header o f)
    (h' : ¬c → Handles header o' f') :
    Handles header (if c then o else o') (if c then f else f') := by
  by_cases hc : c
  · rw [if_pos hc,if_pos hc]
    exact h hc
  · rw [if_neg hc,if_neg hc]
    exact h' hc

theorem handles_served {work : Work α} {parseText writeText : String}
    (h : Serves header parse work L) :
    Handles header (some L) (served parseText writeText parse work) :=
  .inr ⟨α,parse,work,parseText,writeText,L,rfl,rfl,h⟩

/-- Every key is refused or served by a handler of its layout. -/
theorem handles_dispatch (header : RequestHeader) :
    Handles header (bodyLayout header.apiKey header.apiVersion) (dispatch header) := by
  refine handles_ite (fun hp => handles_served (serves_produce hp)) fun hp => ?_
  refine handles_ite (fun _ => handles_served (serves_fetch hp)) fun _ => ?_
  refine handles_ite (fun _ => handles_served
    (serves_message hp walks_parseListOffsetsRequest.1 fun _ _ => ⟨_,_,rfl,rfl⟩)) fun _ => ?_
  refine handles_ite (fun _ => handles_served
    (serves_message hp (walks_parseMetadataRequest header).1 fun _ _ => ⟨_,_,rfl,rfl⟩)) fun _ => ?_
  refine handles_ite (fun _ => handles_served
    (serves_message hp walks_parseOffsetCommitRequest.1 fun _ _ => ⟨_,_,rfl,rfl⟩)) fun _ => ?_
  refine handles_ite (fun _ => handles_served
    (serves_message hp walks_parseOffsetFetchRequest.1 fun _ _ => ⟨_,_,rfl,rfl⟩)) fun _ => ?_
  refine handles_ite (fun _ => handles_served
    (serves_message hp walks_parseFindCoordinatorRequest.1 fun _ _ => ⟨_,_,rfl,rfl⟩)) fun _ => ?_
  refine handles_ite (fun _ => handles_served
    (serves_message hp walks_parseJoinGroupRequest.1 fun _ _ => ⟨_,_,rfl,rfl⟩)) fun _ => ?_
  refine handles_ite (fun _ => handles_served
    (serves_message hp walks_parseHeartbeatRequest.1 fun _ _ => ⟨_,_,rfl,rfl⟩)) fun _ => ?_
  refine handles_ite (fun _ => handles_served
    (serves_message hp walks_parseLeaveGroupRequest.1 fun _ _ => ⟨_,_,rfl,rfl⟩)) fun _ => ?_
  refine handles_ite (fun _ => handles_served
    (serves_message hp walks_parseSyncGroupRequest.1 fun _ _ => ⟨_,_,rfl,rfl⟩)) fun _ => ?_
  refine handles_ite (fun _ => handles_served
    (serves_message hp (.pure ()) fun _ _ => ⟨_,_,rfl,rfl⟩)) fun _ => ?_
  exact .inl ⟨rfl,fun _ _ => ⟨_,rfl⟩⟩

theorem served_next {work : Work α} {parseText writeText : String} {s rest : Bytes}
    {st st' : State} (h : served parseText writeText parse work s st = .next rest st') :
    (parse s).remaining = some rest := by
  unfold served at h
  cases hp : parse s with
  | panic =>
      rw [hp] at h
      cases h
  | error e =>
      rw [hp] at h
      cases h
  | ok req t =>
      rw [hp] at h
      simp only at h
      rcases hw : work req st with _|⟨_|writes,st₁⟩
      · simp only [hw] at h
        cases h
      · simp only [hw] at h
        cases h
        rfl
      · simp only [hw] at h
        rcases hk : st₁.socket.writeAll writes with ⟨_|e,k⟩
        · simp only [hk] at h
          cases h
          rfl
        · simp only [hk] at h
          cases h

/-- A request that is served takes an instance of its layout off the stream. -/
theorem dispatch_next {s rest : Bytes} {st st' : State}
    (h : dispatch header s st = .next rest st') :
    ∃ L, bodyLayout header.apiKey header.apiVersion = some L ∧ skip L s = some rest := by
  rcases handles_dispatch header with ⟨-,hstop⟩|⟨α,parse,work,_,_,L,hL,hd,hs⟩
  · obtain ⟨e,he⟩ := hstop s st
    rw [h] at he
    cases he
  · rw [hd] at h
    exact ⟨L,hL,by rw [← hs.spans s,served_next h]⟩

end Serving

end Kage.RequestHandlers
