import Kage.AtomicPrograms
import Kage.SegmentGrowth
import Kage.RequestHandlers

/-!
# The handlers as programs

Connections are served side by side and share the stores, the disk and the
cache of committed offsets. Each handler is written here as a program whose
calls are what the source does under one lock: the lookup of a partition under
the read lock, its creation under the write lock, an append, a size and a read
under the lock of the partition, a listing of the partitions, and an update and
a lookup of the cache. Reading the section that a read has handed out takes no
lock and is a call of its own. Everything between two calls is local to the
connection, and so is its socket.

A section refers to the file that was open when it was handed out. Files are
told apart by how many segments the store had opened before, and a file is
closed once the store has opened another. Stores are never removed, so the key
of a partition that was found or created always leads to its store.

A connection that is served alone does what the sequential handlers do.
-/
namespace Kage.BrokerPrograms
open ByteStrings FaultyDisk StreamParsers PartitionLog SegmentGrowth BrokerStores FetchHandler
open RecordBatches OffsetRecords OffsetHandlers RequestParsers ProduceHandler ResponseEncoders
open RequestHandlers AtomicPrograms

/-- What a read hands out: a range of the file that was the newest one of the
partition when this many had been opened. -/
structure Section where
  topic : Bytes
  partition : Int32
  opened : ℕ
  pos : ℤ
  limit : ℤ
  deriving DecidableEq

inductive Op where
  | find (topic : Bytes) (partition : Int32)
  | create (topic : Bytes) (partition : Int32)
  | append (topic : Bytes) (partition : Int32) (data : Bytes)
  | size (topic : Bytes) (partition : Int32)
  | read (topic : Bytes) (partition : Int32) (fetchOffset : UInt64) (maxBytes : Int32)
  | readFull (r : Section) (n : ℕ)
  | topics
  | cache (c : Commit)
  | offsets (req : OffsetFetchRequest)

abbrev Op.Reply : Op → Type
  | .find _ _ => Bool
  | .create _ _ => Option Err
  | .append _ _ _ => Except Err UInt64
  | .size _ _ => Int64
  | .read _ _ _ _ => Except Err (Section × Int32)
  | .readFull _ _ => Except Err Bytes
  | .topics => List TopicPartition
  | .cache _ => Unit
  | .offsets _ => List OffsetFetchTopicResponse

abbrev BrokerProgram := Program Op Op.Reply

/-- What the connections share. The last field counts the segments that the
stores have opened since they were created. -/
structure Shared where
  handler : Handler
  disk : Disk
  opened : Bytes → ℕ

namespace Shared

def store (b : Shared) (topic : Bytes) (partition : Int32) : Option PartitionStore :=
  b.handler.store.stores.lookup (partitionKey topic partition)

def withStore (b : Shared) (bs : BrokerStore) (d : Disk) : Shared :=
  {b with handler := {b.handler with store := bs}, disk := d}

@[simp] theorem withStore_disk (b : Shared) (bs : BrokerStore) (d : Disk) :
    (b.withStore bs d).disk = d := rfl

@[simp] theorem withStore_opened (b : Shared) (bs : BrokerStore) (d : Disk) :
    (b.withStore bs d).opened = b.opened := rfl

/-- A store was used and goes back into the map. -/
def update (b : Shared) (topic : Bytes) (partition : Int32) (ps : PartitionStore) (d : Disk) :
    Shared := b.withStore (b.handler.store.put topic partition ps) d

/-- The file of a section as it is now. -/
def fileOf (b : Shared) (r : Section) (ps : PartitionStore) : File :=
  if r.opened = b.opened (partitionKey r.topic r.partition) then ps.active.file
  else {ps.active.file with closed := true}

end Shared

/-- The answer of an operation on a store that does not exist; no program asks
for one. -/
def noStore : Err := .sentinel "storage: no partition"

def respond : Impl Op Op.Reply Shared
  | .find topic partition,b => ((b.store topic partition).isSome,b)
  | .create topic partition,b =>
      match b.handler.store.getOrCreatePartition topic partition b.disk with
      | (.error e,bs,d) => (some e,b.withStore bs d)
      | (.ok _,bs,d) => (none,b.withStore bs d)
  | .append topic partition data,b =>
      match b.store topic partition with
      | none => (.error noStore,b)
      | some ps =>
          match ps.append data b.disk with
          | (result,qs,d) =>
              let key := partitionKey topic partition
              (result,{b.update topic partition qs d with
                opened := if Switches ps data b.disk then
                  Function.update b.opened key (b.opened key+1) else b.opened})
  | .size topic partition,b =>
      match b.store topic partition with
      | none => (0,b)
      | some ps => (ps.Size,b)
  | .read topic partition fetchOffset maxBytes,b =>
      match b.store topic partition with
      | none => (.error noStore,b)
      | some ps =>
          match ps.read fetchOffset maxBytes b.disk with
          | (.error e,qs,d) => (.error e,b.update topic partition qs d)
          | (.ok (r,n),qs,d) =>
              (.ok (⟨topic,partition,b.opened (partitionKey topic partition),r.pos,r.limit⟩,n),
                b.update topic partition qs d)
  | .readFull r n,b =>
      match b.store r.topic r.partition with
      | none => (.error noStore,b)
      | some ps =>
          match SectionReader.readFull ⟨b.fileOf r ps,r.pos,r.limit⟩ n b.disk with
          | (result,_,d) => (result,{b with disk := d})
  | .topics,b => (b.handler.store.topics,b)
  | .cache c,b =>
      ((),{b with handler :=
        {b.handler with offsetCache := cacheCommit c b.handler.offsetCache}})
  | .offsets req,b => (handleOffsetFetch req b.handler,b)

/-! ## The calls -/

def callFind (topic : Bytes) (partition : Int32) : BrokerProgram Bool :=
  Program.perform (Op.find topic partition)

def callCreate (topic : Bytes) (partition : Int32) : BrokerProgram (Option Err) :=
  Program.perform (Op.create topic partition)

def callAppend (topic : Bytes) (partition : Int32) (data : Bytes) :
    BrokerProgram (Except Err UInt64) := Program.perform (Op.append topic partition data)

def callSize (topic : Bytes) (partition : Int32) : BrokerProgram Int64 :=
  Program.perform (Op.size topic partition)

def callRead (topic : Bytes) (partition : Int32) (fetchOffset : UInt64) (maxBytes : Int32) :
    BrokerProgram (Except Err (Section × Int32)) :=
  Program.perform (Op.read topic partition fetchOffset maxBytes)

def callReadFull (r : Section) (n : ℕ) : BrokerProgram (Except Err Bytes) :=
  Program.perform (Op.readFull r n)

/-! ## The handlers -/

/-- The lookup, and the creation when nothing was found. The store is reached by
its key afterwards, so only an error is returned. -/
def getOrCreatePartitionProgram (topic : Bytes) (partition : Int32) :
    BrokerProgram (Option Err) := do
  match ← callFind topic partition with
  | true => return none
  | false => callCreate topic partition

def storeBatchProgram (topicName : WireString) (part : ProducePartitionData)
    (recordCount : Int32) : BrokerProgram (Option ProducePartitionResponse) := do
  match ← getOrCreatePartitionProgram topicName.1 part.partition with
  | some _ => return some ⟨part.partition,1,-1⟩
  | none =>
      let result ← callAppend topicName.1 part.partition part.recordBatch
      if validUTF8 topicName.1 = false then return none else
        match result with
        | .error _ => return some ⟨part.partition,1,-1⟩
        | .ok offset =>
            if recordCount < 0 then return none
            else return some ⟨part.partition,0,offset.toInt64⟩

def producePartitionProgram (topicName : WireString) (part : ProducePartitionData) :
    BrokerProgram (Option ProducePartitionResponse) :=
  if part.recordBatch.length > 0 then
    match validateRecordBatch part.recordBatch with
    | none => return none
    | some (.error _) => return some ⟨part.partition,ErrCodeCorruptMessage,-1⟩
    | some (.ok recordCount) => storeBatchProgram topicName part recordCount
  else storeBatchProgram topicName part 0

/-- One entry after another; no answer means that the process has gone down. -/
def forEach {α β : Type} (f : α → BrokerProgram (Option β)) :
    List α → BrokerProgram (Option (List β))
  | [] => return some []
  | a::as => do
      match ← f a with
      | none => return none
      | some b => return (← forEach f as).map (b::·)

def handleProduceProgram (req : ProduceRequest) :
    BrokerProgram (Option (List ProduceTopicResponse)) :=
  forEach (fun topic => do
    return (← forEach (producePartitionProgram topic.topicName) topic.partitions).map
      (⟨topic.topicName,·⟩)) req.topics

/-- The counter of served batches accepts only UTF-8. -/
def fetchPartitionProgram (topicName : Bytes) (part : FetchPartitionData) (remaining : Int32) :
    BrokerProgram (Option (FetchPartitionResponse × Int32)) := do
  let partResp : FetchPartitionResponse := {partition := part.partition}
  match ← getOrCreatePartitionProgram topicName part.partition with
  | some _ => return some ({partResp with errorCode := ErrCodeOffsetOutOfRange},remaining)
  | none =>
      let highWatermark ← callSize topicName part.partition
      let partResp := {partResp with highWatermark := highWatermark}
      if part.fetchOffset = highWatermark then
        return some ({partResp with errorCode := ErrCodeNone},remaining) else
      if part.fetchOffset > highWatermark then
        return some ({partResp with errorCode := ErrCodeOffsetOutOfRange},remaining) else
        let cap := if remaining < part.partitionMaxBytes then remaining
          else part.partitionMaxBytes
        if cap ≤ 0 then return some ({partResp with errorCode := ErrCodeNone},remaining) else
          match ← callRead topicName part.partition part.fetchOffset.toUInt64 (cap+4) with
          | .error _ =>
              return some ({partResp with errorCode := ErrCodeOffsetOutOfRange},remaining)
          | .ok (r,n) =>
              match ← callReadFull r n.toInt.toNat with
              | .error _ =>
                  return some ({partResp with errorCode := ErrCodeOffsetOutOfRange},remaining)
              | .ok raw =>
                  if raw.length < recHdr then
                    return some ({partResp with errorCode := ErrCodeOffsetOutOfRange},remaining)
                  else if validUTF8 topicName = false then return none else
                    let payload := patch part.fetchOffset.toUInt64 (raw.drop recHdr)
                    let payloadLen := Int32.ofNat payload.length
                    return some ({partResp with
                      errorCode := ErrCodeNone
                      recordBatch := some payload
                      batchSize := payloadLen},remaining-payloadLen)

def fetchPartitionsProgram (topicName : Bytes) : List FetchPartitionData → Int32 →
    BrokerProgram (Option (List FetchPartitionResponse × Int32))
  | [],remaining => return some ([],remaining)
  | part::parts,remaining => do
      match ← fetchPartitionProgram topicName part remaining with
      | none => return none
      | some (resp,remaining) =>
          return (← fetchPartitionsProgram topicName parts remaining).map fun x =>
            (resp::x.1,x.2)

def fetchTopicsProgram : List FetchTopicData → Int32 →
    BrokerProgram (Option (List FetchTopicResponse))
  | [],_ => return some []
  | topic::topics,remaining => do
      match ← fetchPartitionsProgram topic.topicName topic.partitions remaining with
      | none => return none
      | some (parts,remaining) =>
          return (← fetchTopicsProgram topics remaining).map (⟨topic.topicName,parts⟩::·)

def handleFetchProgram (req : FetchRequest) : BrokerProgram (Option (List FetchTopicResponse)) :=
  fetchTopicsProgram req.topics req.maxBytes

def listOffsetsPartitionProgram (topicName : WireString) (part : ListOffsetsPartitionRequest) :
    BrokerProgram (Option ListOffsetsPartitionResponse) := do
  let partResp : ListOffsetsPartitionResponse := {partition := part.partition, timestamp := -1}
  if part.timestamp = TimestampEarliest then return some {partResp with offset := 0}
  else if part.timestamp = TimestampLatest then
    match ← getOrCreatePartitionProgram topicName.1 part.partition with
    | some _ => return some {partResp with errorCode := ErrCodeUnknownTopicOrPartition}
    | none => return some {partResp with offset := ← callSize topicName.1 part.partition}
  else return some {partResp with offset := 0}

def handleListOffsetsProgram (topics : List ListOffsetsTopicRequest) :
    BrokerProgram (Option (List ListOffsetsTopicResponse)) :=
  forEach (fun topic => do
    return (← forEach (listOffsetsPartitionProgram topic.topicName) topic.partitions).map
      (⟨topic.topicName,·⟩)) topics

def commitPartitionProgram (c : Commit) :
    BrokerProgram (Option OffsetCommitPartitionResponse) := do
  match ← getOrCreatePartitionProgram ConsumerOffsetsTopic 0 with
  | some _ => return some ⟨c.partition,1⟩
  | none =>
      match ← callAppend ConsumerOffsetsTopic 0 c.record with
      | .error _ => return some ⟨c.partition,1⟩
      | .ok _ =>
          Program.call (.cache c) fun _ => return some ⟨c.partition,0⟩

def handleOffsetCommitProgram (req : OffsetCommitRequest) :
    BrokerProgram (Option (List OffsetCommitTopicResponse)) :=
  forEach (fun topic => do
    return (← forEach (fun part => commitPartitionProgram
      ⟨req.groupID,topic.topicName,part.partition,part.committedOffset⟩) topic.partitions).map
      (⟨topic.topicName,·⟩)) req.topics

def handleOffsetFetchProgram (req : OffsetFetchRequest) :
    BrokerProgram (List OffsetFetchTopicResponse) := Program.perform (Op.offsets req)

def ensureTopicsProgram : List WireString → BrokerProgram Unit
  | [] => return ()
  | t::ts => do
      let _ ← getOrCreatePartitionProgram t.1 0
      ensureTopicsProgram ts

def handleMetadataProgram (topics : List WireString) : BrokerProgram (List TopicMetadata) := do
  ensureTopicsProgram topics
  return byTopic (← Program.perform .topics)

/-! ## A connection -/

/-- What a handler does between parsing and writing; see `Work`. -/
abbrev WorkProgram (α : Type) := α → BrokerProgram (Option (Option (List Bytes)))

/-- A single message. -/
def message {α : Type} (m : α → Bytes) : WorkProgram α := fun req =>
  return some (some [fullMessage (m req)])

def produceProgram (header : RequestHeader) : WorkProgram ProduceRequest := fun req => do
  match ← handleProduceProgram req with
  | none => return none
  | some topics =>
      if req.acks = AcksNone then return some none
      else return some (some [fullMessage (encodeProduceResponse header.correlationID topics)])

def fetchProgram (header : RequestHeader) : WorkProgram WireFetchRequest := fun req => do
  match ← handleFetchProgram req.toFetchRequest with
  | none => return none
  | some topics => return some (some (writeFetchResponse header.correlationID 0 topics))

def listOffsetsProgram (header : RequestHeader) : WorkProgram ListOffsetsRequest := fun req => do
  match ← handleListOffsetsProgram req.topics with
  | none => return none
  | some topics =>
      return some (some [fullMessage (encodeListOffsetsResponse header.correlationID topics)])

def metadataProgram (advertisedHost : Bytes) (header : RequestHeader) :
    WorkProgram MetadataRequest := fun req => do
  let topics ← handleMetadataProgram req.topics
  let resp : MetadataResponse := ⟨[⟨1,advertisedHost,9092,none⟩],none,1,topics⟩
  return some (some [fullMessage
    (encodeMetadataResponse header.correlationID header.apiVersion resp)])

def offsetCommitProgram (header : RequestHeader) : WorkProgram WireOffsetCommitRequest :=
  fun req => do
    match ← handleOffsetCommitProgram req.request with
    | none => return none
    | some topics =>
        return some (some [fullMessage (encodeOffsetCommitResponse header.correlationID topics)])

def offsetFetchProgram (header : RequestHeader) : WorkProgram OffsetFetchRequest := fun req => do
  let topics ← handleOffsetFetchProgram req
  return some (some [fullMessage (encodeOffsetFetchResponse header.correlationID topics)])

def findCoordinatorProgram (advertisedHost : Bytes) (header : RequestHeader) :
    WorkProgram FindCoordinatorRequest :=
  message fun _ => encodeFindCoordinatorResponse header.correlationID 1 advertisedHost 9092

def joinGroupMessage (header : RequestHeader) (req : JoinGroupRequest) : Bytes :=
  let chosen : Bytes × Bytes := match req.protocols with
    | [] => ([],[])
    | p::_ => (p.name.1,p.metadata)
  encodeJoinGroupResponse header.correlationID 1 chosen.1 dummyMemberID dummyMemberID
    [⟨dummyMemberID,chosen.2⟩]

def joinGroupProgram (header : RequestHeader) : WorkProgram JoinGroupRequest :=
  message (joinGroupMessage header)

def heartbeatProgram (header : RequestHeader) : WorkProgram HeartbeatRequest :=
  message fun _ => encodeHeartbeatResponse header.correlationID

def leaveGroupProgram (header : RequestHeader) : WorkProgram LeaveGroupRequest :=
  message fun _ => encodeLeaveGroupResponse header.correlationID

def syncGroupMessage (header : RequestHeader) (req : SyncGroupRequest) : Bytes :=
  encodeSyncGroupResponse header.correlationID
    (((req.assignments.find? fun a => a.memberID.1 = dummyMemberID).map
      SyncGroupAssignment.assignment).getD [])

def syncGroupProgram (header : RequestHeader) : WorkProgram SyncGroupRequest :=
  message (syncGroupMessage header)

def apiVersionsProgram (header : RequestHeader) : WorkProgram Unit :=
  message fun _ => encodeApiVersionsResponse header.correlationID

/-- How a request ends for its connection. -/
inductive Turn where
  | next (rest : Bytes) (k : Socket)
  | stop (k : Socket)
  | panic

/-- The frame of the handlers; see `served`. -/
def servedProgram {α : Type} (parse : Parser α) (work : WorkProgram α) (s : Bytes) (k : Socket) :
    BrokerProgram Turn :=
  match parse s with
  | .panic => return .panic
  | .error _ => return .stop k
  | .ok req rest => do
      match ← work req with
      | none => return .panic
      | some none => return .next rest k
      | some (some writes) =>
          match k.writeAll writes with
          | (none,k) => return .next rest k
          | (some _,k) => return .stop k

def dispatchProgram (advertisedHost : Bytes) (header : RequestHeader) :
    Bytes → Socket → BrokerProgram Turn :=
  if header.apiKey = ApiKeyProduce then
    servedProgram (parseProduceRequest header) (produceProgram header)
  else if header.apiKey = ApiKeyFetch then
    servedProgram parseFetchRequest (fetchProgram header)
  else if header.apiKey = ApiKeyListOffsets then
    servedProgram parseListOffsetsRequest (listOffsetsProgram header)
  else if header.apiKey = ApiKeyMetadata then
    servedProgram (parseMetadataRequest header) (metadataProgram advertisedHost header)
  else if header.apiKey = ApiKeyOffsetCommit then
    servedProgram parseOffsetCommitRequest (offsetCommitProgram header)
  else if header.apiKey = ApiKeyOffsetFetch then
    servedProgram parseOffsetFetchRequest (offsetFetchProgram header)
  else if header.apiKey = ApiKeyFindCoordinator then
    servedProgram parseFindCoordinatorRequest (findCoordinatorProgram advertisedHost header)
  else if header.apiKey = ApiKeyJoinGroup then
    servedProgram parseJoinGroupRequest (joinGroupProgram header)
  else if header.apiKey = ApiKeyHeartbeat then
    servedProgram parseHeartbeatRequest (heartbeatProgram header)
  else if header.apiKey = ApiKeyLeaveGroup then
    servedProgram parseLeaveGroupRequest (leaveGroupProgram header)
  else if header.apiKey = ApiKeySyncGroup then
    servedProgram parseSyncGroupRequest (syncGroupProgram header)
  else if header.apiKey = ApiKeyApiVersions then
    servedProgram (pure ()) (apiVersionsProgram header)
  else fun _ k => return .stop k

/-- The loop over the requests of a connection; no socket means that the process
has gone down. -/
def connectionLoop (advertisedHost : Bytes) : ℕ → Bytes → Socket → BrokerProgram (Option Socket)
  | 0,_,k => return some k
  | fuel+1,s,k =>
      match parseRequestHeader s with
      | .panic => return none
      | .error _ => return some k
      | .ok header rest => do
          match ← dispatchProgram advertisedHost header rest k with
          | .panic => return none
          | .stop k => return some k
          | .next rest k => connectionLoop advertisedHost fuel rest k

def connection (advertisedHost : Bytes) (s : Bytes) (k : Socket) :
    BrokerProgram (Option Socket) := connectionLoop advertisedHost (s.length+1) s k

end Kage.BrokerPrograms
