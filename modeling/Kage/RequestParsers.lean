import Kage.WireLayouts
import Kage.FetchHandler
import Kage.OffsetHandlers

/-!
# Parsers of the request header and the request bodies

The decoder reads big-endian numbers, strings and byte blocks from the
connection. None of the parsers looks at the size in front of the frame: how far
one reads is decided by the counts and lengths it meets and by the version in
the header. Where a slice is made for a count that the client chose, a negative
count takes the process down; two parsers refuse such counts, and those above
1024, with an error instead.

The layouts list the fields of each request for each version, and `Walks` says of
every parser that it returns exactly on the streams that begin with an instance
of its layout, leaves what is behind it, and takes the process down exactly where
it comes to a negative count that it does not check. The texts of the errors keep
the format verbs in place of the indices.
-/
namespace Kage.RequestParsers
open ByteStrings FaultyDisk StreamParsers WireLayouts FetchHandler OffsetRecords OffsetHandlers

/-! ## The decoder -/

def readInt8 : Parser Int8 := do
  let b ← Parser.readFull 1
  pure (toInt8 b.1)

def readInt16 : Parser Int16 := do
  let b ← Parser.readFull 2
  pure (toInt16 b.1)

def readInt32 : Parser Int32 := do
  let b ← Parser.readFull 4
  pure (toInt32 b.1)

def readInt64 : Parser Int64 := do
  let b ← Parser.readFull 8
  pure (toInt64 b.1)

def readBytes (n : ℤ) : Parser Bytes :=
  if n ≤ 0 then pure [] else do
    let b ← Parser.readFull n.toNat
    pure b.1

def readBool : Parser Bool := do
  let value ← readInt8
  pure (value != 0)

theorem size_lt_of_int16 {length : Int16} {b : Bytes} (h : b.length = length.toInt.toNat) :
    b.length < 2^15 := by
  have := length.toInt_lt
  omega

def emptyString : WireString := ⟨[],by decide⟩

def readString : Parser WireString := do
  let length ← readInt16
  if length ≤ 0 then pure emptyString else do
    let bytes ← Parser.readFull length.toInt.toNat
    pure ⟨bytes.1,size_lt_of_int16 bytes.2⟩

/-- A count, a slice made for it, and that many elements. -/
def readArray {α : Type} (countText : String) (element : Parser α) : Parser (List α) := do
  let count ← readInt32.context countText
  if count < 0 then Parser.crash else element.times count.toInt.toNat

/-- A count that is checked first. -/
def readCheckedArray {α : Type} (countText invalidText : String) (element : Parser α) :
    Parser (List α) := do
  let count ← readInt32.context countText
  if count < 0 ∨ count > 1024 then Parser.fail (.sentinel invalidText)
  else element.times count.toInt.toNat

/-- A length and, if it is positive, that many bytes. -/
def readBlock (lengthText dataText : String) : Parser Bytes := do
  let length ← readInt32.context lengthText
  if length > 0 then (readBytes length.toInt).context dataText else pure []

/-! ## Requests -/

structure RequestHeader where
  size : Int32
  apiKey : Int16
  apiVersion : Int16
  correlationID : Int32
  clientID : WireString
  deriving DecidableEq

structure MetadataRequest where
  topics : List WireString
  deriving DecidableEq

structure ProducePartitionData where
  partition : Int32
  recordBatch : Bytes
  deriving DecidableEq

structure ProduceTopicData where
  topicName : WireString
  partitions : List ProducePartitionData
  deriving DecidableEq

structure ProduceRequest where
  acks : Int16
  timeoutMs : Int32
  topics : List ProduceTopicData
  deriving DecidableEq

/-- A fetch request with the fields that its handler does not look at. -/
structure WireFetchRequest extends FetchRequest where
  replicaID : Int32
  maxWaitMs : Int32
  minBytes : Int32
  isolationLevel : Int8
  deriving DecidableEq

structure WireOffsetCommitPartition extends OffsetCommitPartition where
  committedMetadata : WireString
  deriving DecidableEq

structure WireOffsetCommitTopic where
  topicName : WireString
  partitions : List WireOffsetCommitPartition
  deriving DecidableEq

structure WireOffsetCommitRequest where
  groupID : WireString
  generationID : Int32
  memberID : WireString
  retentionTimeMs : Int64
  topics : List WireOffsetCommitTopic
  deriving DecidableEq

/-- What the handler of commits looks at. -/
def WireOffsetCommitRequest.request (req : WireOffsetCommitRequest) : OffsetCommitRequest :=
  ⟨req.groupID,req.topics.map fun t =>
    ⟨t.topicName,t.partitions.map WireOffsetCommitPartition.toOffsetCommitPartition⟩⟩

structure ListOffsetsPartitionRequest where
  partition : Int32
  timestamp : Int64
  deriving DecidableEq

structure ListOffsetsTopicRequest where
  topicName : WireString
  partitions : List ListOffsetsPartitionRequest
  deriving DecidableEq

structure ListOffsetsRequest where
  replicaID : Int32
  topics : List ListOffsetsTopicRequest
  deriving DecidableEq

structure FindCoordinatorRequest where
  key : WireString
  deriving DecidableEq

structure JoinGroupProtocol where
  name : WireString
  metadata : Bytes
  deriving DecidableEq

structure JoinGroupRequest where
  groupID : WireString
  sessionTimeoutMs : Int32
  rebalanceTimeoutMs : Int32
  memberID : WireString
  protocolType : WireString
  protocols : List JoinGroupProtocol
  deriving DecidableEq

structure HeartbeatRequest where
  groupID : WireString
  generationID : Int32
  memberID : WireString
  deriving DecidableEq

structure LeaveGroupRequest where
  groupID : WireString
  memberID : WireString
  deriving DecidableEq

structure SyncGroupAssignment where
  memberID : WireString
  assignment : Bytes
  deriving DecidableEq

structure SyncGroupRequest where
  groupID : WireString
  generationID : Int32
  memberID : WireString
  assignments : List SyncGroupAssignment
  deriving DecidableEq

/-! ## Parsers -/

def parseRequestHeader : Parser RequestHeader := do
  let size ← readInt32
  let apiKey ← readInt16
  let apiVersion ← readInt16
  let correlationID ← readInt32
  let clientID ← readString
  pure ⟨size,apiKey,apiVersion,correlationID,clientID⟩

def parseMetadataRequest (header : RequestHeader) : Parser MetadataRequest := do
  let topics ← readArray "metadata request: failed to read topics array length"
    (readString.context "metadata request: failed to read topic name at index %d")
  if header.apiVersion ≥ 4 then do
    let _ ← readBool.context "metadata request: failed to read allow_auto_topic_creation"
    pure ⟨topics⟩
  else pure ⟨topics⟩

/-- The transactional id of version 3 and later, read and discarded. -/
def readTransactionalID : Parser Unit := do
  let txnLen ← readInt16.context "produce request: read transactional_id length"
  if txnLen > 0 then do
    let _ ← (readBytes txnLen.toInt).context "produce request: read transactional_id"
    pure ()
  else pure ()

def readBatch : Parser Bytes := do
  let batchSize ← readInt32.context "produce request: topic[%d] partition[%d] batch size"
  if batchSize < 0 then
    Parser.fail (.sentinel "produce request: topic[%d] partition[%d] negative batch size %d")
  else (readBytes batchSize.toInt).context "produce request: topic[%d] partition[%d] batch"

def parseProducePartition : Parser ProducePartitionData := do
  let partition ← readInt32.context "produce request: topic[%d] partition[%d] index"
  let batch ← readBatch
  pure ⟨partition,batch⟩

def parseProduceTopic : Parser ProduceTopicData := do
  let topicName ← readString.context "produce request: topic[%d] name"
  let partitions ← readCheckedArray "produce request: topic[%d] partition count"
    "produce request: topic[%d] invalid partition count %d" parseProducePartition
  pure ⟨topicName,partitions⟩

def parseProduceBody : Parser ProduceRequest := do
  let acks ← readInt16.context "produce request: read acks"
  let timeoutMs ← readInt32.context "produce request: read timeout_ms"
  let topics ← readCheckedArray "produce request: read topic count"
    "produce request: invalid topic count %d" parseProduceTopic
  pure ⟨acks,timeoutMs,topics⟩

def parseProduceRequest (header : RequestHeader) : Parser ProduceRequest :=
  if header.apiVersion ≥ 3 then do
    let _ ← readTransactionalID
    parseProduceBody
  else parseProduceBody

def parseFetchPartition : Parser FetchPartitionData := do
  let partition ← readInt32.context "fetch request: topic[%d] partition[%d] index"
  let fetchOffset ← readInt64.context "fetch request: topic[%d] partition[%d] fetch_offset"
  let partMaxBytes ← readInt32.context "fetch request: topic[%d] partition[%d] partition_max_bytes"
  pure ⟨partition,fetchOffset,partMaxBytes⟩

def parseFetchTopic : Parser FetchTopicData := do
  let topicName ← readString.context "fetch request: topic[%d] name"
  let partitions ← readArray "fetch request: topic[%d] partition count" parseFetchPartition
  pure ⟨topicName.1,partitions⟩

def parseFetchRequest : Parser WireFetchRequest := do
  let replicaID ← readInt32.context "fetch request: read replica_id"
  let maxWaitMs ← readInt32.context "fetch request: read max_wait_ms"
  let minBytes ← readInt32.context "fetch request: read min_bytes"
  let maxBytes ← readInt32.context "fetch request: read max_bytes"
  let isolationLevel ← readInt8.context "fetch request: read isolation_level"
  let topics ← readArray "fetch request: read topic count" parseFetchTopic
  pure ⟨⟨maxBytes,topics⟩,replicaID,maxWaitMs,minBytes,isolationLevel⟩

def parseOffsetCommitPartition : Parser WireOffsetCommitPartition := do
  let partition ← readInt32.context "offset commit: topic[%d] partition[%d] index"
  let committedOffset ← readInt64.context "offset commit: topic[%d] partition[%d] offset"
  let committedMetadata ← readString.context "offset commit: topic[%d] partition[%d] metadata"
  pure ⟨⟨partition,committedOffset⟩,committedMetadata⟩

def parseOffsetCommitTopic : Parser WireOffsetCommitTopic := do
  let topicName ← readString.context "offset commit: topic[%d] name"
  let partitions ← readArray "offset commit: topic[%d] partition count" parseOffsetCommitPartition
  pure ⟨topicName,partitions⟩

def parseOffsetCommitRequest : Parser WireOffsetCommitRequest := do
  let groupID ← readString.context "offset commit: read group_id"
  let generationID ← readInt32.context "offset commit: read generation_id"
  let memberID ← readString.context "offset commit: read member_id"
  let retentionTimeMs ← readInt64.context "offset commit: read retention_time_ms"
  let topics ← readArray "offset commit: read topic count" parseOffsetCommitTopic
  pure ⟨groupID,generationID,memberID,retentionTimeMs,topics⟩

def parseOffsetFetchTopic : Parser OffsetFetchTopic := do
  let topicName ← readString.context "offset fetch: topic[%d] name"
  let partitions ← readArray "offset fetch: topic[%d] partition count"
    (readInt32.context "offset fetch: topic[%d] partition[%d] index")
  pure ⟨topicName,partitions⟩

def parseOffsetFetchRequest : Parser OffsetFetchRequest := do
  let groupID ← readString.context "offset fetch: read group_id"
  let topics ← readArray "offset fetch: read topic count" parseOffsetFetchTopic
  pure ⟨groupID,topics⟩

def parseListOffsetsPartition : Parser ListOffsetsPartitionRequest := do
  let partition ← readInt32.context "list offsets request: topic[%d] partition[%d] index"
  let timestamp ← readInt64.context "list offsets request: topic[%d] partition[%d] timestamp"
  pure ⟨partition,timestamp⟩

def parseListOffsetsTopic : Parser ListOffsetsTopicRequest := do
  let topicName ← readString.context "list offsets request: topic[%d] name"
  let partitions ← readCheckedArray "list offsets request: topic[%d] partition count"
    "list offsets request: topic[%d] invalid partition count %d" parseListOffsetsPartition
  pure ⟨topicName,partitions⟩

def parseListOffsetsRequest : Parser ListOffsetsRequest := do
  let replicaID ← readInt32.context "list offsets request: read replica_id"
  let topics ← readCheckedArray "list offsets request: read topic count"
    "list offsets request: invalid topic count %d" parseListOffsetsTopic
  pure ⟨replicaID,topics⟩

def parseFindCoordinatorRequest : Parser FindCoordinatorRequest := do
  let key ← readString.context "find coordinator: read key"
  pure ⟨key⟩

def parseJoinGroupProtocol : Parser JoinGroupProtocol := do
  let name ← readString.context "join group: protocol[%d] name"
  let metadata ← readBlock "join group: protocol[%d] metadata length"
    "join group: protocol[%d] metadata"
  pure ⟨name,metadata⟩

def parseJoinGroupRequest : Parser JoinGroupRequest := do
  let groupID ← readString.context "join group: read group_id"
  let sessionTimeoutMs ← readInt32.context "join group: read session_timeout_ms"
  let rebalanceTimeoutMs ← readInt32.context "join group: read rebalance_timeout_ms"
  let memberID ← readString.context "join group: read member_id"
  let protocolType ← readString.context "join group: read protocol_type"
  let protocols ← readArray "join group: read protocol count" parseJoinGroupProtocol
  pure ⟨groupID,sessionTimeoutMs,rebalanceTimeoutMs,memberID,protocolType,protocols⟩

def parseHeartbeatRequest : Parser HeartbeatRequest := do
  let groupID ← readString.context "heartbeat: read group_id"
  let generationID ← readInt32.context "heartbeat: read generation_id"
  let memberID ← readString.context "heartbeat: read member_id"
  pure ⟨groupID,generationID,memberID⟩

def parseLeaveGroupRequest : Parser LeaveGroupRequest := do
  let groupID ← readString.context "leave group: read group_id"
  let memberID ← readString.context "leave group: read member_id"
  pure ⟨groupID,memberID⟩

def parseSyncGroupAssignment : Parser SyncGroupAssignment := do
  let mid ← readString.context "sync group: assignment[%d] member_id"
  let assign ← readBlock "sync group: assignment[%d] length" "sync group: assignment[%d] data"
  pure ⟨mid,assign⟩

def parseSyncGroupRequest : Parser SyncGroupRequest := do
  let groupID ← readString.context "sync group: read group_id"
  let generationID ← readInt32.context "sync group: read generation_id"
  let memberID ← readString.context "sync group: read member_id"
  let assignments ← readArray "sync group: read assignment count" parseSyncGroupAssignment
  pure ⟨groupID,generationID,memberID,assignments⟩

/-! ## Layouts -/

/-- A count that only its width bounds. -/
def maxCount : ℕ := 2^31-1

/-- The header behind the size of the frame, and what follows it. -/
def headerLayout (next : Layout) : Layout := .field 2 (.field 2 (.field 4 (.string next)))

def metadataLayout (version : Int16) : Layout :=
  .array maxCount (.string .done) (if version ≥ 4 then .field 1 .done else .done)

def producePartitionLayout : Layout := .field 4 (.blob false .done)

def produceTopicLayout : Layout := .string (.array 1024 producePartitionLayout .done)

def produceBodyLayout : Layout := .field 2 (.field 4 (.array 1024 produceTopicLayout .done))

def produceLayout (version : Int16) : Layout :=
  if version ≥ 3 then .string produceBodyLayout else produceBodyLayout

def fetchPartitionLayout : Layout := .field 4 (.field 8 (.field 4 .done))

def fetchTopicLayout : Layout := .string (.array maxCount fetchPartitionLayout .done)

def fetchLayout : Layout :=
  .field 4 (.field 4 (.field 4 (.field 4 (.field 1 (.array maxCount fetchTopicLayout .done)))))

def offsetCommitPartitionLayout : Layout := .field 4 (.field 8 (.string .done))

def offsetCommitTopicLayout : Layout := .string (.array maxCount offsetCommitPartitionLayout .done)

def offsetCommitLayout : Layout :=
  .string (.field 4 (.string (.field 8 (.array maxCount offsetCommitTopicLayout .done))))

def offsetFetchTopicLayout : Layout := .string (.array maxCount (.field 4 .done) .done)

def offsetFetchLayout : Layout := .string (.array maxCount offsetFetchTopicLayout .done)

def listOffsetsPartitionLayout : Layout := .field 4 (.field 8 .done)

def listOffsetsTopicLayout : Layout := .string (.array 1024 listOffsetsPartitionLayout .done)

def listOffsetsLayout : Layout := .field 4 (.array 1024 listOffsetsTopicLayout .done)

def findCoordinatorLayout : Layout := .string .done

def namedBlockLayout : Layout := .string (.blob true .done)

def joinGroupLayout : Layout :=
  .string (.field 4 (.field 4 (.string (.string (.array maxCount namedBlockLayout .done)))))

def heartbeatLayout : Layout := .string (.field 4 (.string .done))

def leaveGroupLayout : Layout := .string (.string .done)

def syncGroupLayout : Layout :=
  .string (.field 4 (.string (.array maxCount namedBlockLayout .done)))

/-! ## What the decoder takes from the stream -/

theorem reads_readInt16 : Reads readInt16 2 toInt16 := Reads.readFull 2 toInt16

theorem reads_readInt32 : Reads readInt32 4 toInt32 := Reads.readFull 4 toInt32

theorem takes_readInt8 : Takes readInt8 (dropFull 1) := (Takes.readFull 1).map fun b => toInt8 b.1

theorem takes_readInt16 : Takes readInt16 (dropFull 2) :=
  (Takes.readFull 2).map fun b => toInt16 b.1

theorem takes_readInt32 : Takes readInt32 (dropFull 4) :=
  (Takes.readFull 4).map fun b => toInt32 b.1

theorem takes_readInt64 : Takes readInt64 (dropFull 8) :=
  (Takes.readFull 8).map fun b => toInt64 b.1

theorem takes_readBool : Takes readBool (dropFull 1) := takes_readInt8.map fun value => value != 0

theorem takes_readBytes (n : ℤ) : Takes (readBytes n) (dropFull n.toNat) := by
  unfold readBytes
  by_cases hn : n ≤ 0
  · rw [if_pos hn,Int.toNat_of_nonpos hn]
    exact .nothing []
  · rw [if_neg hn]
    exact (Takes.readFull n.toNat).map fun b => b.1

theorem toNat_of_nonpos16 {n : Int16} (h : n ≤ 0) : n.toInt.toNat = 0 :=
  Int.toNat_of_nonpos (Int16.le_iff_toInt_le.mp h)

theorem toNat_of_nonpos32 {n : Int32} (h : ¬n > 0) : n.toInt.toNat = 0 :=
  Int.toNat_of_nonpos (Int32.le_iff_toInt_le.mp (Int32.not_lt.mp h))

theorem takes_readString : Takes readString skipString := by
  apply takes_headed reads_readInt16 takes_readInt16.2
  intro x
  by_cases hx : toInt16 x ≤ 0
  · rw [if_pos hx,size16,toNat_of_nonpos16 hx]
    exact .nothing _
  · rw [if_neg hx]
    exact (Takes.readFull (size16 x)).map _

theorem takes_readTransactionalID : Takes readTransactionalID skipString := by
  apply takes_headed (reads_readInt16.context _) (takes_readInt16.context _).2
  intro x
  by_cases hx : toInt16 x > 0
  · rw [if_pos hx]
    exact ((takes_readBytes _).context _).map _
  · rw [if_neg hx,size16,toNat_of_nonpos16 (Int16.not_lt.mp hx)]
    exact .nothing _

theorem takes_readBatch : Takes readBatch (skipBlob false) := by
  apply takes_headed (reads_readInt32.context _) (takes_readInt32.context _).2
  intro x
  by_cases hx : toInt32 x < 0
  · have hn : ¬(false = true ∨ 0 ≤ toInt32 x) := by simpa using Int32.not_le.mpr hx
    simp only [if_pos hx,if_neg hn]
    exact .fail _
  · have hn : false = true ∨ 0 ≤ toInt32 x := .inr (Int32.not_lt.mp hx)
    simp only [if_neg hx,if_pos hn]
    exact (takes_readBytes _).context _

theorem takes_readBlock (lengthText dataText : String) :
    Takes (readBlock lengthText dataText) (skipBlob true) := by
  apply takes_headed (reads_readInt32.context _) (takes_readInt32.context _).2
  intro x
  simp only [true_or,if_true]
  by_cases hx : toInt32 x > 0
  · rw [if_pos hx]
    exact (takes_readBytes _).context _
  · rw [if_neg hx,size32,toNat_of_nonpos32 hx]
    exact .nothing _

theorem size32_le_maxCount (x : Bytes) : size32 x ≤ maxCount := by
  have := (toInt32 x).toInt_lt
  unfold size32 maxCount
  omega

theorem walks_readArray {α : Type} {p : Parser α} {element : Layout}
    (hp : Walks maxCount p element) (countText : String) :
    WalksArray maxCount (readArray countText p) maxCount element := by
  constructor
  · apply skips_headed (reads_readInt32.context _)
    intro x
    by_cases hx : toInt32 x < 0
    · have hn : ¬(0 ≤ toInt32 x ∧ size32 x ≤ maxCount) := fun h => Int32.not_le.mpr hx h.1
      simp only [if_pos hx,if_neg hn]
      exact Skips.crash
    · simp only [if_neg hx,if_pos (And.intro (Int32.not_lt.mp hx) (size32_le_maxCount x))]
      exact hp.1.times _
  · refine crashes_headed (q := CountStumbles maxCount maxCount (skip element)
      (Stumbles maxCount element)) (reads_readInt32.context _) (takes_readInt32.context _).2 ?_
    intro x s
    rw [CountStumbles]
    by_cases hx : toInt32 x < 0
    · rw [if_pos hx]
      exact iff_of_true rfl (.inl ⟨rfl,hx⟩)
    · have h0 : 0 ≤ toInt32 x := Int32.not_lt.mp hx
      rw [if_neg hx]
      refine (hp.2.times hp.1 _ s).trans ?_
      simp only [hx,and_false,false_or,h0,size32_le_maxCount,true_and]
      rfl

theorem walks_readCheckedArray {α : Type} {p : Parser α} {element : Layout}
    (hp : Walks maxCount p element) (countText invalidText : String) :
    WalksArray maxCount (readCheckedArray countText invalidText p) 1024 element := by
  have hc (x : Bytes) :
      (toInt32 x < 0 ∨ toInt32 x > 1024) ↔ ¬(0 ≤ toInt32 x ∧ size32 x ≤ 1024) := by
    have h0 : (0 : Int32).toInt = 0 := rfl
    have h1 : (1024 : Int32).toInt = 1024 := rfl
    rw [Int32.lt_iff_toInt_lt,gt_iff_lt,Int32.lt_iff_toInt_lt,Int32.le_iff_toInt_le,h0,h1,size32]
    omega
  constructor
  · apply skips_headed (reads_readInt32.context _)
    intro x
    by_cases hx : toInt32 x < 0 ∨ toInt32 x > 1024
    · simp only [if_pos hx,if_neg ((hc x).mp hx)]
      exact Skips.fail _
    · simp only [if_neg hx,if_pos (not_not.mp (mt (hc x).mpr hx))]
      exact hp.1.times _
  · refine crashes_headed (q := CountStumbles maxCount 1024 (skip element)
      (Stumbles maxCount element)) (reads_readInt32.context _) (takes_readInt32.context _).2 ?_
    intro x s
    have hm : (1024 : ℕ) ≠ maxCount := by decide
    rw [CountStumbles]
    by_cases hx : toInt32 x < 0 ∨ toInt32 x > 1024
    · rw [if_pos hx]
      refine iff_of_false (fun h => by cases h) ?_
      rintro (h|h)
      · exact hm h.1
      · exact (hc x).mp hx h.1
    · rw [if_neg hx]
      refine (hp.2.times hp.1 _ s).trans ?_
      simp only [hm,false_and,false_or,not_not.mp (mt (hc x).mpr hx),and_self,true_and]
      rfl

/-! ## What the parsers take from the stream -/

/-- The header behind the size, whatever the size says. -/
theorem walks_parseRequestHeader :
    Walks maxCount parseRequestHeader (.field 4 (headerLayout .done)) :=
  .field takes_readInt32 fun _ => .field takes_readInt16 fun _ =>
    .field takes_readInt16 fun _ => .field takes_readInt32 fun _ =>
      .string takes_readString fun _ => .pure _

theorem walks_parseMetadataRequest (header : RequestHeader) :
    Walks maxCount (parseMetadataRequest header) (metadataLayout header.apiVersion) := by
  apply Walks.array (walks_readArray (.lastString (takes_readString.context _)) _)
  intro topics
  by_cases hv : header.apiVersion ≥ 4
  · rw [if_pos hv,if_pos hv]
    exact .field (takes_readBool.context _) fun _ => .pure _
  · rw [if_neg hv,if_neg hv]
    exact .pure _

theorem walks_parseProduceRequest (header : RequestHeader) :
    Walks maxCount (parseProduceRequest header) (produceLayout header.apiVersion) := by
  have hp : Walks maxCount parseProducePartition producePartitionLayout :=
    .field (takes_readInt32.context _) fun _ => .blob takes_readBatch fun _ => .pure _
  have ht : Walks maxCount parseProduceTopic produceTopicLayout :=
    .string (takes_readString.context _) fun _ =>
      .array (walks_readCheckedArray hp _ _) fun _ => .pure _
  have hb : Walks maxCount parseProduceBody produceBodyLayout :=
    .field (takes_readInt16.context _) fun _ => .field (takes_readInt32.context _) fun _ =>
      .array (walks_readCheckedArray ht _ _) fun _ => .pure _
  unfold parseProduceRequest produceLayout
  by_cases hv : header.apiVersion ≥ 3
  · rw [if_pos hv,if_pos hv]
    exact .string takes_readTransactionalID fun _ => hb
  · rw [if_neg hv,if_neg hv]
    exact hb

theorem walks_parseFetchRequest : Walks maxCount parseFetchRequest fetchLayout := by
  have hp : Walks maxCount parseFetchPartition fetchPartitionLayout :=
    .field (takes_readInt32.context _) fun _ => .field (takes_readInt64.context _) fun _ =>
      .field (takes_readInt32.context _) fun _ => .pure _
  have ht : Walks maxCount parseFetchTopic fetchTopicLayout :=
    .string (takes_readString.context _) fun _ => .array (walks_readArray hp _) fun _ => .pure _
  exact .field (takes_readInt32.context _) fun _ => .field (takes_readInt32.context _) fun _ =>
    .field (takes_readInt32.context _) fun _ => .field (takes_readInt32.context _) fun _ =>
      .field (takes_readInt8.context _) fun _ => .array (walks_readArray ht _) fun _ => .pure _

theorem walks_parseOffsetCommitRequest :
    Walks maxCount parseOffsetCommitRequest offsetCommitLayout := by
  have hp : Walks maxCount parseOffsetCommitPartition offsetCommitPartitionLayout :=
    .field (takes_readInt32.context _) fun _ => .field (takes_readInt64.context _) fun _ =>
      .string (takes_readString.context _) fun _ => .pure _
  have ht : Walks maxCount parseOffsetCommitTopic offsetCommitTopicLayout :=
    .string (takes_readString.context _) fun _ => .array (walks_readArray hp _) fun _ => .pure _
  exact .string (takes_readString.context _) fun _ => .field (takes_readInt32.context _) fun _ =>
    .string (takes_readString.context _) fun _ => .field (takes_readInt64.context _) fun _ =>
      .array (walks_readArray ht _) fun _ => .pure _

theorem walks_parseOffsetFetchRequest :
    Walks maxCount parseOffsetFetchRequest offsetFetchLayout := by
  have ht : Walks maxCount parseOffsetFetchTopic offsetFetchTopicLayout :=
    .string (takes_readString.context _) fun _ =>
      .array (walks_readArray (.lastField (takes_readInt32.context _)) _) fun _ => .pure _
  exact .string (takes_readString.context _) fun _ => .array (walks_readArray ht _) fun _ => .pure _

theorem walks_parseListOffsetsRequest :
    Walks maxCount parseListOffsetsRequest listOffsetsLayout := by
  have hp : Walks maxCount parseListOffsetsPartition listOffsetsPartitionLayout :=
    .field (takes_readInt32.context _) fun _ => .field (takes_readInt64.context _) fun _ =>
      .pure _
  have ht : Walks maxCount parseListOffsetsTopic listOffsetsTopicLayout :=
    .string (takes_readString.context _) fun _ =>
      .array (walks_readCheckedArray hp _ _) fun _ => .pure _
  exact .field (takes_readInt32.context _) fun _ =>
    .array (walks_readCheckedArray ht _ _) fun _ => .pure _

theorem walks_parseFindCoordinatorRequest :
    Walks maxCount parseFindCoordinatorRequest findCoordinatorLayout :=
  .string (takes_readString.context _) fun _ => .pure _

theorem walks_parseJoinGroupRequest : Walks maxCount parseJoinGroupRequest joinGroupLayout := by
  have hp : Walks maxCount parseJoinGroupProtocol namedBlockLayout :=
    .string (takes_readString.context _) fun _ => .blob (takes_readBlock _ _) fun _ => .pure _
  exact .string (takes_readString.context _) fun _ => .field (takes_readInt32.context _) fun _ =>
    .field (takes_readInt32.context _) fun _ => .string (takes_readString.context _) fun _ =>
      .string (takes_readString.context _) fun _ => .array (walks_readArray hp _) fun _ => .pure _

theorem walks_parseHeartbeatRequest : Walks maxCount parseHeartbeatRequest heartbeatLayout :=
  .string (takes_readString.context _) fun _ => .field (takes_readInt32.context _) fun _ =>
    .string (takes_readString.context _) fun _ => .pure _

theorem walks_parseLeaveGroupRequest : Walks maxCount parseLeaveGroupRequest leaveGroupLayout :=
  .string (takes_readString.context _) fun _ => .string (takes_readString.context _) fun _ =>
    .pure _

theorem walks_parseSyncGroupRequest : Walks maxCount parseSyncGroupRequest syncGroupLayout := by
  have hp : Walks maxCount parseSyncGroupAssignment namedBlockLayout :=
    .string (takes_readString.context _) fun _ => .blob (takes_readBlock _ _) fun _ => .pure _
  exact .string (takes_readString.context _) fun _ => .field (takes_readInt32.context _) fun _ =>
    .string (takes_readString.context _) fun _ => .array (walks_readArray hp _) fun _ => .pure _

/-! ## What the parsers return -/

theorem ensures_readBytes {n : ℤ} {bound : ℕ} (h : n.toNat < bound) :
    Ensures (readBytes n) fun b => b.length < bound := by
  unfold readBytes
  by_cases hn : n ≤ 0
  · rw [if_pos hn]
    exact .pure (by rw [List.length_nil]; omega)
  · rw [if_neg hn]
    exact .seq fun b => .pure (by rw [b.2]; exact h)

theorem ensures_readCheckedArray {α : Type} {p : Parser α} {P : α → Prop} (hp : Ensures p P)
    (countText invalidText : String) :
    Ensures (readCheckedArray countText invalidText p) fun as => ∀ a ∈ as, P a := by
  refine .seq fun count => ?_
  split
  · intro s as rest h
    cases h
  · exact hp.times _

/-- A batch is as long as a count of thirty-two bits can say. -/
theorem ensures_parseProduceRequest (header : RequestHeader) :
    Ensures (parseProduceRequest header) fun req =>
      ∀ t ∈ req.topics, ∀ p ∈ t.partitions, p.recordBatch.length < 2^31 := by
  have hbatch : Ensures readBatch fun b => b.length < 2^31 := by
    refine .seq fun batchSize => ?_
    have hlt := batchSize.toInt_lt
    split
    · intro s b rest h
      cases h
    · exact (ensures_readBytes (by omega)).context _
  have hpart : Ensures parseProducePartition fun p => p.recordBatch.length < 2^31 :=
    .seq fun partition => hbatch.bind fun b hb => .pure hb
  have htopic : Ensures parseProduceTopic fun t =>
      ∀ p ∈ t.partitions, p.recordBatch.length < 2^31 :=
    .seq fun topicName => (ensures_readCheckedArray hpart _ _).bind fun ps hps => .pure hps
  have hbody : Ensures parseProduceBody fun req =>
      ∀ t ∈ req.topics, ∀ p ∈ t.partitions, p.recordBatch.length < 2^31 :=
    .seq fun acks => .seq fun timeoutMs =>
      (ensures_readCheckedArray htopic _ _).bind fun ts hts => .pure hts
  unfold parseProduceRequest
  split
  · exact .seq fun _ => hbody
  · exact hbody

end Kage.RequestParsers
