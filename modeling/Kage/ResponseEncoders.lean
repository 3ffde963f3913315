import Kage.FetchBudgets
import Kage.LengthPrefixed
import Kage.ProduceHandler

/-!
# Encoders of the responses

An encoder writes the fields of a response one behind the other, and the message
is framed with its length. The response to a fetch is not buffered: its length is
added up beforehand in thirty-two bits, and the parts are written as they come.

The two ways of framing agree. The length that is added up is the length of what
is written, as far as thirty-two bits tell, since the batch size of a partition
is the length of the batch that goes with it.
-/
namespace Kage.ResponseEncoders
open ByteStrings LengthPrefixed FaultyDisk StreamParsers BrokerStores FetchHandler OffsetRecords
open OffsetHandlers RequestParsers ProduceHandler

def writeInt8 (value : Int8) : Bytes := putUint 1 value.toUInt8.toNat

def writeInt16 (value : Int16) : Bytes := putUint 2 value.toUInt16.toNat

def writeInt32 (value : Int32) : Bytes := putUint 4 value.toUInt32.toNat

def writeInt64 (value : Int64) : Bytes := putUint 8 value.toUInt64.toNat

/-- The length is truncated to sixteen bits, the string is not. -/
def writeString (value : Bytes) : Bytes := writeInt16 (Int16.ofNat value.length)++value

def writeNullableString : Option Bytes → Bytes
  | none => writeInt16 (-1)
  | some value => writeString value

/-- The number of elements in front of them. -/
def writeArray {α : Type} (write : α → Bytes) (as : List α) : Bytes :=
  writeInt32 (Int32.ofNat as.length)++as.flatMap write

def writeBlock (value : Bytes) : Bytes := writeInt32 (Int32.ofNat value.length)++value

def fullMessage (buffer : Bytes) : Bytes := frame buffer

def encodeProduceResponse (correlationID : Int32) (topics : List ProduceTopicResponse) : Bytes :=
  writeInt32 correlationID++(writeArray (fun t =>
    writeString t.topicName.1++writeArray (fun p : ProducePartitionResponse =>
      writeInt32 p.partition++(writeInt16 p.errorCode++(writeInt64 p.baseOffset++
        writeInt64 (-1)))) t.partitions) topics++writeInt32 0)

def encodeOffsetCommitResponse (correlationID : Int32) (topics : List OffsetCommitTopicResponse) :
    Bytes :=
  writeInt32 correlationID++writeArray (fun t =>
    writeString t.topicName.1++writeArray (fun p : OffsetCommitPartitionResponse =>
      writeInt32 p.partition++writeInt16 p.errorCode) t.partitions) topics

def encodeOffsetFetchResponse (correlationID : Int32) (topics : List OffsetFetchTopicResponse) :
    Bytes :=
  writeInt32 correlationID++writeArray (fun t =>
    writeString t.topicName.1++writeArray (fun p : OffsetFetchPartitionResponse =>
      writeInt32 p.partition++(writeInt64 p.committedOffset++(writeString p.committedMetadata++
        writeInt16 p.errorCode))) t.partitions) topics

structure ListOffsetsPartitionResponse where
  partition : Int32
  errorCode : Int16 := 0
  timestamp : Int64
  offset : Int64 := 0
  deriving DecidableEq

structure ListOffsetsTopicResponse where
  topicName : WireString
  partitions : List ListOffsetsPartitionResponse
  deriving DecidableEq

def encodeListOffsetsResponse (correlationID : Int32) (topics : List ListOffsetsTopicResponse) :
    Bytes :=
  writeInt32 correlationID++writeArray (fun t =>
    writeString t.topicName.1++writeArray (fun p : ListOffsetsPartitionResponse =>
      writeInt32 p.partition++(writeInt16 p.errorCode++(writeInt64 p.timestamp++
        writeInt64 p.offset))) t.partitions) topics

structure ApiVersion where
  key : Int16
  minVersion : Int16
  maxVersion : Int16
  deriving DecidableEq

def supportedAPIVersions : List ApiVersion :=
  [⟨0,0,3⟩,⟨1,0,4⟩,⟨2,0,1⟩,⟨3,0,9⟩,⟨8,0,2⟩,⟨9,0,1⟩,⟨10,0,0⟩,⟨11,0,1⟩,⟨12,0,0⟩,⟨13,0,0⟩,
    ⟨14,0,0⟩,⟨18,0,2⟩]

def encodeApiVersionsResponse (correlationID : Int32) : Bytes :=
  writeInt32 correlationID++(writeInt16 ErrCodeNone++(writeArray (fun v : ApiVersion =>
    writeInt16 v.key++(writeInt16 v.minVersion++writeInt16 v.maxVersion)) supportedAPIVersions++
      writeInt32 0))

def encodeFindCoordinatorResponse (correlationID nodeID : Int32) (host : Bytes) (port : Int32) :
    Bytes :=
  writeInt32 correlationID++(writeInt16 ErrCodeNone++(writeInt32 nodeID++(writeString host++
    writeInt32 port)))

structure JoinGroupMember where
  memberID : Bytes
  metadata : Bytes
  deriving DecidableEq

def encodeJoinGroupResponse (correlationID generationID : Int32)
    (protocolName leader memberID : Bytes) (members : List JoinGroupMember) : Bytes :=
  writeInt32 correlationID++(writeInt16 ErrCodeNone++(writeInt32 generationID++
    (writeString protocolName++(writeString leader++(writeString memberID++
      writeArray (fun m : JoinGroupMember => writeString m.memberID++writeBlock m.metadata)
        members)))))

def encodeHeartbeatResponse (correlationID : Int32) : Bytes :=
  writeInt32 correlationID++writeInt16 ErrCodeNone

def encodeLeaveGroupResponse (correlationID : Int32) : Bytes :=
  writeInt32 correlationID++writeInt16 ErrCodeNone

def encodeSyncGroupResponse (correlationID : Int32) (assignment : Bytes) : Bytes :=
  writeInt32 correlationID++(writeInt16 ErrCodeNone++writeBlock assignment)

structure Broker where
  nodeID : Int32
  host : Bytes
  port : Int32
  rack : Option Bytes
  deriving DecidableEq

structure PartitionMetadata where
  errorCode : Int16
  partition : Int32
  leader : Int32
  replicas : List Int32
  isr : List Int32
  offlineReplicas : List Int32 := []
  deriving DecidableEq

structure TopicMetadata where
  errorCode : Int16
  name : Bytes
  isInternal : Bool := false
  partitions : List PartitionMetadata
  deriving DecidableEq

structure MetadataResponse where
  brokers : List Broker
  clusterID : Option Bytes
  controllerID : Int32
  topics : List TopicMetadata
  deriving DecidableEq

/-- A field that a version added. -/
def since (version added : Int16) (field : Bytes) : Bytes := if version ≥ added then field else []

def writePartitionMetadata (version : Int16) (p : PartitionMetadata) : Bytes :=
  writeInt16 p.errorCode++(writeInt32 p.partition++(writeInt32 p.leader++
    (writeArray writeInt32 p.replicas++(writeArray writeInt32 p.isr++
      since version 5 (writeArray writeInt32 p.offlineReplicas)))))

def encodeMetadataResponse (correlationID : Int32) (version : Int16) (resp : MetadataResponse) :
    Bytes :=
  writeInt32 correlationID++(since version 3 (writeInt32 0)++
    (writeArray (fun b : Broker => writeInt32 b.nodeID++(writeString b.host++(writeInt32 b.port++
      since version 1 (writeNullableString b.rack)))) resp.brokers++
    (since version 2 (writeNullableString resp.clusterID)++
    (since version 1 (writeInt32 resp.controllerID)++
    writeArray (fun t : TopicMetadata => writeInt16 t.errorCode++(writeString t.name++
      (since version 1 (writeInt8 (if t.isInternal then 1 else 0))++
        writeArray (writePartitionMetadata version) t.partitions))) resp.topics))))

/-! ## The response to a fetch -/

def partitionPayload (totalPayload : Int32) (p : FetchPartitionResponse) : Int32 :=
  if p.batchSize > 0 then totalPayload+30+p.batchSize else totalPayload+30

def topicPayload (totalPayload : Int32) (t : FetchTopicResponse) : Int32 :=
  t.partitions.foldl partitionPayload (totalPayload+Int32.ofNat (2+t.topicName.length+4))

def totalPayload (topics : List FetchTopicResponse) : Int32 := topics.foldl topicPayload 12

def partitionWrites (p : FetchPartitionResponse) : List Bytes :=
  (writeInt32 p.partition++(writeInt16 p.errorCode++(writeInt64 p.highWatermark++
    (writeInt64 p.highWatermark++(writeInt32 0++writeInt32 p.batchSize)))))::
      match p.recordBatch with
      | none => []
      | some batch => if p.batchSize > 0 then [batch] else []

def topicWrites (t : FetchTopicResponse) : List Bytes :=
  (writeString t.topicName++writeInt32 (Int32.ofNat t.partitions.length))::
    t.partitions.flatMap partitionWrites

/-- The calls of `Write` that send the response, in order. -/
def writeFetchResponse (correlationID throttleTimeMs : Int32) (topics : List FetchTopicResponse) :
    List Bytes :=
  writeInt32 (totalPayload topics)::
    (writeInt32 correlationID++(writeInt32 throttleTimeMs++
      writeInt32 (Int32.ofNat topics.length)))::topics.flatMap topicWrites

/-- The batch size is the size of the batch. -/
def Sized (p : FetchPartitionResponse) : Prop :=
  ¬p.batchSize > 0 ∨ ∃ batch, p.recordBatch = some batch ∧ p.batchSize = Int32.ofNat batch.length

@[simp] theorem writeInt16_length (v : Int16) : (writeInt16 v).length = 2 := putUint_length 2 _

@[simp] theorem writeInt32_length (v : Int32) : (writeInt32 v).length = 4 := putUint_length 4 _

@[simp] theorem writeInt64_length (v : Int64) : (writeInt64 v).length = 8 := putUint_length 8 _

@[simp] theorem writeString_length (s : Bytes) : (writeString s).length = 2+s.length := by
  simp [writeString]

theorem flatten_flatMap {α : Type} (f : α → List Bytes) (as : List α) :
    (as.flatMap f).flatten = as.flatMap fun a => (f a).flatten := by
  induction as with
  | nil => rfl
  | cons a as ih => rw [List.flatMap_cons,List.flatten_append,ih,List.flatMap_cons]

theorem topicWrites_flatten (t : FetchTopicResponse) : (topicWrites t).flatten =
    writeString t.topicName++writeArray (fun p => (partitionWrites p).flatten) t.partitions := by
  rw [topicWrites,List.flatten_cons,flatten_flatMap,writeArray,List.append_assoc]

/-! ## Framing -/

theorem writeInt32_ofNat (n : ℕ) : writeInt32 (Int32.ofNat n) = putUint 4 n := by
  rw [writeInt32,Int32.toUInt32_ofNat',UInt32.toNat_ofNat']
  exact putUint_mod (k := 4) le_rfl n

theorem partitionPayload_eq {p : FetchPartitionResponse} (h : Sized p) (n : ℕ) :
    partitionPayload (Int32.ofNat n) p = Int32.ofNat (n+(partitionWrites p).flatten.length) := by
  have h30 : (30 : Int32) = Int32.ofNat 30 := rfl
  unfold partitionPayload partitionWrites
  rcases h with hp|⟨batch,hb,hs⟩
  · have hw : (match p.recordBatch with
        | none => []
        | some batch => if p.batchSize > 0 then [batch] else []) = [] := by
      cases p.recordBatch with
      | none => rfl
      | some batch => exact if_neg hp
    rw [if_neg hp,hw,h30,← Int32.ofNat_add]
    simp
  · by_cases hp : p.batchSize > 0
    · simp only [if_pos hp,hb]
      rw [hs,h30,← Int32.ofNat_add,← Int32.ofNat_add]
      congr 1
      simp
      omega
    · simp only [if_neg hp,hb]
      rw [h30,← Int32.ofNat_add]
      simp

theorem partitionPayload_foldl {ps : List FetchPartitionResponse} (h : ∀ p ∈ ps, Sized p)
    (n : ℕ) : ps.foldl partitionPayload (Int32.ofNat n) =
      Int32.ofNat (n+(ps.flatMap partitionWrites).flatten.length) := by
  induction ps generalizing n with
  | nil => rfl
  | cons p ps ih =>
      rw [List.forall_mem_cons] at h
      rw [List.foldl_cons,partitionPayload_eq h.1,ih h.2,List.flatMap_cons,List.flatten_append,
        List.length_append,Nat.add_assoc]

theorem topicPayload_eq {t : FetchTopicResponse} (h : ∀ p ∈ t.partitions, Sized p) (n : ℕ) :
    topicPayload (Int32.ofNat n) t = Int32.ofNat (n+(topicWrites t).flatten.length) := by
  rw [topicPayload,← Int32.ofNat_add,partitionPayload_foldl h,topicWrites,List.flatten_cons,
    List.length_append,List.length_append,writeString_length,writeInt32_length]
  congr 1
  omega

theorem topicPayload_foldl {topics : List FetchTopicResponse}
    (h : ∀ t ∈ topics, ∀ p ∈ t.partitions, Sized p) (n : ℕ) :
    topics.foldl topicPayload (Int32.ofNat n) =
      Int32.ofNat (n+(topics.flatMap topicWrites).flatten.length) := by
  induction topics generalizing n with
  | nil => rfl
  | cons t topics ih =>
      rw [List.forall_mem_cons] at h
      rw [List.foldl_cons,topicPayload_eq h.1,ih h.2,List.flatMap_cons,List.flatten_append,
        List.length_append,Nat.add_assoc]

theorem writeFetchResponse_eq {topics : List FetchTopicResponse}
    (h : ∀ t ∈ topics, ∀ p ∈ t.partitions, Sized p) (correlationID throttleTimeMs : Int32) :
    (writeFetchResponse correlationID throttleTimeMs topics).flatten =
      fullMessage (writeInt32 correlationID++(writeInt32 throttleTimeMs++
        (writeInt32 (Int32.ofNat topics.length)++(topics.flatMap topicWrites).flatten))) := by
  have htotal : totalPayload topics =
      Int32.ofNat (12+(topics.flatMap topicWrites).flatten.length) := topicPayload_foldl h 12
  rw [writeFetchResponse,htotal,writeInt32_ofNat,fullMessage,frame]
  simp only [List.flatten_cons,List.length_append,writeInt32_length,List.append_assoc]
  congr 2
  omega

/-- What is sent for a fetch is a framed message too. -/
theorem writeFetchResponse_flatten {topics : List FetchTopicResponse}
    (h : ∀ t ∈ topics, ∀ p ∈ t.partitions, Sized p) (correlationID throttleTimeMs : Int32) :
    ∃ fields, (writeFetchResponse correlationID throttleTimeMs topics).flatten =
      fullMessage (writeInt32 correlationID++fields) :=
  ⟨_,writeFetchResponse_eq h correlationID throttleTimeMs⟩

theorem answered_sized {part : FetchPartitionData} {remaining left : Int32}
    {resp : FetchPartitionResponse} (h : FetchBudgets.Answered part remaining resp left) :
    Sized resp := by
  cases h with
  | unserved _ hb _ =>
      left
      rw [hb]
      decide
  | served batch _ hr hb _ => exact .inr ⟨batch,hr,hb⟩

/-- Every partition of a response goes with its batch. -/
theorem fetchPartition_sized (topicName : Bytes) (part : FetchPartitionData) (remaining : Int32)
    (bs : BrokerStore) (d : Disk) : Sized (fetchPartition topicName part remaining bs d).1 :=
  answered_sized (FetchBudgets.fetchPartition_answered topicName part remaining bs d)

theorem handleFetch_sized (req : FetchRequest) (bs : BrokerStore) (d : Disk) :
    ∀ t ∈ (handleFetch req bs d).1, ∀ p ∈ t.partitions, Sized p :=
  handleFetch_forall fetchPartition_sized req bs d

end Kage.ResponseEncoders
