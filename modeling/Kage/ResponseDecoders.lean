import Kage.FieldRoundTrips

/-!
# Responses as a client reads them

The program has encoders for its responses and no decoders. Here are decoders of
the layouts that the protocol documents, one for each encoder, and for metadata
one for each version. They return every field that the layout carries, the
constant ones too, and keep a missing string apart from an empty one.

A response in the range of its fields is read back in full, and nothing is left.
-/
namespace Kage.ResponseDecoders
open ByteStrings LengthPrefixed FaultyDisk StreamParsers ParsedBytes FetchHandler
open OffsetRecords OffsetHandlers RequestParsers ProduceHandler ResponseEncoders FieldRoundTrips

def decodeNullableString : Parser (Option Bytes) := do
  let length ← readInt16
  if length < 0 then pure none else do
    let bytes ← Parser.readFull length.toInt.toNat
    pure (some bytes.1)

/-- A field that a version added, and what stands for it before. -/
def decodeSince {α : Type} (version added : Int16) (p : Parser α) (absent : α) : Parser α :=
  if version ≥ added then p else pure absent

/-! ## Layouts -/

def decodeProducePartition : Parser (ProducePartitionResponse × Int64) := do
  let partition ← readInt32
  let errorCode ← readInt16
  let baseOffset ← readInt64
  let timestamp ← readInt64
  pure (⟨partition,errorCode,baseOffset⟩,timestamp)

def decodeProduceTopic : Parser (WireString × List (ProducePartitionResponse × Int64)) := do
  let topicName ← readString
  let partitions ← readArray "partitions" decodeProducePartition
  pure (topicName,partitions)

def decodeProduceResponse :
    Parser (List (WireString × List (ProducePartitionResponse × Int64)) × Int32) := do
  let topics ← readArray "topics" decodeProduceTopic
  let throttleTimeMs ← readInt32
  pure (topics,throttleTimeMs)

def decodeOffsetCommitPartition : Parser OffsetCommitPartitionResponse := do
  let partition ← readInt32
  let errorCode ← readInt16
  pure ⟨partition,errorCode⟩

def decodeOffsetCommitTopic : Parser OffsetCommitTopicResponse := do
  let topicName ← readString
  let partitions ← readArray "partitions" decodeOffsetCommitPartition
  pure ⟨topicName,partitions⟩

/-- The layout allows the metadata to be missing. -/
structure DecodedOffset where
  partition : Int32
  committedOffset : Int64
  committedMetadata : Option Bytes
  errorCode : Int16
  deriving DecidableEq

def decodeOffsetFetchPartition : Parser DecodedOffset := do
  let partition ← readInt32
  let committedOffset ← readInt64
  let committedMetadata ← decodeNullableString
  let errorCode ← readInt16
  pure ⟨partition,committedOffset,committedMetadata,errorCode⟩

def decodeOffsetFetchTopic : Parser (WireString × List DecodedOffset) := do
  let topicName ← readString
  let partitions ← readArray "partitions" decodeOffsetFetchPartition
  pure (topicName,partitions)

def decodeListOffsetsPartition : Parser ListOffsetsPartitionResponse := do
  let partition ← readInt32
  let errorCode ← readInt16
  let timestamp ← readInt64
  let offset ← readInt64
  pure ⟨partition,errorCode,timestamp,offset⟩

def decodeListOffsetsTopic : Parser ListOffsetsTopicResponse := do
  let topicName ← readString
  let partitions ← readArray "partitions" decodeListOffsetsPartition
  pure ⟨topicName,partitions⟩

structure CoordinatorFields where
  nodeID : Int32
  host : Bytes
  port : Int32
  deriving DecidableEq

def decodeFindCoordinatorResponse : Parser (Int16 × CoordinatorFields) := do
  let errorCode ← readInt16
  let nodeID ← readInt32
  let host ← readString
  let port ← readInt32
  pure (errorCode,⟨nodeID,host.1,port⟩)

structure JoinGroupFields where
  generationID : Int32
  protocolName : Bytes
  leader : Bytes
  memberID : Bytes
  members : List JoinGroupMember
  deriving DecidableEq

def decodeJoinGroupMember : Parser JoinGroupMember := do
  let memberID ← readString
  let metadata ← readBlock "metadata length" "metadata"
  pure ⟨memberID.1,metadata⟩

def decodeJoinGroupResponse : Parser (Int16 × JoinGroupFields) := do
  let errorCode ← readInt16
  let generationID ← readInt32
  let protocolName ← readString
  let leader ← readString
  let memberID ← readString
  let members ← readArray "members" decodeJoinGroupMember
  pure (errorCode,⟨generationID,protocolName.1,leader.1,memberID.1,members⟩)

def decodeSyncGroupResponse : Parser (Int16 × Bytes) := do
  let errorCode ← readInt16
  let assignment ← readBlock "assignment length" "assignment"
  pure (errorCode,assignment)

def decodeBroker (version : Int16) : Parser Broker := do
  let nodeID ← readInt32
  let host ← readString
  let port ← readInt32
  let rack ← decodeSince version 1 decodeNullableString none
  pure ⟨nodeID,host.1,port,rack⟩

def decodePartitionMetadata (version : Int16) : Parser PartitionMetadata := do
  let errorCode ← readInt16
  let partition ← readInt32
  let leader ← readInt32
  let replicas ← readArray "replicas" readInt32
  let isr ← readArray "isr" readInt32
  let offlineReplicas ← decodeSince version 5 (readArray "offline replicas" readInt32) []
  pure ⟨errorCode,partition,leader,replicas,isr,offlineReplicas⟩

def decodeTopicMetadata (version : Int16) : Parser TopicMetadata := do
  let errorCode ← readInt16
  let name ← readString
  let isInternal ← decodeSince version 1 readBool false
  let partitions ← readArray "partitions" (decodePartitionMetadata version)
  pure ⟨errorCode,name.1,isInternal,partitions⟩

def decodeMetadataResponse (version : Int16) : Parser (Int32 × MetadataResponse) := do
  let throttleTimeMs ← decodeSince version 3 readInt32 0
  let brokers ← readArray "brokers" (decodeBroker version)
  let clusterID ← decodeSince version 2 decodeNullableString none
  let controllerID ← decodeSince version 1 readInt32 0
  let topics ← readArray "topics" (decodeTopicMetadata version)
  pure (throttleTimeMs,⟨brokers,clusterID,controllerID,topics⟩)

/-! ## What a version carries -/

def Broker.at (version : Int16) (b : Broker) : Broker :=
  {b with rack := if version ≥ 1 then b.rack else none}

def PartitionMetadata.at (version : Int16) (p : PartitionMetadata) : PartitionMetadata :=
  {p with offlineReplicas := if version ≥ 5 then p.offlineReplicas else []}

def TopicMetadata.at (version : Int16) (t : TopicMetadata) : TopicMetadata :=
  {t with
    isInternal := if version ≥ 1 then t.isInternal else false
    partitions := t.partitions.map (PartitionMetadata.at version)}

def MetadataResponse.at (version : Int16) (resp : MetadataResponse) : MetadataResponse where
  brokers := resp.brokers.map (Broker.at version)
  clusterID := if version ≥ 2 then resp.clusterID else none
  controllerID := if version ≥ 1 then resp.controllerID else 0
  topics := resp.topics.map (TopicMetadata.at version)

/-! ## The encoders and their decoders -/

inductive ResponseKind
  | produce
  | offsetCommit
  | offsetFetch
  | listOffsets
  | findCoordinator
  | joinGroup
  | syncGroup
  | metadata (version : Int16)
  deriving DecidableEq

namespace ResponseKind

/-- What the encoder is given, apart from the correlation id. -/
def Value : ResponseKind → Type
  | produce => List ProduceTopicResponse
  | offsetCommit => List OffsetCommitTopicResponse
  | offsetFetch => List OffsetFetchTopicResponse
  | listOffsets => List ListOffsetsTopicResponse
  | findCoordinator => CoordinatorFields
  | joinGroup => JoinGroupFields
  | syncGroup => Bytes
  | metadata _ => MetadataResponse

def encode (correlationID : Int32) : (kind : ResponseKind) → kind.Value → Bytes
  | produce,v => encodeProduceResponse correlationID v
  | offsetCommit,v => encodeOffsetCommitResponse correlationID v
  | offsetFetch,v => encodeOffsetFetchResponse correlationID v
  | listOffsets,v => encodeListOffsetsResponse correlationID v
  | findCoordinator,v => encodeFindCoordinatorResponse correlationID
      (CoordinatorFields.nodeID v) (CoordinatorFields.host v) (CoordinatorFields.port v)
  | joinGroup,v => encodeJoinGroupResponse correlationID (JoinGroupFields.generationID v)
      (JoinGroupFields.protocolName v) (JoinGroupFields.leader v) (JoinGroupFields.memberID v)
      (JoinGroupFields.members v)
  | syncGroup,v => encodeSyncGroupResponse correlationID v
  | metadata version,v => encodeMetadataResponse correlationID version v

/-- What the layout carries behind the correlation id. -/
def Carried : ResponseKind → Type
  | produce => List (WireString × List (ProducePartitionResponse × Int64)) × Int32
  | offsetCommit => List OffsetCommitTopicResponse
  | offsetFetch => List (WireString × List DecodedOffset)
  | listOffsets => List ListOffsetsTopicResponse
  | findCoordinator => Int16 × CoordinatorFields
  | joinGroup => Int16 × JoinGroupFields
  | syncGroup => Int16 × Bytes
  | metadata _ => Int32 × MetadataResponse

def decodeBody : (kind : ResponseKind) → Parser kind.Carried
  | produce => decodeProduceResponse
  | offsetCommit => readArray "topics" decodeOffsetCommitTopic
  | offsetFetch => readArray "topics" decodeOffsetFetchTopic
  | listOffsets => readArray "topics" decodeListOffsetsTopic
  | findCoordinator => decodeFindCoordinatorResponse
  | joinGroup => decodeJoinGroupResponse
  | syncGroup => decodeSyncGroupResponse
  | metadata version => decodeMetadataResponse version

def decode (kind : ResponseKind) : Parser (Int32 × kind.Carried) := do
  let correlationID ← readInt32
  let body ← kind.decodeBody
  pure (correlationID,body)

/-- A produced batch gets no timestamp, no response is throttled and none of the
group responses reports an error. -/
def carried : (kind : ResponseKind) → kind.Value → kind.Carried
  | produce,v => (List.map (fun t : ProduceTopicResponse =>
      (t.topicName,t.partitions.map fun p => (p,-1))) v,0)
  | offsetCommit,v => v
  | offsetFetch,v => List.map (fun t : OffsetFetchTopicResponse =>
      (t.topicName,t.partitions.map fun p : OffsetFetchPartitionResponse =>
        ⟨p.partition,p.committedOffset,some p.committedMetadata,p.errorCode⟩)) v
  | listOffsets,v => v
  | findCoordinator,v => (ErrCodeNone,v)
  | joinGroup,v => (ErrCodeNone,v)
  | syncGroup,v => (ErrCodeNone,v)
  | metadata version,v => (0,MetadataResponse.at version v)

end ResponseKind

/-! ## Range -/

/-- Neither the topics nor the partitions of one of them outnumber a length. -/
def ListsInRange {τ π : Type} (partitions : τ → List π) (topics : List τ) : Prop :=
  topics.length < 2^31 ∧ ∀ t ∈ topics, (partitions t).length < 2^31

def OffsetsInRange (topics : List OffsetFetchTopicResponse) : Prop :=
  ListsInRange OffsetFetchTopicResponse.partitions topics ∧
    ∀ t ∈ topics, ∀ p ∈ t.partitions, p.committedMetadata.length ≤ 32767

def Broker.InRange (b : Broker) : Prop :=
  b.host.length ≤ 32767 ∧ ∀ rack ∈ b.rack, rack.length ≤ 32767

def PartitionMetadata.InRange (p : PartitionMetadata) : Prop :=
  p.replicas.length < 2^31 ∧ p.isr.length < 2^31 ∧ p.offlineReplicas.length < 2^31

def TopicMetadata.InRange (t : TopicMetadata) : Prop :=
  t.name.length ≤ 32767 ∧ t.partitions.length < 2^31 ∧
    ∀ p ∈ t.partitions, PartitionMetadata.InRange p

/-- Strings have at most 32767 bytes, lists and byte fields fewer than 2^31 elements. -/
def InRange : (kind : ResponseKind) → kind.Value → Prop
  | .produce,v => ListsInRange ProduceTopicResponse.partitions v
  | .offsetCommit,v => ListsInRange OffsetCommitTopicResponse.partitions v
  | .offsetFetch,v => OffsetsInRange v
  | .listOffsets,v => ListsInRange ListOffsetsTopicResponse.partitions v
  | .findCoordinator,v => (CoordinatorFields.host v).length ≤ 32767
  | .joinGroup,v => (JoinGroupFields.protocolName v).length ≤ 32767 ∧
      (JoinGroupFields.leader v).length ≤ 32767 ∧ (JoinGroupFields.memberID v).length ≤ 32767 ∧
      (JoinGroupFields.members v).length < 2^31 ∧ ∀ m ∈ JoinGroupFields.members v,
        m.memberID.length ≤ 32767 ∧ m.metadata.length < 2^31
  | .syncGroup,v => List.length v < 2^31
  | .metadata _,v => (MetadataResponse.brokers v).length < 2^31 ∧
      (∀ b ∈ MetadataResponse.brokers v, Broker.InRange b) ∧
      (∀ id ∈ MetadataResponse.clusterID v, id.length ≤ 32767) ∧
      (MetadataResponse.topics v).length < 2^31 ∧
      ∀ t ∈ MetadataResponse.topics v, TopicMetadata.InRange t

/-! ## Reading back -/

theorem returns_readText {s : Bytes} (h : s.length ≤ 32767) :
    Returns readString (writeString s) ⟨s,Nat.lt_succ_of_le h⟩ :=
  returns_readString ⟨s,Nat.lt_succ_of_le h⟩

theorem returns_decodeNullableString {s : Option Bytes} (h : ∀ b ∈ s, b.length ≤ 32767) :
    Returns decodeNullableString (writeNullableString s) s := by
  cases s with
  | none => exact (returns_readInt16 (-1)).map fun _ => none
  | some b =>
      have hn : (Int16.ofNat b.length).toInt = b.length :=
        Int16.toInt_ofNat_of_lt (Nat.lt_succ_of_le (h b rfl))
      have h0 : ¬Int16.ofNat b.length < 0 := by
        have hz : (0 : Int16).toInt = 0 := rfl
        rw [Int16.lt_iff_toInt_lt,hn]
        omega
      apply (returns_readInt16 _).bind
      rw [if_neg h0,hn]
      exact (Returns.readFull (n := (b.length : ℤ).toNat) rfl).map fun b => some b.1

theorem returns_decodeSince {α : Type} {p : Parser α} {b : Bytes} {a : α} (h : Returns p b a)
    (version added : Int16) (absent : α) :
    Returns (decodeSince version added p absent) (since version added b)
      (if version ≥ added then a else absent) := by
  unfold decodeSince since
  split
  · exact h
  · exact Returns.pure absent

section Kinds
variable {correlationID : Int32}

/-- The body is read behind the correlation id. -/
theorem returns_decode {k : ResponseKind} {b : Bytes} {body : k.Carried}
    (h : Returns k.decodeBody b body) :
    Returns k.decode (writeInt32 correlationID++b) (correlationID,body) := by
  apply (returns_readInt32 correlationID).bind
  exact h.map fun body => (correlationID,body)

theorem returns_produce {topics : List ProduceTopicResponse}
    (h : ListsInRange ProduceTopicResponse.partitions topics) :
    Returns ResponseKind.produce.decode (encodeProduceResponse correlationID topics)
      (correlationID,ResponseKind.produce.carried topics) := by
  apply returns_decode
  refine (returns_readArray h.1 (fun t ht => ?_) _).bind ((returns_readInt32 0).map _)
  apply (returns_readString t.topicName).bind
  refine (returns_readArray (h.2 t ht) (fun p _ => ?_) _).map _
  apply (returns_readInt32 p.partition).bind
  apply (returns_readInt16 p.errorCode).bind
  apply (returns_readInt64 p.baseOffset).bind
  exact (returns_readInt64 (-1)).map _

theorem returns_offsetCommit {topics : List OffsetCommitTopicResponse}
    (h : ListsInRange OffsetCommitTopicResponse.partitions topics) :
    Returns ResponseKind.offsetCommit.decode (encodeOffsetCommitResponse correlationID topics)
      (correlationID,topics) := by
  apply returns_decode (k := .offsetCommit)
  refine returns_array h.1 (fun t ht => ?_) _
  apply (returns_readString t.topicName).bind
  refine (returns_array (h.2 t ht) (fun p _ => ?_) _).map _
  apply (returns_readInt32 p.partition).bind
  exact (returns_readInt16 p.errorCode).map _

theorem returns_offsetFetch {topics : List OffsetFetchTopicResponse} (h : OffsetsInRange topics) :
    Returns ResponseKind.offsetFetch.decode (encodeOffsetFetchResponse correlationID topics)
      (correlationID,ResponseKind.offsetFetch.carried topics) := by
  apply returns_decode
  refine returns_readArray h.1.1 (fun t ht => ?_) _
  apply (returns_readString t.topicName).bind
  refine (returns_readArray (h.1.2 t ht) (fun p hp => ?_) _).map _
  have hm : ∀ b ∈ some p.committedMetadata, b.length ≤ 32767 := by
    rintro b ⟨⟩
    exact h.2 t ht p hp
  apply (returns_readInt32 p.partition).bind
  apply (returns_readInt64 p.committedOffset).bind
  apply (returns_decodeNullableString hm).bind
  exact (returns_readInt16 p.errorCode).map _

theorem returns_listOffsets {topics : List ListOffsetsTopicResponse}
    (h : ListsInRange ListOffsetsTopicResponse.partitions topics) :
    Returns ResponseKind.listOffsets.decode (encodeListOffsetsResponse correlationID topics)
      (correlationID,topics) := by
  apply returns_decode (k := .listOffsets)
  refine returns_array h.1 (fun t ht => ?_) _
  apply (returns_readString t.topicName).bind
  refine (returns_array (h.2 t ht) (fun p _ => ?_) _).map _
  apply (returns_readInt32 p.partition).bind
  apply (returns_readInt16 p.errorCode).bind
  apply (returns_readInt64 p.timestamp).bind
  exact (returns_readInt64 p.offset).map _

theorem returns_findCoordinator {v : CoordinatorFields} (h : v.host.length ≤ 32767) :
    Returns ResponseKind.findCoordinator.decode
      (ResponseKind.findCoordinator.encode correlationID v)
      (correlationID,ResponseKind.findCoordinator.carried v) := by
  apply returns_decode
  apply (returns_readInt16 ErrCodeNone).bind
  apply (returns_readInt32 v.nodeID).bind
  apply (returns_readText h).bind
  exact (returns_readInt32 v.port).map _

theorem returns_joinGroup {v : JoinGroupFields} (h : InRange .joinGroup v) :
    Returns ResponseKind.joinGroup.decode (ResponseKind.joinGroup.encode correlationID v)
      (correlationID,ResponseKind.joinGroup.carried v) := by
  obtain ⟨hprotocol,hleader,hmember,hmembers,hm⟩ := h
  apply returns_decode
  apply (returns_readInt16 ErrCodeNone).bind
  apply (returns_readInt32 v.generationID).bind
  apply (returns_readText hprotocol).bind
  apply (returns_readText hleader).bind
  apply (returns_readText hmember).bind
  refine (returns_array hmembers (fun m hmem => ?_) _).map _
  apply (returns_readText (hm m hmem).1).bind
  exact (returns_readBlock (hm m hmem).2 _ _).map _

theorem returns_syncGroup {assignment : Bytes} (h : assignment.length < 2^31) :
    Returns ResponseKind.syncGroup.decode (encodeSyncGroupResponse correlationID assignment)
      (correlationID,ResponseKind.syncGroup.carried assignment) := by
  apply returns_decode
  apply (returns_readInt16 ErrCodeNone).bind
  exact (returns_readBlock h _ _).map _

theorem returns_decodeBroker {b : Broker} (h : Broker.InRange b) (version : Int16) :
    Returns (decodeBroker version) (writeInt32 b.nodeID++(writeString b.host++(writeInt32 b.port++
      since version 1 (writeNullableString b.rack)))) (Broker.at version b) := by
  apply (returns_readInt32 b.nodeID).bind
  apply (returns_readText h.1).bind
  apply (returns_readInt32 b.port).bind
  exact (returns_decodeSince (returns_decodeNullableString h.2) version 1 none).map _

theorem returns_int32s {as : List Int32} (h : as.length < 2^31) (text : String) :
    Returns (readArray text readInt32) (writeArray writeInt32 as) as :=
  returns_array h (fun a _ => returns_readInt32 a) text

theorem returns_decodePartitionMetadata {p : PartitionMetadata} (h : PartitionMetadata.InRange p)
    (version : Int16) : Returns (decodePartitionMetadata version)
      (writePartitionMetadata version p) (PartitionMetadata.at version p) := by
  apply (returns_readInt16 p.errorCode).bind
  apply (returns_readInt32 p.partition).bind
  apply (returns_readInt32 p.leader).bind
  apply (returns_int32s h.1 _).bind
  apply (returns_int32s h.2.1 _).bind
  exact (returns_decodeSince (returns_int32s h.2.2 _) version 5 []).map _

theorem returns_decodeTopicMetadata {t : TopicMetadata} (h : TopicMetadata.InRange t)
    (version : Int16) : Returns (decodeTopicMetadata version)
      (writeInt16 t.errorCode++(writeString t.name++(since version 1 (writeBool t.isInternal)++
        writeArray (writePartitionMetadata version) t.partitions)))
      (TopicMetadata.at version t) := by
  apply (returns_readInt16 t.errorCode).bind
  apply (returns_readText h.1).bind
  apply (returns_decodeSince (returns_readBool t.isInternal) version 1 false).bind
  exact (returns_readArray h.2.1
    (fun p hp => returns_decodePartitionMetadata (h.2.2 p hp) version) _).map _

theorem returns_metadata {version : Int16} {v : MetadataResponse}
    (h : InRange (.metadata version) v) :
    Returns (ResponseKind.metadata version).decode (encodeMetadataResponse correlationID version v)
      (correlationID,(ResponseKind.metadata version).carried v) := by
  obtain ⟨hbrokers,hb,hcluster,htopics,ht⟩ := h
  have hthrottle := returns_decodeSince (returns_readInt32 0) version 3 0
  rw [ite_self] at hthrottle
  apply returns_decode
  apply hthrottle.bind
  apply (returns_readArray hbrokers (fun b hmem => returns_decodeBroker (hb b hmem) version) _).bind
  apply (returns_decodeSince (returns_decodeNullableString hcluster) version 2 none).bind
  apply (returns_decodeSince (returns_readInt32 v.controllerID) version 1 0).bind
  exact (returns_readArray htopics
    (fun t hmem => returns_decodeTopicMetadata (ht t hmem) version) _).map _

end Kinds

/-- Every response is framed with the length of its body, and a decoder of its
layout reads off the body everything that the layout carries. -/
theorem responses_decodable (kind : ResponseKind) (correlationID : Int32) (v : kind.Value)
    (h : InRange kind v) :
    (fullMessage (kind.encode correlationID v)).drop 4 = kind.encode correlationID v ∧
      ((kind.encode correlationID v).length < 2^32 →
        uint ((fullMessage (kind.encode correlationID v)).take 4) =
          (kind.encode correlationID v).length) ∧
      kind.decode (kind.encode correlationID v) = .ok (correlationID,kind.carried v) [] := by
  have hdecode : Returns kind.decode (kind.encode correlationID v)
      (correlationID,kind.carried v) := by
    cases kind with
    | produce => exact returns_produce h
    | offsetCommit => exact returns_offsetCommit h
    | offsetFetch => exact returns_offsetFetch h
    | listOffsets => exact returns_listOffsets h
    | findCoordinator => exact returns_findCoordinator h
    | joinGroup => exact returns_joinGroup h
    | syncGroup => exact returns_syncGroup h
    | metadata version => exact returns_metadata h
  have hall := hdecode []
  rw [List.append_nil] at hall
  refine ⟨?_,fun hlen => ?_,hall⟩
  · rw [fullMessage,frame,List.drop_left' (putUint_length 4 _)]
  · rw [fullMessage,frame,List.take_left' (putUint_length 4 _),uint_putUint_of_lt hlen]

/-- One broker without a rack, in a cluster whose id is empty. -/
theorem metadata_decodable :
    (ResponseKind.metadata 2).decode [0,0,0,7,0,0,0,1,0,0,0,1,0,1,104,0,0,35,132,255,255,
        0,0,0,0,0,1,0,0,0,0] =
      .ok ((7,(0,⟨[⟨1,[104],9092,none⟩],some [],1,[]⟩)) : Int32 × Int32 × MetadataResponse) [] := by
  let resp : MetadataResponse := ⟨[⟨1,[104],9092,none⟩],some [],1,[]⟩
  have hr : InRange (.metadata 2) resp := by simp [InRange,resp,Broker.InRange]
  have hb : encodeMetadataResponse 7 2 resp = [0,0,0,7,0,0,0,1,0,0,0,1,0,1,104,0,0,35,132,
      255,255,0,0,0,0,0,1,0,0,0,0] := by decide +kernel
  have hc : MetadataResponse.at 2 resp = resp := by decide +kernel
  have h := (responses_decodable (.metadata 2) 7 resp hr).2.2
  simp only [ResponseKind.encode,ResponseKind.carried,hb,hc] at h
  exact h

end Kage.ResponseDecoders
