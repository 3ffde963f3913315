import Kage.FieldRoundTrips
import Kage.RequestPanics

/-!
# Requests as a client writes them

The wire layouts that the protocol documents for the requests, as functions that
write a request field by field. Two of them depend on the version and one holds a
string that may be missing, so a request can be written in more than one way;
`Written` lists the ways. Whatever was written in one of them, and whatever
follows it, the parser of the request returns the request and stops behind it.
-/
namespace Kage.RequestEncodings
open ByteStrings FaultyDisk StreamParsers ParsedBytes FetchHandler OffsetRecords OffsetHandlers
open RequestParsers ResponseEncoders FieldRoundTrips RequestPanics

/-! ## Layouts -/

def writeRequestHeader (v : RequestHeader) : Bytes :=
  writeInt32 v.size++(writeInt16 v.apiKey++(writeInt16 v.apiVersion++
    (writeInt32 v.correlationID++writeString v.clientID.1)))

def writeMetadataRequest (version : Int16) (allowAutoTopicCreation : Bool)
    (v : MetadataRequest) : Bytes :=
  writeArray (fun t : WireString => writeString t.1) v.topics++
    since version 4 (writeBool allowAutoTopicCreation)

def writeProduceRequest (version : Int16) (transactionalID : Option WireString)
    (v : ProduceRequest) : Bytes :=
  since version 3 (writeNullableString (transactionalID.map Subtype.val))++
    (writeInt16 v.acks++(writeInt32 v.timeoutMs++writeArray (fun t : ProduceTopicData =>
      writeString t.topicName.1++writeArray (fun p : ProducePartitionData =>
        writeInt32 p.partition++writeBlock p.recordBatch) t.partitions) v.topics))

def writeFetchRequest (v : WireFetchRequest) : Bytes :=
  writeInt32 v.replicaID++(writeInt32 v.maxWaitMs++(writeInt32 v.minBytes++
    (writeInt32 v.maxBytes++(writeInt8 v.isolationLevel++writeArray (fun t : FetchTopicData =>
      writeString t.topicName++writeArray (fun p : FetchPartitionData =>
        writeInt32 p.partition++(writeInt64 p.fetchOffset++writeInt32 p.partitionMaxBytes))
          t.partitions) v.topics))))

/-- The topics of a commit, with metadata that may be missing. -/
abbrev CommitForm := List (WireString × List (OffsetCommitPartition × Option WireString))

/-- Missing metadata are empty ones to the handler. -/
def CommitForm.topics (form : CommitForm) : List WireOffsetCommitTopic :=
  form.map fun t => ⟨t.1,t.2.map fun p => ⟨p.1,p.2.getD emptyString⟩⟩

def CommitForm.write (form : CommitForm) : Bytes :=
  writeArray (fun t : WireString × List (OffsetCommitPartition × Option WireString) =>
    writeString t.1.1++writeArray (fun p : OffsetCommitPartition × Option WireString =>
      writeInt32 p.1.partition++(writeInt64 p.1.committedOffset++
        writeNullableString (p.2.map Subtype.val))) t.2) form

def writeOffsetCommitRequest (v : WireOffsetCommitRequest) (form : CommitForm) : Bytes :=
  writeString v.groupID.1++(writeInt32 v.generationID++(writeString v.memberID.1++
    (writeInt64 v.retentionTimeMs++form.write)))

def writeOffsetFetchRequest (v : OffsetFetchRequest) : Bytes :=
  writeString v.groupID.1++writeArray (fun t : OffsetFetchTopic =>
    writeString t.topicName.1++writeArray writeInt32 t.partitions) v.topics

def writeListOffsetsRequest (v : ListOffsetsRequest) : Bytes :=
  writeInt32 v.replicaID++writeArray (fun t : ListOffsetsTopicRequest =>
    writeString t.topicName.1++writeArray (fun p : ListOffsetsPartitionRequest =>
      writeInt32 p.partition++writeInt64 p.timestamp) t.partitions) v.topics

def writeJoinGroupRequest (v : JoinGroupRequest) : Bytes :=
  writeString v.groupID.1++(writeInt32 v.sessionTimeoutMs++(writeInt32 v.rebalanceTimeoutMs++
    (writeString v.memberID.1++(writeString v.protocolType.1++
      writeArray (fun p : JoinGroupProtocol => writeString p.name.1++writeBlock p.metadata)
        v.protocols))))

def writeHeartbeatRequest (v : HeartbeatRequest) : Bytes :=
  writeString v.groupID.1++(writeInt32 v.generationID++writeString v.memberID.1)

def writeLeaveGroupRequest (v : LeaveGroupRequest) : Bytes :=
  writeString v.groupID.1++writeString v.memberID.1

def writeSyncGroupRequest (v : SyncGroupRequest) : Bytes :=
  writeString v.groupID.1++(writeInt32 v.generationID++(writeString v.memberID.1++
    writeArray (fun a : SyncGroupAssignment => writeString a.memberID.1++writeBlock a.assignment)
      v.assignments))

/-- The ways to write a request in the layout of a version. -/
def Written (version : Int16) : (kind : RequestKind) → kind.Value → Bytes → Prop
  | .header,v,b => b = writeRequestHeader v
  | .metadata,v,b => ∃ allow, b = writeMetadataRequest version allow v
  | .produce,v,b => ∃ transactionalID, b = writeProduceRequest version transactionalID v
  | .fetch,v,b => b = writeFetchRequest v
  | .offsetCommit,v,b =>
      ∃ form : CommitForm, form.topics = WireOffsetCommitRequest.topics v ∧
        b = writeOffsetCommitRequest v form
  | .offsetFetch,v,b => b = writeOffsetFetchRequest v
  | .listOffsets,v,b => b = writeListOffsetsRequest v
  | .findCoordinator,v,b => b = writeString (FindCoordinatorRequest.key v).1
  | .joinGroup,v,b => b = writeJoinGroupRequest v
  | .heartbeat,v,b => b = writeHeartbeatRequest v
  | .leaveGroup,v,b => b = writeLeaveGroupRequest v
  | .syncGroup,v,b => b = writeSyncGroupRequest v

/-- The lengths and counts of a request are in the range of their fields, and
those of produce and list requests below the limit of their parsers. -/
def InRange : (kind : RequestKind) → kind.Value → Prop
  | .header,_ => True
  | .metadata,v => (MetadataRequest.topics v).length < 2^31
  | .produce,v => (ProduceRequest.topics v).length ≤ 1024 ∧
      ∀ t ∈ ProduceRequest.topics v, t.partitions.length ≤ 1024 ∧
        ∀ p ∈ t.partitions, p.recordBatch.length < 2^31
  | .fetch,v => (WireFetchRequest.toFetchRequest v).topics.length < 2^31 ∧
      ∀ t ∈ (WireFetchRequest.toFetchRequest v).topics,
        t.topicName.length ≤ 32767 ∧ t.partitions.length < 2^31
  | .offsetCommit,v => (WireOffsetCommitRequest.topics v).length < 2^31 ∧
      ∀ t ∈ WireOffsetCommitRequest.topics v, t.partitions.length < 2^31
  | .offsetFetch,v => (OffsetFetchRequest.topics v).length < 2^31 ∧
      ∀ t ∈ OffsetFetchRequest.topics v, t.partitions.length < 2^31
  | .listOffsets,v => (ListOffsetsRequest.topics v).length ≤ 1024 ∧
      ∀ t ∈ ListOffsetsRequest.topics v, t.partitions.length ≤ 1024
  | .findCoordinator,_ => True
  | .joinGroup,v => (JoinGroupRequest.protocols v).length < 2^31 ∧
      ∀ p ∈ JoinGroupRequest.protocols v, p.metadata.length < 2^31
  | .heartbeat,_ => True
  | .leaveGroup,_ => True
  | .syncGroup,v => (SyncGroupRequest.assignments v).length < 2^31 ∧
      ∀ a ∈ SyncGroupRequest.assignments v, a.assignment.length < 2^31

/-! ## Requests -/

theorem returns_parseRequestHeader (v : RequestHeader) :
    Returns parseRequestHeader (writeRequestHeader v) v := by
  apply (returns_readInt32 v.size).bind
  apply (returns_readInt16 v.apiKey).bind
  apply (returns_readInt16 v.apiVersion).bind
  apply (returns_readInt32 v.correlationID).bind
  exact (returns_readString v.clientID).map _

theorem returns_parseMetadataRequest {v : MetadataRequest} (h : v.topics.length < 2^31)
    (header : RequestHeader) (allow : Bool) :
    Returns (parseMetadataRequest header) (writeMetadataRequest header.apiVersion allow v) v := by
  apply (returns_array h (fun t _ => (returns_readString t).context _) _).bind
  rw [since]
  split
  · exact ((returns_readBool allow).context _).map fun _ => v
  · exact Returns.pure v

theorem returns_readBatch {b : Bytes} (h : b.length < 2^31) :
    Returns readBatch (writeBlock b) b := by
  refine ((returns_readInt32 _).context _).bind ?_
  have h0 : ¬Int32.ofNat b.length < 0 := by
    have hz : (0 : Int32).toInt = 0 := rfl
    rw [Int32.lt_iff_toInt_lt,Int32.toInt_ofNat_of_lt h]
    omega
  rw [if_neg h0]
  exact (returns_readBytes h).context _

theorem returns_readTransactionalID (s : Option WireString) :
    Returns readTransactionalID (writeNullableString (s.map Subtype.val)) () := by
  cases s with
  | none =>
      exact ((returns_readInt16 (-1)).context "produce request: read transactional_id length").map
        fun _ => ()
  | some s =>
      have hn : (Int16.ofNat s.1.length).toInt = s.1.length := Int16.toInt_ofNat_of_lt s.2
      refine ((returns_readInt16 _).context _).bind ?_
      split
      · rename_i hpos
        refine Returns.map (a := s.1) (Returns.context ?_ _) fun _ => ()
        rw [readBytes,hn,if_neg ?_]
        · exact (Returns.readFull (n := (s.1.length : ℤ).toNat) rfl).map fun b => b.1
        · have hz : (0 : Int16).toInt = 0 := rfl
          rw [gt_iff_lt,Int16.lt_iff_toInt_lt] at hpos
          omega
      · rename_i hpos
        have h0 : s.1 = [] := by
          rw [gt_iff_lt,Int16.not_lt,Int16.le_iff_toInt_le] at hpos
          have hz : (0 : Int16).toInt = 0 := rfl
          exact List.length_eq_zero_iff.mp (by omega)
        change Returns (Pure.pure ()) s.1 ()
        rw [h0]
        exact Returns.pure ()

theorem returns_parseProducePartition {p : ProducePartitionData}
    (h : p.recordBatch.length < 2^31) :
    Returns parseProducePartition (writeInt32 p.partition++writeBlock p.recordBatch) p := by
  apply ((returns_readInt32 p.partition).context _).bind
  exact (returns_readBatch h).map _

theorem returns_parseProduceBody {v : ProduceRequest} (h : InRange .produce v) :
    Returns parseProduceBody (writeInt16 v.acks++(writeInt32 v.timeoutMs++
      writeArray (fun t : ProduceTopicData => writeString t.topicName.1++
        writeArray (fun p : ProducePartitionData =>
          writeInt32 p.partition++writeBlock p.recordBatch) t.partitions) v.topics)) v := by
  apply ((returns_readInt16 v.acks).context _).bind
  apply ((returns_readInt32 v.timeoutMs).context _).bind
  refine (returns_readCheckedArray h.1 (fun t ht => ?_) _ _).map _
  apply ((returns_readString t.topicName).context _).bind
  refine (returns_readCheckedArray (h.2 t ht).1 (fun p hp => ?_) _ _).map _
  exact returns_parseProducePartition ((h.2 t ht).2 p hp)

theorem returns_parseProduceRequest {v : ProduceRequest} (h : InRange .produce v)
    (header : RequestHeader) (transactionalID : Option WireString) :
    Returns (parseProduceRequest header)
      (writeProduceRequest header.apiVersion transactionalID v) v := by
  rw [parseProduceRequest,writeProduceRequest,since]
  split
  · exact (returns_readTransactionalID transactionalID).bind (returns_parseProduceBody h)
  · exact returns_parseProduceBody h

theorem returns_parseFetchPartition (p : FetchPartitionData) :
    Returns parseFetchPartition (writeInt32 p.partition++(writeInt64 p.fetchOffset++
      writeInt32 p.partitionMaxBytes)) p := by
  apply ((returns_readInt32 p.partition).context _).bind
  apply ((returns_readInt64 p.fetchOffset).context _).bind
  exact ((returns_readInt32 p.partitionMaxBytes).context _).map _

theorem returns_parseFetchRequest {v : WireFetchRequest} (h : InRange .fetch v) :
    Returns parseFetchRequest (writeFetchRequest v) v := by
  apply ((returns_readInt32 v.replicaID).context _).bind
  apply ((returns_readInt32 v.maxWaitMs).context _).bind
  apply ((returns_readInt32 v.minBytes).context _).bind
  apply ((returns_readInt32 v.maxBytes).context _).bind
  apply ((returns_readInt8 v.isolationLevel).context _).bind
  refine (returns_array h.1 (fun t ht => ?_) _).map _
  have hs : t.topicName.length < 2^15 := Nat.lt_succ_of_le (h.2 t ht).1
  apply ((returns_readString ⟨t.topicName,hs⟩).context _).bind
  exact (returns_array (h.2 t ht).2 (fun p _ => returns_parseFetchPartition p) _).map _

theorem returns_parseOffsetCommitPartition (p : OffsetCommitPartition × Option WireString) :
    Returns parseOffsetCommitPartition (writeInt32 p.1.partition++(writeInt64 p.1.committedOffset++
      writeNullableString (p.2.map Subtype.val))) ⟨p.1,p.2.getD emptyString⟩ := by
  apply ((returns_readInt32 p.1.partition).context _).bind
  apply ((returns_readInt64 p.1.committedOffset).context _).bind
  exact ((returns_nullableString p.2).context _).map _

theorem returns_parseOffsetCommitRequest {v : WireOffsetCommitRequest}
    (h : InRange .offsetCommit v) {form : CommitForm} (hf : form.topics = v.topics) :
    Returns parseOffsetCommitRequest (writeOffsetCommitRequest v form) v := by
  obtain ⟨groupID,generationID,memberID,retentionTimeMs,topics⟩ := v
  obtain rfl : form.topics = topics := hf
  have hl : form.length < 2^31 := by
    have := h.1
    rwa [CommitForm.topics,List.length_map] at this
  apply ((returns_readString groupID).context _).bind
  apply ((returns_readInt32 generationID).context _).bind
  apply ((returns_readString memberID).context _).bind
  apply ((returns_readInt64 retentionTimeMs).context _).bind
  refine (returns_readArray hl (fun t ht => ?_) _).map _
  have hp : t.2.length < 2^31 := by
    have := h.2 _ (List.mem_map_of_mem ht)
    rwa [List.length_map] at this
  apply ((returns_readString t.1).context _).bind
  exact (returns_readArray hp (fun p _ => returns_parseOffsetCommitPartition p) _).map _

theorem returns_parseOffsetFetchRequest {v : OffsetFetchRequest} (h : InRange .offsetFetch v) :
    Returns parseOffsetFetchRequest (writeOffsetFetchRequest v) v := by
  apply ((returns_readString v.groupID).context _).bind
  refine (returns_array h.1 (fun t ht => ?_) _).map _
  apply ((returns_readString t.topicName).context _).bind
  exact (returns_array (h.2 t ht) (fun p _ => (returns_readInt32 p).context _) _).map _

theorem returns_parseListOffsetsRequest {v : ListOffsetsRequest} (h : InRange .listOffsets v) :
    Returns parseListOffsetsRequest (writeListOffsetsRequest v) v := by
  apply ((returns_readInt32 v.replicaID).context _).bind
  refine (returns_readCheckedArray h.1 (fun t ht => ?_) _ _).map _
  apply ((returns_readString t.topicName).context _).bind
  refine (returns_readCheckedArray (h.2 t ht) (fun p _ => ?_) _ _).map _
  apply ((returns_readInt32 p.partition).context _).bind
  exact ((returns_readInt64 p.timestamp).context _).map _

theorem returns_parseJoinGroupRequest {v : JoinGroupRequest} (h : InRange .joinGroup v) :
    Returns parseJoinGroupRequest (writeJoinGroupRequest v) v := by
  apply ((returns_readString v.groupID).context _).bind
  apply ((returns_readInt32 v.sessionTimeoutMs).context _).bind
  apply ((returns_readInt32 v.rebalanceTimeoutMs).context _).bind
  apply ((returns_readString v.memberID).context _).bind
  apply ((returns_readString v.protocolType).context _).bind
  refine (returns_array h.1 (fun p hp => ?_) _).map _
  apply ((returns_readString p.name).context _).bind
  exact (returns_readBlock (h.2 p hp) _ _).map _

theorem returns_parseHeartbeatRequest (v : HeartbeatRequest) :
    Returns parseHeartbeatRequest (writeHeartbeatRequest v) v := by
  apply ((returns_readString v.groupID).context _).bind
  apply ((returns_readInt32 v.generationID).context _).bind
  exact ((returns_readString v.memberID).context _).map _

theorem returns_parseLeaveGroupRequest (v : LeaveGroupRequest) :
    Returns parseLeaveGroupRequest (writeLeaveGroupRequest v) v := by
  apply ((returns_readString v.groupID).context _).bind
  exact ((returns_readString v.memberID).context _).map _

theorem returns_parseSyncGroupRequest {v : SyncGroupRequest} (h : InRange .syncGroup v) :
    Returns parseSyncGroupRequest (writeSyncGroupRequest v) v := by
  apply ((returns_readString v.groupID).context _).bind
  apply ((returns_readInt32 v.generationID).context _).bind
  apply ((returns_readString v.memberID).context _).bind
  refine (returns_array h.1 (fun a ha => ?_) _).map _
  apply ((returns_readString a.memberID).context _).bind
  exact (returns_readBlock (h.2 a ha) _ _).map _

/-- A request that was written in the layout of its version is read back, and what
follows it is left for the next one. -/
theorem written_requests_read_back (kind : RequestKind) (header : RequestHeader)
    (v : kind.Value) (hr : InRange kind v) (b : Bytes) (hw : Written header.apiVersion kind v b)
    (rest : Bytes) : kind.parse header (b++rest) = .ok v rest := by
  cases kind with
  | header =>
      obtain rfl : b = writeRequestHeader v := hw
      exact returns_parseRequestHeader v rest
  | metadata =>
      obtain ⟨allow,rfl⟩ := hw
      exact returns_parseMetadataRequest hr header allow rest
  | produce =>
      obtain ⟨transactionalID,rfl⟩ := hw
      exact returns_parseProduceRequest hr header transactionalID rest
  | fetch =>
      obtain rfl : b = writeFetchRequest v := hw
      exact returns_parseFetchRequest hr rest
  | offsetCommit =>
      obtain ⟨form,hf,rfl⟩ := hw
      exact returns_parseOffsetCommitRequest hr hf rest
  | offsetFetch =>
      obtain rfl : b = writeOffsetFetchRequest v := hw
      exact returns_parseOffsetFetchRequest hr rest
  | listOffsets =>
      obtain rfl : b = writeListOffsetsRequest v := hw
      exact returns_parseListOffsetsRequest hr rest
  | findCoordinator =>
      obtain rfl : b = writeString (FindCoordinatorRequest.key v).1 := hw
      exact ((returns_readString (FindCoordinatorRequest.key v)).context _).map _ rest
  | joinGroup =>
      obtain rfl : b = writeJoinGroupRequest v := hw
      exact returns_parseJoinGroupRequest hr rest
  | heartbeat =>
      obtain rfl : b = writeHeartbeatRequest v := hw
      exact returns_parseHeartbeatRequest v rest
  | leaveGroup =>
      obtain rfl : b = writeLeaveGroupRequest v := hw
      exact returns_parseLeaveGroupRequest v rest
  | syncGroup =>
      obtain rfl : b = writeSyncGroupRequest v := hw
      exact returns_parseSyncGroupRequest hr rest

/-- A produce request of version 3 without a transactional id, and a byte behind it. -/
theorem written_produce_read_back :
    RequestKind.produce.parse ⟨0,0,3,0,emptyString⟩
        ([255,255,0,1,0,0,3,232,0,0,0,1,0,0,0,0,0,1,0,0,0,4,0,0,0,2,7,8]++[9]) =
      .ok ⟨1,1000,[⟨emptyString,[⟨4,[7,8]⟩]⟩]⟩ [9] := by
  have hr : InRange .produce ⟨1,1000,[⟨emptyString,[⟨4,[7,8]⟩]⟩]⟩ := by
    simp [InRange]
  exact written_requests_read_back .produce ⟨0,0,3,0,emptyString⟩ _ hr _
    ⟨none,by decide +kernel⟩ [9]

end Kage.RequestEncodings
