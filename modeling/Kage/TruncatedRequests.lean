import Kage.ParsedBytes
import Kage.RequestPanics

/-!
# Requests that arrive in part

A request is parsed from a stream, so its bytes may end anywhere. Every field of
every parser is `Exact`: it is read in full or not at all, and the error of the
read is passed on. A parser therefore fails on each proper part of what it would
have read, and returns the same value whatever follows.
-/
namespace Kage.TruncatedRequests
open ByteStrings FaultyDisk StreamParsers ParsedBytes FetchHandler OffsetRecords OffsetHandlers
open RequestParsers RequestPanics

/-! ## Fields -/

theorem exact_readInt8 : Exact readInt8 := (Exact.readFull 1).map fun b => toInt8 b.1

theorem exact_readInt16 : Exact readInt16 := (Exact.readFull 2).map fun b => toInt16 b.1

theorem exact_readInt32 : Exact readInt32 := (Exact.readFull 4).map fun b => toInt32 b.1

theorem exact_readInt64 : Exact readInt64 := (Exact.readFull 8).map fun b => toInt64 b.1

theorem exact_readBool : Exact readBool := exact_readInt8.map fun value => value != 0

theorem exact_readBytes (n : ℤ) : Exact (readBytes n) :=
  .ite (.pure []) ((Exact.readFull n.toNat).map fun b => b.1)

theorem exact_readString : Exact readString :=
  exact_readInt16.bind fun length =>
    .ite (.pure emptyString) ((Exact.readFull length.toInt.toNat).map _)

theorem exact_readArray {α : Type} {p : Parser α} (hp : Exact p) (countText : String) :
    Exact (readArray countText p) :=
  (exact_readInt32.context _).bind fun _ => .ite .crash (hp.times _)

theorem exact_readCheckedArray {α : Type} {p : Parser α} (hp : Exact p)
    (countText invalidText : String) : Exact (readCheckedArray countText invalidText p) :=
  (exact_readInt32.context _).bind fun _ => .ite (.fail _) (hp.times _)

theorem exact_readBlock (lengthText dataText : String) :
    Exact (readBlock lengthText dataText) :=
  (exact_readInt32.context _).bind fun _ => .ite ((exact_readBytes _).context _) (.pure [])

theorem exact_readTransactionalID : Exact readTransactionalID :=
  (exact_readInt16.context _).bind fun _ =>
    .ite (((exact_readBytes _).context _).map _) (.pure ())

theorem exact_readBatch : Exact readBatch :=
  (exact_readInt32.context _).bind fun _ => .ite (.fail _) ((exact_readBytes _).context _)

/-! ## Requests -/

theorem exact_parseRequestHeader : Exact parseRequestHeader :=
  exact_readInt32.bind fun _ => exact_readInt16.bind fun _ => exact_readInt16.bind fun _ =>
    exact_readInt32.bind fun _ => exact_readString.map _

theorem exact_parseMetadataRequest (header : RequestHeader) :
    Exact (parseMetadataRequest header) :=
  (exact_readArray (exact_readString.context _) _).bind fun _ =>
    .ite ((exact_readBool.context _).map _) (.pure _)

theorem exact_parseProduceRequest (header : RequestHeader) :
    Exact (parseProduceRequest header) := by
  have hp : Exact parseProducePartition :=
    (exact_readInt32.context _).bind fun _ => exact_readBatch.map _
  have ht : Exact parseProduceTopic :=
    (exact_readString.context _).bind fun _ => (exact_readCheckedArray hp _ _).map _
  have hb : Exact parseProduceBody :=
    (exact_readInt16.context _).bind fun _ => (exact_readInt32.context _).bind fun _ =>
      (exact_readCheckedArray ht _ _).map _
  exact .ite (exact_readTransactionalID.bind fun _ => hb) hb

theorem exact_parseFetchRequest : Exact parseFetchRequest := by
  have hp : Exact parseFetchPartition :=
    (exact_readInt32.context _).bind fun _ => (exact_readInt64.context _).bind fun _ =>
      (exact_readInt32.context _).map _
  have ht : Exact parseFetchTopic :=
    (exact_readString.context _).bind fun _ => (exact_readArray hp _).map _
  exact (exact_readInt32.context _).bind fun _ => (exact_readInt32.context _).bind fun _ =>
    (exact_readInt32.context _).bind fun _ => (exact_readInt32.context _).bind fun _ =>
      (exact_readInt8.context _).bind fun _ => (exact_readArray ht _).map _

theorem exact_parseOffsetCommitRequest : Exact parseOffsetCommitRequest := by
  have hp : Exact parseOffsetCommitPartition :=
    (exact_readInt32.context _).bind fun _ => (exact_readInt64.context _).bind fun _ =>
      (exact_readString.context _).map _
  have ht : Exact parseOffsetCommitTopic :=
    (exact_readString.context _).bind fun _ => (exact_readArray hp _).map _
  exact (exact_readString.context _).bind fun _ => (exact_readInt32.context _).bind fun _ =>
    (exact_readString.context _).bind fun _ => (exact_readInt64.context _).bind fun _ =>
      (exact_readArray ht _).map _

theorem exact_parseOffsetFetchRequest : Exact parseOffsetFetchRequest := by
  have ht : Exact parseOffsetFetchTopic :=
    (exact_readString.context _).bind fun _ =>
      (exact_readArray (exact_readInt32.context _) _).map _
  exact (exact_readString.context _).bind fun _ => (exact_readArray ht _).map _

theorem exact_parseListOffsetsRequest : Exact parseListOffsetsRequest := by
  have hp : Exact parseListOffsetsPartition :=
    (exact_readInt32.context _).bind fun _ => (exact_readInt64.context _).map _
  have ht : Exact parseListOffsetsTopic :=
    (exact_readString.context _).bind fun _ => (exact_readCheckedArray hp _ _).map _
  exact (exact_readInt32.context _).bind fun _ => (exact_readCheckedArray ht _ _).map _

theorem exact_parseJoinGroupRequest : Exact parseJoinGroupRequest := by
  have hp : Exact parseJoinGroupProtocol :=
    (exact_readString.context _).bind fun _ => (exact_readBlock _ _).map _
  exact (exact_readString.context _).bind fun _ => (exact_readInt32.context _).bind fun _ =>
    (exact_readInt32.context _).bind fun _ => (exact_readString.context _).bind fun _ =>
      (exact_readString.context _).bind fun _ => (exact_readArray hp _).map _

theorem exact_parseSyncGroupRequest : Exact parseSyncGroupRequest := by
  have hp : Exact parseSyncGroupAssignment :=
    (exact_readString.context _).bind fun _ => (exact_readBlock _ _).map _
  exact (exact_readString.context _).bind fun _ => (exact_readInt32.context _).bind fun _ =>
    (exact_readString.context _).bind fun _ => (exact_readArray hp _).map _

theorem exact_parse (h : RequestHeader) (kind : RequestKind) : Exact (kind.parse h) := by
  cases kind with
  | header => exact exact_parseRequestHeader
  | metadata => exact exact_parseMetadataRequest h
  | produce => exact exact_parseProduceRequest h
  | fetch => exact exact_parseFetchRequest
  | offsetCommit => exact exact_parseOffsetCommitRequest
  | offsetFetch => exact exact_parseOffsetFetchRequest
  | listOffsets => exact exact_parseListOffsetsRequest
  | findCoordinator => exact (exact_readString.context _).map _
  | joinGroup => exact exact_parseJoinGroupRequest
  | heartbeat =>
      exact (exact_readString.context _).bind fun _ => (exact_readInt32.context _).bind fun _ =>
        (exact_readString.context _).map _
  | leaveGroup =>
      exact (exact_readString.context _).bind fun _ => (exact_readString.context _).map _
  | syncGroup => exact exact_parseSyncGroupRequest

/-- A parser that returns a value has read it off the bytes in front of the rest:
on every proper part of them it returns an error, and with anything else behind
them the same value. -/
theorem truncated_requests_rejected (kind : RequestKind) (h : RequestHeader) (s : Bytes)
    (v : kind.Value) (rest : Bytes) (hp : kind.parse h s = .ok v rest) :
    rest = s.drop (s.length-rest.length) ∧
      (∀ c, c <+: s.take (s.length-rest.length) → c ≠ s.take (s.length-rest.length) →
        ∃ e, kind.parse h c = .error e) ∧
      ∀ other, kind.parse h (s.take (s.length-rest.length)++other) = .ok v other := by
  obtain ⟨b,rfl,hb,hcut⟩ := exact_parse h kind s v rest hp
  have hlen : (b++rest).length-rest.length = b.length := by
    rw [List.length_append,Nat.add_sub_cancel]
  rw [hlen,List.take_left,List.drop_left]
  exact ⟨rfl,hcut,hb⟩

/-- A heartbeat of the group `g` with a byte behind it. -/
theorem truncated_heartbeat_rejected :
    RequestKind.heartbeat.parse ⟨0,12,0,0,emptyString⟩ [0,1,103,0,0,0,0,0,0,255] =
        .ok ⟨⟨[103],by decide⟩,0,emptyString⟩ [255] ∧
      (∀ c, c <+: [0,1,103,0,0,0,0,0,0] → c ≠ [0,1,103,0,0,0,0,0,0] →
        ∃ e, RequestKind.heartbeat.parse ⟨0,12,0,0,emptyString⟩ c = .error e) := by
  have hp : parseHeartbeatRequest [0,1,103,0,0,0,0,0,0,255] =
      .ok ⟨⟨[103],by decide⟩,0,emptyString⟩ [255] := by decide +kernel
  exact ⟨hp,(truncated_requests_rejected .heartbeat ⟨0,12,0,0,emptyString⟩ _ _ _ hp).2.1⟩

end Kage.TruncatedRequests
