import Kage.RequestParsers

/-!
# Requests that take the process down

Most parsers make a slice for a count before they look at its sign, and a
negative capacity is a panic that nothing recovers from. `RequestKind` lists the
parsers of the protocol, with the layout that each of them reads. On every
stream a parser returns a value or an error, unless the layout leads to a
negative count that it does not check; two of them check all of their counts and
four have none.
-/
namespace Kage.RequestPanics
open ByteStrings FaultyDisk StreamParsers WireLayouts OffsetHandlers RequestParsers

inductive RequestKind where
  | header
  | metadata
  | produce
  | fetch
  | offsetCommit
  | offsetFetch
  | listOffsets
  | findCoordinator
  | joinGroup
  | heartbeat
  | leaveGroup
  | syncGroup
  deriving DecidableEq, Repr

namespace RequestKind

/-- What the parser returns. -/
def Value : RequestKind → Type
  | header => RequestHeader
  | metadata => MetadataRequest
  | produce => ProduceRequest
  | fetch => WireFetchRequest
  | offsetCommit => WireOffsetCommitRequest
  | offsetFetch => OffsetFetchRequest
  | listOffsets => ListOffsetsRequest
  | findCoordinator => FindCoordinatorRequest
  | joinGroup => JoinGroupRequest
  | heartbeat => HeartbeatRequest
  | leaveGroup => LeaveGroupRequest
  | syncGroup => SyncGroupRequest

def parse (h : RequestHeader) : (kind : RequestKind) → Parser kind.Value
  | header => parseRequestHeader
  | metadata => parseMetadataRequest h
  | produce => parseProduceRequest h
  | fetch => parseFetchRequest
  | offsetCommit => parseOffsetCommitRequest
  | offsetFetch => parseOffsetFetchRequest
  | listOffsets => parseListOffsetsRequest
  | findCoordinator => parseFindCoordinatorRequest
  | joinGroup => parseJoinGroupRequest
  | heartbeat => parseHeartbeatRequest
  | leaveGroup => parseLeaveGroupRequest
  | syncGroup => parseSyncGroupRequest

def layout (version : Int16) : RequestKind → Layout
  | header => .field 4 (headerLayout .done)
  | metadata => metadataLayout version
  | produce => produceLayout version
  | fetch => fetchLayout
  | offsetCommit => offsetCommitLayout
  | offsetFetch => offsetFetchLayout
  | listOffsets => listOffsetsLayout
  | findCoordinator => findCoordinatorLayout
  | joinGroup => joinGroupLayout
  | heartbeat => heartbeatLayout
  | leaveGroup => leaveGroupLayout
  | syncGroup => syncGroupLayout

theorem walks (h : RequestHeader) (kind : RequestKind) :
    Walks maxCount (kind.parse h) (kind.layout h.apiVersion) := by
  cases kind with
  | header => exact walks_parseRequestHeader
  | metadata => exact walks_parseMetadataRequest h
  | produce => exact walks_parseProduceRequest h
  | fetch => exact walks_parseFetchRequest
  | offsetCommit => exact walks_parseOffsetCommitRequest
  | offsetFetch => exact walks_parseOffsetFetchRequest
  | listOffsets => exact walks_parseListOffsetsRequest
  | findCoordinator => exact walks_parseFindCoordinatorRequest
  | joinGroup => exact walks_parseJoinGroupRequest
  | heartbeat => exact walks_parseHeartbeatRequest
  | leaveGroup => exact walks_parseLeaveGroupRequest
  | syncGroup => exact walks_parseSyncGroupRequest

end RequestKind

/-- No array of a layout has this limit. -/
def Limited (free : ℕ) : Layout → Prop
  | .done => True
  | .field _ next => Limited free next
  | .string next => Limited free next
  | .blob _ next => Limited free next
  | .array limit element next => limit ≠ free ∧ Limited free element ∧ Limited free next

theorem not_stumbles {free : ℕ} {L : Layout} (h : Limited free L) (s : Bytes) :
    ¬Stumbles free L s := by
  induction L generalizing s with
  | done => exact id
  | field width next ih =>
      rintro ⟨rest,-,hs⟩
      exact ih h rest hs
  | string next ih =>
      rintro ⟨rest,-,hs⟩
      exact ih h rest hs
  | blob negative next ih =>
      rintro ⟨rest,-,hs⟩
      exact ih h rest hs
  | array limit element next he ih =>
      rintro (⟨-,hs|⟨-,j,-,rest,-,hs⟩⟩|⟨rest,-,hs⟩)
      · exact h.1 hs.1
      · exact he h.2.1 rest hs
      · exact ih h.2.2 rest hs

/-- Parsers that check all of their counts, or have none. -/
theorem checked_parser_returns {kind : RequestKind} (hk : kind ∈ [RequestKind.header,.produce,
    .listOffsets,.findCoordinator,.heartbeat,.leaveGroup]) (h : RequestHeader) (s : Bytes) :
    kind.parse h s ≠ .panic := by
  have hlimit : Limited maxCount (kind.layout h.apiVersion) := by
    have hc : (1024 : ℕ) ≠ maxCount := by decide
    simp only [List.mem_cons,List.not_mem_nil,or_false] at hk
    rcases hk with rfl|rfl|rfl|rfl|rfl|rfl
    · trivial
    · have hb : Limited maxCount produceBodyLayout := ⟨hc,⟨hc,trivial,trivial⟩,trivial⟩
      change Limited maxCount (produceLayout h.apiVersion)
      unfold produceLayout
      split <;> exact hb
    · exact ⟨hc,⟨hc,trivial,trivial⟩,trivial⟩
    · trivial
    · trivial
    · trivial
  exact fun hp => not_stumbles hlimit s (((kind.walks h).2 s).mp hp)

/-- A parser returns a value or an error exactly on the streams on which its
layout does not lead to a negative count that it does not check. -/
theorem parser_returns_iff (kind : RequestKind) (h : RequestHeader) (s : Bytes) :
    ((∃ v rest, kind.parse h s = .ok v rest) ∨ ∃ e, kind.parse h s = .error e) ↔
      ¬Stumbles maxCount (kind.layout h.apiVersion) s := by
  rw [← (kind.walks h).2 s]
  cases kind.parse h s with
  | ok v rest => simp
  | error e => simp
  | panic => simp

/-- Four bytes that ask for minus one topic. -/
theorem negative_topic_count_panics :
    parseMetadataRequest ⟨12,3,1,0,emptyString⟩ [255,255,255,255] = .panic := by
  decide +kernel

end Kage.RequestPanics
