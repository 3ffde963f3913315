import Kage.FieldRoundTrips

/-!
# The frame of a fetch response

The length in front of a fetch response is added up from the sizes of its parts
before any of them is written. It is the number of bytes that follow, and a
decoder of the documented layout reads off them what the handler put into the
response: a partition with a batch, one with an empty batch and one with none
stay apart.

The handler is needed for it. The sizes that it puts into an entry are those of
the batch that goes with it, in the range of thirty-two bits, and minus one
without a batch.
-/
namespace Kage.FetchFrames
open ByteStrings LengthPrefixed FaultyDisk StreamParsers ParsedBytes BrokerStores FetchHandler
open RecordBatches FetchBudgets RequestParsers ResponseEncoders FieldRoundTrips

/-- A partition as the layout carries it. -/
structure DecodedPartition where
  partition : Int32
  errorCode : Int16
  highWatermark : Int64
  lastStableOffset : Int64
  abortedTransactions : Int32
  batchSize : Int32
  recordBatch : Option Bytes
  deriving DecidableEq

/-- There is no batch behind a negative size. -/
def decodeRecordBatch (batchSize : Int32) : Parser (Option Bytes) :=
  if batchSize < 0 then pure none else do
    let batch ← readBytes batchSize.toInt
    pure (some batch)

def decodeFetchPartition : Parser DecodedPartition := do
  let partition ← readInt32
  let errorCode ← readInt16
  let highWatermark ← readInt64
  let lastStableOffset ← readInt64
  let abortedTransactions ← readInt32
  let batchSize ← readInt32
  let recordBatch ← decodeRecordBatch batchSize
  pure ⟨partition,errorCode,highWatermark,lastStableOffset,abortedTransactions,batchSize,
    recordBatch⟩

def decodeFetchTopic : Parser (Bytes × List DecodedPartition) := do
  let topicName ← readString
  let partitions ← readArray "partitions" decodeFetchPartition
  pure (topicName.1,partitions)

structure DecodedFetch where
  correlationID : Int32
  throttleTimeMs : Int32
  topics : List (Bytes × List DecodedPartition)
  deriving DecidableEq

def decodeFetchResponse : Parser DecodedFetch := do
  let correlationID ← readInt32
  let throttleTimeMs ← readInt32
  let topics ← readArray "topics" decodeFetchTopic
  pure ⟨correlationID,throttleTimeMs,topics⟩

/-- No transaction holds back the last stable offset, and none was aborted. -/
def carriedPartition (p : FetchPartitionResponse) : DecodedPartition :=
  ⟨p.partition,p.errorCode,p.highWatermark,p.highWatermark,0,p.batchSize,p.recordBatch⟩

def carriedTopic (t : FetchTopicResponse) : Bytes × List DecodedPartition :=
  (t.topicName,t.partitions.map carriedPartition)

/-- The size says whether there is a batch, and how long it is. -/
def Whole (p : FetchPartitionResponse) : Prop :=
  (p.batchSize = -1 ∧ p.recordBatch = none) ∨
    ∃ batch, p.recordBatch = some batch ∧ p.batchSize = Int32.ofNat batch.length ∧
      batch.length < 2^31

theorem answered_whole {part : FetchPartitionData} {remaining left : Int32}
    {resp : FetchPartitionResponse} (h : Answered part remaining resp left) : Whole resp := by
  cases h with
  | unserved _ hb hr => exact .inl ⟨hb,hr⟩
  | served batch _ hr hb hn =>
      have hlt := remaining.toInt_lt
      exact .inr ⟨batch,hr,hb,by omega⟩

theorem handleFetch_whole (req : FetchRequest) (bs : BrokerStore) (d : Disk) :
    ∀ t ∈ (handleFetch req bs d).1, ∀ p ∈ t.partitions, Whole p :=
  handleFetch_forall (fun topicName part remaining bs d =>
    answered_whole (fetchPartition_answered topicName part remaining bs d)) req bs d

/-! ## Reading back -/

/-- Elements that are not empty are no more than their bytes. -/
theorem length_le_flatMap {α β : Type} {f : α → List β} (h : ∀ a, 0 < (f a).length)
    (as : List α) : as.length ≤ (as.flatMap f).length := by
  induction as with
  | nil => exact le_rfl
  | cons a as ih =>
      have := h a
      rw [List.flatMap_cons,List.length_append,List.length_cons]
      omega

theorem length_le_writeArray {α : Type} {f : α → Bytes} (h : ∀ a, 0 < (f a).length)
    (as : List α) : as.length+4 ≤ (writeArray f as).length := by
  have := length_le_flatMap h as
  rw [writeArray,List.length_append,writeInt32_length]
  omega

/-- The bytes behind the length. -/
def fetchBody (correlationID throttleTimeMs : Int32) (topics : List FetchTopicResponse) : Bytes :=
  writeInt32 correlationID++(writeInt32 throttleTimeMs++
    writeArray (fun t => (topicWrites t).flatten) topics)

theorem writeFetchResponse_body {topics : List FetchTopicResponse}
    (h : ∀ t ∈ topics, ∀ p ∈ t.partitions, Sized p) (correlationID throttleTimeMs : Int32) :
    (writeFetchResponse correlationID throttleTimeMs topics).flatten =
      fullMessage (fetchBody correlationID throttleTimeMs topics) := by
  rw [writeFetchResponse_eq h,flatten_flatMap,fetchBody,writeArray]

theorem topicWrites_pos (t : FetchTopicResponse) : 0 < (topicWrites t).flatten.length := by
  rw [topicWrites_flatten,List.length_append,writeString_length]
  omega

theorem partitionWrites_pos (p : FetchPartitionResponse) :
    0 < (partitionWrites p).flatten.length := by
  rw [partitionWrites,List.flatten_cons]
  simp only [List.length_append,writeInt32_length]
  omega

/-- A batch of a whole entry is written unless it is empty. -/
theorem partitionWrites_flatten {p : FetchPartitionResponse} (h : Whole p) :
    (partitionWrites p).flatten = writeInt32 p.partition++(writeInt16 p.errorCode++
      (writeInt64 p.highWatermark++(writeInt64 p.highWatermark++(writeInt32 0++
        (writeInt32 p.batchSize++p.recordBatch.getD []))))) := by
  rw [partitionWrites,List.flatten_cons]
  simp only [List.append_assoc]
  rcases h with ⟨-,hr⟩|⟨batch,hr,hb,hl⟩
  · rw [hr]
    rfl
  · rw [hr]
    simp only
    split
    · rw [List.flatten_singleton,Option.getD_some]
    · rename_i hpos
      have hz : (0 : Int32).toInt = 0 := rfl
      rw [gt_iff_lt,hb,Int32.lt_iff_toInt_lt,Int32.toInt_ofNat_of_lt hl] at hpos
      rw [List.length_eq_zero_iff.mp (show batch.length = 0 by omega)]
      rfl

theorem returns_decodeRecordBatch {p : FetchPartitionResponse} (h : Whole p) :
    Returns (decodeRecordBatch p.batchSize) (p.recordBatch.getD []) p.recordBatch := by
  rcases h with ⟨hb,hr⟩|⟨batch,hr,hb,hl⟩
  · rw [hb,hr]
    exact Returns.pure none
  · have h0 : ¬Int32.ofNat batch.length < 0 := by
      have hz : (0 : Int32).toInt = 0 := rfl
      rw [Int32.lt_iff_toInt_lt,Int32.toInt_ofNat_of_lt hl]
      omega
    rw [hb,hr,decodeRecordBatch,if_neg h0]
    exact (returns_readBytes hl).map some

theorem returns_decodeFetchPartition {p : FetchPartitionResponse} (h : Whole p) :
    Returns decodeFetchPartition (partitionWrites p).flatten (carriedPartition p) := by
  rw [partitionWrites_flatten h]
  apply (returns_readInt32 p.partition).bind
  apply (returns_readInt16 p.errorCode).bind
  apply (returns_readInt64 p.highWatermark).bind
  apply (returns_readInt64 p.highWatermark).bind
  apply (returns_readInt32 0).bind
  apply (returns_readInt32 p.batchSize).bind
  exact (returns_decodeRecordBatch h).map _

theorem returns_decodeFetchTopic {t : FetchTopicResponse} (h : ∀ p ∈ t.partitions, Whole p)
    (hn : t.topicName.length ≤ 32767) (hc : t.partitions.length < 2^31) :
    Returns decodeFetchTopic (topicWrites t).flatten (carriedTopic t) := by
  have hs : t.topicName.length < 2^15 := Nat.lt_succ_of_le hn
  rw [topicWrites_flatten]
  apply (returns_readString ⟨t.topicName,hs⟩).bind
  exact (returns_readArray hc (fun p hp => returns_decodeFetchPartition (h p hp)) _).map _

theorem returns_decodeFetchResponse {topics : List FetchTopicResponse}
    (h : ∀ t ∈ topics, ∀ p ∈ t.partitions, Whole p)
    (hn : ∀ t ∈ topics, t.topicName.length ≤ 32767) (hc : topics.length < 2^31)
    (hcs : ∀ t ∈ topics, t.partitions.length < 2^31) (correlationID throttleTimeMs : Int32) :
    Returns decodeFetchResponse (fetchBody correlationID throttleTimeMs topics)
      ⟨correlationID,throttleTimeMs,topics.map carriedTopic⟩ := by
  apply (returns_readInt32 correlationID).bind
  apply (returns_readInt32 throttleTimeMs).bind
  exact (returns_readArray hc
    (fun t ht => returns_decodeFetchTopic (h t ht) (hn t ht) (hcs t ht)) _).map _

theorem length_le_flatMap_of_mem {α β : Type} {f : α → List β} {as : List α} {a : α}
    (h : a ∈ as) : (f a).length ≤ (as.flatMap f).length := by
  obtain ⟨s,t,rfl⟩ := List.append_of_mem h
  simp only [List.flatMap_append,List.flatMap_cons,List.length_append]
  omega

/-- The numbers of topics and partitions are in range because their bytes are. -/
theorem counts_of_length {topics : List FetchTopicResponse} {correlationID throttleTimeMs : Int32}
    (hl : (fetchBody correlationID throttleTimeMs topics).length < 2^31) :
    topics.length < 2^31 ∧ ∀ t ∈ topics, t.partitions.length < 2^31 := by
  rw [fetchBody,List.length_append,List.length_append] at hl
  have hc := length_le_writeArray topicWrites_pos topics
  refine ⟨by omega,fun t ht => ?_⟩
  have ht := length_le_flatMap_of_mem (f := fun t => (topicWrites t).flatten) ht
  have hp := length_le_writeArray partitionWrites_pos t.partitions
  rw [writeArray,List.length_append] at hl
  rw [topicWrites_flatten,List.length_append] at ht
  omega

/-- The length in front of a response to a fetch is the number of bytes that
follow it, and they decode to the response. -/
theorem fetch_frames_decodable (req : FetchRequest) (bs : BrokerStore) (d : Disk)
    (correlationID throttleTimeMs : Int32) (sent : Bytes)
    (hs : sent = (writeFetchResponse correlationID throttleTimeMs (handleFetch req bs d).1).flatten)
    (hn : ∀ t ∈ (handleFetch req bs d).1, t.topicName.length ≤ 32767)
    (hl : (sent.drop 4).length < 2^31) :
    sent.take 4 = putUint 4 (sent.drop 4).length ∧ uint (sent.take 4) = (sent.drop 4).length ∧
      decodeFetchResponse (sent.drop 4) =
        .ok ⟨correlationID,throttleTimeMs,(handleFetch req bs d).1.map carriedTopic⟩ [] := by
  rw [writeFetchResponse_body (handleFetch_sized req bs d),fullMessage,frame] at hs
  have hdrop : sent.drop 4 = fetchBody correlationID throttleTimeMs (handleFetch req bs d).1 := by
    rw [hs,List.drop_left' (putUint_length 4 _)]
  have htake : sent.take 4 = putUint 4 (sent.drop 4).length := by
    rw [hdrop,hs,List.take_left' (putUint_length 4 _)]
  have hcounts := counts_of_length (by rwa [hdrop] at hl)
  have hr := returns_decodeFetchResponse (handleFetch_whole req bs d) hn hcounts.1 hcounts.2
    correlationID throttleTimeMs []
  refine ⟨htake,?_,?_⟩
  · rw [htake,uint_putUint_of_lt (by omega)]
  · rw [hdrop,← List.append_nil (fetchBody _ _ _)]
    exact hr

/-- A broker with one stored batch. -/
def storedOne : BrokerStore × Disk :=
  match (BrokerStore.mk [] ⟨0⟩ ∅).getOrCreatePartition (ascii "t") 0 .blank with
  | (.error _,bs,d) => (bs,d)
  | (.ok ps,bs,d) =>
      match PartitionRuns.appends ps d [oneRecord] with
      | (_,ps,d) => (bs.put (ascii "t") 0 ps,d)

/-- Three entries: the batch, the end of the log and an offset behind it. -/
def threeEntries : List FetchTopicResponse :=
  (handleFetch ⟨100,[⟨ascii "t",[⟨0,0,100⟩,⟨0,65,100⟩,⟨0,66,100⟩]⟩]⟩ storedOne.1 storedOne.2).1

theorem three_entries_decodable :
    (threeEntries.flatMap FetchTopicResponse.partitions).map FetchPartitionResponse.batchSize =
        [61,-1,-1] ∧
      decodeFetchResponse ((writeFetchResponse 7 0 threeEntries).flatten.drop 4) =
        .ok ⟨7,0,threeEntries.map carriedTopic⟩ [] := by
  have hn : ∀ t ∈ threeEntries, t.topicName.length ≤ 32767 := by decide +kernel
  have hl : ((writeFetchResponse 7 0 threeEntries).flatten.drop 4).length < 2^31 := by
    decide +kernel
  exact ⟨by decide +kernel,(fetch_frames_decodable _ storedOne.1 storedOne.2 7 0 _ rfl hn hl).2.2⟩

end Kage.FetchFrames
