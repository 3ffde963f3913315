import Kage.BrokerStores
import Kage.RecordBatches

/-!
# Serving fetch requests

Each requested partition is answered from its store: nothing when the consumer
is at the end, an error when it is past it, and otherwise the bytes of the
active segment from the fetch offset on. The window is four bytes longer than
the budget allows, for the length prefix of the first record, which is then
dropped. A loop walks the window by the length fields it meets in it and writes
a base offset at the start of each step, chosen so that the consumer's next
offset is where the next record begins.

Parsing the request and writing the response are outside this module: it
begins with the parsed fields that the handler reads and ends with the response
value it hands to the writer. Metrics and logging are left out.
-/
namespace Kage.FetchHandler
open ByteStrings FaultyDisk PartitionLog BrokerStores

def ErrCodeNone : Int16 := 0
def ErrCodeOffsetOutOfRange : Int16 := 1

structure FetchPartitionData where
  partition : Int32
  fetchOffset : Int64
  partitionMaxBytes : Int32
  deriving DecidableEq, Repr

structure FetchTopicData where
  topicName : Bytes
  partitions : List FetchPartitionData
  deriving DecidableEq, Repr

structure FetchRequest where
  maxBytes : Int32
  topics : List FetchTopicData
  deriving DecidableEq, Repr

structure FetchPartitionResponse where
  partition : Int32
  errorCode : Int16 := 0
  highWatermark : Int64 := 0
  batchSize : Int32 := -1
  recordBatch : Option Bytes := none
  deriving DecidableEq, Repr

structure FetchTopicResponse where
  topicName : Bytes
  partitions : List FetchPartitionResponse
  deriving DecidableEq, Repr

def recHdr : ℕ := 4
def rbBaseOffset : ℕ := 0
def rbLength : ℕ := 8
def rbLastOffsetDelta : ℕ := 23
def rbMinPatchBytes : ℕ := 27

/-- The base offset that makes the offset after the batch equal to the position
of the next record, in 64-bit arithmetic. -/
def targetBase (currentPos : UInt64) (totalBatchBytes : ℕ) (lastOffsetDelta : Int32) : UInt64 :=
  currentPos+4+UInt64.ofNat totalBatchBytes-lastOffsetDelta.toInt64.toUInt64-1

/-- The loop that rewrites base offsets in place. Every pass moves on by at
least twelve bytes, so the length of the payload is enough fuel. -/
def patchLoop : ℕ → UInt64 → ℕ → Bytes → Bytes
  | 0,_,_,payload => payload
  | fuel+1,currentPos,pos,payload =>
      if pos+rbMinPatchBytes ≤ payload.length then
        let batchLen := uintAt 4 payload (pos+rbLength)
        let totalBatchBytes := 12+batchLen
        if pos+totalBatchBytes > payload.length then payload else
          let lastOffsetDelta := (UInt32.ofNat (uintAt 4 payload (pos+rbLastOffsetDelta))).toInt32
          let nextPhysical := currentPos+4+UInt64.ofNat totalBatchBytes
          let base := targetBase currentPos totalBatchBytes lastOffsetDelta
          patchLoop fuel (nextPhysical-4) (pos+totalBatchBytes)
            (overwrite payload (pos+rbBaseOffset) (putUint 8 base.toNat))
      else payload

def patch (fetchOffset : UInt64) (payload : Bytes) : Bytes :=
  patchLoop payload.length fetchOffset 0 payload

/-- One requested partition, with the bytes left of the request's budget before
and after it. -/
def fetchPartition (topicName : Bytes) (part : FetchPartitionData) (remaining : Int32)
    (bs : BrokerStore) (d : Disk) : FetchPartitionResponse × Int32 × BrokerStore × Disk :=
  let partResp : FetchPartitionResponse := {partition := part.partition}
  match bs.getOrCreatePartition topicName part.partition d with
  | (.error _,bs,d) => ({partResp with errorCode := ErrCodeOffsetOutOfRange},remaining,bs,d)
  | (.ok ps,bs,d) =>
      let partResp := {partResp with highWatermark := ps.Size}
      if part.fetchOffset = partResp.highWatermark then
        ({partResp with errorCode := ErrCodeNone},remaining,bs,d) else
      if part.fetchOffset > partResp.highWatermark then
        ({partResp with errorCode := ErrCodeOffsetOutOfRange},remaining,bs,d) else
        let cap := if remaining < part.partitionMaxBytes then remaining else part.partitionMaxBytes
        if cap ≤ 0 then ({partResp with errorCode := ErrCodeNone},remaining,bs,d) else
          match ps.read part.fetchOffset.toUInt64 (cap+4) d with
          | (.error _,ps,d) =>
              ({partResp with errorCode := ErrCodeOffsetOutOfRange},remaining,
                bs.put topicName part.partition ps,d)
          | (.ok (r,n),ps,d) =>
              let bs := bs.put topicName part.partition ps
              match r.readFull n.toInt.toNat d with
              | (.error _,_,d) =>
                  ({partResp with errorCode := ErrCodeOffsetOutOfRange},remaining,bs,d)
              | (.ok raw,_,d) =>
                  if raw.length < recHdr then
                    ({partResp with errorCode := ErrCodeOffsetOutOfRange},remaining,bs,d) else
                    let payload := patch part.fetchOffset.toUInt64 (raw.drop recHdr)
                    let payloadLen := Int32.ofNat payload.length
                    ({partResp with
                      errorCode := ErrCodeNone
                      recordBatch := some payload
                      batchSize := payloadLen},remaining-payloadLen,bs,d)

def fetchPartitions (topicName : Bytes) : List FetchPartitionData → Int32 → BrokerStore → Disk →
    List FetchPartitionResponse × Int32 × BrokerStore × Disk
  | [],remaining,bs,d => ([],remaining,bs,d)
  | part::parts,remaining,bs,d =>
      match fetchPartition topicName part remaining bs d with
      | (resp,remaining,bs,d) =>
          match fetchPartitions topicName parts remaining bs d with
          | (resps,remaining,bs,d) => (resp::resps,remaining,bs,d)

def fetchTopics : List FetchTopicData → Int32 → BrokerStore → Disk →
    List FetchTopicResponse × Int32 × BrokerStore × Disk
  | [],remaining,bs,d => ([],remaining,bs,d)
  | topic::topics,remaining,bs,d =>
      match fetchPartitions topic.topicName topic.partitions remaining bs d with
      | (parts,remaining,bs,d) =>
          match fetchTopics topics remaining bs d with
          | (resps,remaining,bs,d) => (⟨topic.topicName,parts⟩::resps,remaining,bs,d)

/-- The topics of the response; nothing is throttled. -/
def handleFetch (req : FetchRequest) (bs : BrokerStore) (d : Disk) :
    List FetchTopicResponse × BrokerStore × Disk :=
  match fetchTopics req.topics req.maxBytes bs d with
  | (topics,_,bs,d) => (topics,bs,d)

/-- What holds of the answer of every pass holds of the answers of a topic. -/
theorem fetchPartitions_forall {P : FetchPartitionResponse → Prop} {topicName : Bytes}
    (h : ∀ part remaining bs d, P (fetchPartition topicName part remaining bs d).1)
    (parts : List FetchPartitionData) (remaining : Int32) (bs : BrokerStore) (d : Disk) :
    ∀ p ∈ (fetchPartitions topicName parts remaining bs d).1, P p := by
  induction parts generalizing remaining bs d with
  | nil => exact fun p hp => (List.not_mem_nil hp).elim
  | cons part parts ih =>
      rw [fetchPartitions,List.forall_mem_cons]
      exact ⟨h part remaining bs d,ih _ _ _⟩

theorem fetchTopics_forall {P : FetchPartitionResponse → Prop}
    (h : ∀ topicName part remaining bs d, P (fetchPartition topicName part remaining bs d).1)
    (topics : List FetchTopicData) (remaining : Int32) (bs : BrokerStore) (d : Disk) :
    ∀ t ∈ (fetchTopics topics remaining bs d).1, ∀ p ∈ t.partitions, P p := by
  induction topics generalizing remaining bs d with
  | nil => exact fun t ht => (List.not_mem_nil ht).elim
  | cons topic topics ih =>
      rw [fetchTopics,List.forall_mem_cons]
      exact ⟨fetchPartitions_forall (h topic.topicName) topic.partitions remaining bs d,ih _ _ _⟩

theorem handleFetch_forall {P : FetchPartitionResponse → Prop}
    (h : ∀ topicName part remaining bs d, P (fetchPartition topicName part remaining bs d).1)
    (req : FetchRequest) (bs : BrokerStore) (d : Disk) :
    ∀ t ∈ (handleFetch req bs d).1, ∀ p ∈ t.partitions, P p :=
  fetchTopics_forall h req.topics req.maxBytes bs d

/-- The window is at most four bytes longer than the budget; the sum may wrap. -/
theorem window_le {cap : Int32} (h : 0 < cap.toInt) : (cap+4).toInt ≤ cap.toInt+4 := by
  have hf : (4 : Int32).toInt = 4 := rfl
  rw [Int32.toInt_add,hf]
  rcases le_or_gt (cap.toInt+4) (2^31-1) with hle|hgt
  · rw [Int.bmod_eq_of_le (by omega) (by omega)]
  · have := Int.bmod_lt (x := cap.toInt+4) (m := 2^32) (by decide)
    omega

theorem length_overwrite_base {payload : Bytes} {pos : ℕ} {base : UInt64}
    (h : pos+rbMinPatchBytes ≤ payload.length) :
    (overwrite payload (pos+rbBaseOffset) (putUint 8 base.toNat)).length = payload.length := by
  apply overwrite_length
  simp only [rbBaseOffset,rbMinPatchBytes,putUint_length] at h ⊢
  omega

@[simp] theorem patchLoop_length (fuel : ℕ) (cur : UInt64) (pos : ℕ) (payload : Bytes) :
    (patchLoop fuel cur pos payload).length = payload.length := by
  induction fuel generalizing cur pos payload with
  | zero => rfl
  | succ fuel ih =>
      unfold patchLoop
      split
      · simp only
        split
        · rfl
        · rw [ih,length_overwrite_base ‹_›]
      · rfl

/-- Once the fuel covers what is left, more of it changes nothing. -/
theorem patchLoop_fuel {fuel : ℕ} {cur : UInt64} {pos : ℕ} {payload : Bytes}
    (h : payload.length ≤ pos+12*fuel) :
    patchLoop (fuel+1) cur pos payload = patchLoop fuel cur pos payload := by
  induction fuel generalizing cur pos payload with
  | zero =>
      have hn : ¬pos+rbMinPatchBytes ≤ payload.length := by
        simp only [rbMinPatchBytes]
        omega
      simp only [patchLoop,if_neg hn]
  | succ fuel ih =>
      rw [patchLoop]
      conv_rhs => rw [patchLoop]
      split
      · simp only
        split
        · rfl
        · refine ih ?_
          rw [length_overwrite_base ‹_›]
          omega
      · rfl

/-- The loop does not look behind its position. -/
theorem patchLoop_append (fuel : ℕ) (cur : UInt64) (as : Bytes) (pos : ℕ) (bs : Bytes) :
    patchLoop fuel cur (as.length+pos) (as++bs) = as++patchLoop fuel cur pos bs := by
  induction fuel generalizing cur pos bs with
  | zero => rfl
  | succ fuel ih =>
      have hu : ∀ w k, uintAt w (as++bs) (as.length+k) = uintAt w bs k := fun w k =>
        uintAt_skip rfl w bs k
      have hl : (as++bs).length = as.length+bs.length := List.length_append
      rw [patchLoop,patchLoop]
      simp only [hl,Nat.add_assoc as.length,hu,Nat.add_le_add_iff_left,gt_iff_lt,
        Nat.add_lt_add_iff_left,overwrite_append]
      split
      · split
        · rfl
        · exact ih _ _ _
      · rfl

/-- Nothing is written when the first batch is not all there. -/
theorem patchLoop_stop {cur : UInt64} {payload : Bytes} (fuel : ℕ)
    (h : rbMinPatchBytes ≤ payload.length → payload.length < 12+uintAt 4 payload rbLength) :
    patchLoop fuel cur 0 payload = payload := by
  cases fuel with
  | zero => rfl
  | succ fuel =>
      rw [patchLoop]
      simp only [Nat.zero_add]
      split
      · rw [if_pos (h ‹_›)]
      · rfl

/-- One pass at the start of a payload that holds the whole batch it meets. -/
theorem patchLoop_head (fuel : ℕ) (cur : UInt64) {b rest : Bytes}
    (hb : 12+uintAt 4 (b++rest) rbLength = b.length) (h27 : rbMinPatchBytes ≤ (b++rest).length) :
    patchLoop (fuel+1) cur 0 (b++rest) =
      overwrite b 0 (putUint 8 (targetBase cur b.length
        (UInt32.ofNat (uintAt 4 (b++rest) rbLastOffsetDelta)).toInt32).toNat)++
        patchLoop fuel (cur+4+UInt64.ofNat b.length-4) 0 rest := by
  generalize hbase : targetBase cur b.length
    (UInt32.ofNat (uintAt 4 (b++rest) rbLastOffsetDelta)).toInt32 = base
  have hw : overwrite (b++rest) 0 (putUint 8 base.toNat) =
      overwrite b 0 (putUint 8 base.toNat)++rest := by
    rw [overwrite_zero,overwrite_zero,putUint_length,List.drop_append_of_le_length (by omega),
      List.append_assoc]
  have hlen : (overwrite b 0 (putUint 8 base.toNat)).length = b.length :=
    overwrite_length (by rw [putUint_length]; omega)
  have hstep := patchLoop_append fuel (cur+4+UInt64.ofNat b.length-4)
    (overwrite b 0 (putUint 8 base.toNat)) 0 rest
  rw [Nat.add_zero,hlen] at hstep
  rw [patchLoop]
  simp only [Nat.zero_add,hb,hbase,rbBaseOffset,Nat.add_zero]
  rw [if_pos h27,if_neg (by rw [List.length_append]; omega),hw,hstep]

end Kage.FetchHandler
