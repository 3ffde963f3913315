import Kage.RequestParsers
import Kage.RecordBatches
import Kage.OffsetStorage

/-!
# The handler of produce requests

Every partition of a request is handled by itself. A batch that is not empty is
validated first and refused with an error code if it is not sound; an empty one
goes to the log as it is. What reaches the log is recorded next to the answer,
call by call, since a later entry can take the process down: the validator cuts
a slice at a length that the client chose, and the counters of the metrics
library accept neither a negative number nor a label that is not UTF-8.

An appended record is therefore empty or `Verified`, and nothing more: bytes
behind the batch are allowed, and so is a length that ends the batch inside its
own header.
-/
namespace Kage.ProduceHandler
open ByteStrings FaultyDisk StreamParsers PartitionLog BrokerStores FetchHandler RecordBatches
open OffsetRecords RequestParsers OffsetStorage

def ErrCodeCorruptMessage : Int16 := 2

structure ProducePartitionResponse where
  partition : Int32
  errorCode : Int16
  baseOffset : Int64
  deriving DecidableEq

structure ProduceTopicResponse where
  topicName : WireString
  partitions : List ProducePartitionResponse
  deriving DecidableEq

/-- The bytes that may follow a first byte of UTF-8, as ranges. -/
def continuation (b : UInt8) : Option (List (UInt8 × UInt8)) :=
  if b < 0x80 then some [] else
  if b < 0xC2 then none else
  if b < 0xE0 then some [(0x80,0xBF)] else
  if b = 0xE0 then some [(0xA0,0xBF),(0x80,0xBF)] else
  if b = 0xED then some [(0x80,0x9F),(0x80,0xBF)] else
  if b < 0xF0 then some [(0x80,0xBF),(0x80,0xBF)] else
  if b = 0xF0 then some [(0x90,0xBF),(0x80,0xBF),(0x80,0xBF)] else
  if b < 0xF4 then some [(0x80,0xBF),(0x80,0xBF),(0x80,0xBF)] else
  if b = 0xF4 then some [(0x80,0x8F),(0x80,0xBF),(0x80,0xBF)] else none

def utf8Step : Option (List (UInt8 × UInt8)) → UInt8 → Option (List (UInt8 × UInt8))
  | none,_ => none
  | some [],b => continuation b
  | some ((low,high)::ranges),b => if low ≤ b ∧ b ≤ high then some ranges else none

def validUTF8 (s : Bytes) : Bool := s.foldl utf8Step (some []) = some []

/-- A call of `Append` and its result. -/
structure AppendCall where
  topic : Bytes
  partition : Int32
  record : Bytes
  result : Except Err UInt64

/-- Store a batch that passed and count its records. No answer stands for a
panic of the metrics library. -/
def storeBatch (topicName : WireString) (part : ProducePartitionData) (recordCount : Int32)
    (bs : BrokerStore) (d : Disk) :
    Option ProducePartitionResponse × List AppendCall × BrokerStore × Disk :=
  match bs.getOrCreatePartition topicName.1 part.partition d with
  | (.error _,bs,d) => (some ⟨part.partition,1,-1⟩,[],bs,d)
  | (.ok ps,bs,d) =>
      match ps.append part.recordBatch d with
      | (result,ps,d) =>
          let bs := bs.put topicName.1 part.partition ps
          let calls := [⟨topicName.1,part.partition,part.recordBatch,result⟩]
          if validUTF8 topicName.1 = false then (none,calls,bs,d) else
            match result with
            | .error _ => (some ⟨part.partition,1,-1⟩,calls,bs,d)
            | .ok offset =>
                if recordCount < 0 then (none,calls,bs,d)
                else (some ⟨part.partition,0,offset.toInt64⟩,calls,bs,d)

def producePartition (topicName : WireString) (part : ProducePartitionData) (bs : BrokerStore)
    (d : Disk) : Option ProducePartitionResponse × List AppendCall × BrokerStore × Disk :=
  if part.recordBatch.length > 0 then
    match validateRecordBatch part.recordBatch with
    | none => (none,[],bs,d)
    | some (.error _) => (some ⟨part.partition,ErrCodeCorruptMessage,-1⟩,[],bs,d)
    | some (.ok recordCount) => storeBatch topicName part recordCount bs d
  else storeBatch topicName part 0 bs d

def producePartitions (topicName : WireString) : List ProducePartitionData → BrokerStore → Disk →
    Option (List ProducePartitionResponse) × List AppendCall × BrokerStore × Disk
  | [],bs,d => (some [],[],bs,d)
  | part::parts,bs,d =>
      match producePartition topicName part bs d with
      | (none,calls,bs,d) => (none,calls,bs,d)
      | (some resp,calls,bs,d) =>
          match producePartitions topicName parts bs d with
          | (resps,later,bs,d) => (resps.map (resp::·),calls++later,bs,d)

def produceTopics : List ProduceTopicData → BrokerStore → Disk →
    Option (List ProduceTopicResponse) × List AppendCall × BrokerStore × Disk
  | [],bs,d => (some [],[],bs,d)
  | topic::topics,bs,d =>
      match producePartitions topic.topicName topic.partitions bs d with
      | (none,calls,bs,d) => (none,calls,bs,d)
      | (some parts,calls,bs,d) =>
          match produceTopics topics bs d with
          | (resps,later,bs,d) => (resps.map (⟨topic.topicName,parts⟩::·),calls++later,bs,d)

/-- The topics of the response, the calls that reached the log, and the stores. -/
def handleProduce (req : ProduceRequest) (bs : BrokerStore) (d : Disk) :
    Option (List ProduceTopicResponse) × List AppendCall × BrokerStore × Disk :=
  produceTopics req.topics bs d

/-- What a request body makes the handler append. -/
def appended (header : RequestHeader) (body : Bytes) (bs : BrokerStore) (d : Disk) :
    List AppendCall :=
  match parseProduceRequest header body with
  | .ok req _ => (handleProduce req bs d).2.1
  | .error _ => []
  | .panic => []

/-- What the validator checks of a batch. -/
structure Verified (r : Bytes) : Prop where
  header : rbMinBytes ≤ r.length
  magic : window r rbOffsetMagic 1 = [2]
  checked : rbOffsetCRCBody ≤ uintAt 4 r rbOffsetLength+12
  present : uintAt 4 r rbOffsetLength+12 ≤ r.length
  checksum : UInt32.ofNat (uintAt 4 r rbOffsetCRC) =
    crc32c (window r rbOffsetCRCBody (uintAt 4 r rbOffsetLength+12-rbOffsetCRCBody))

/-- One whole batch and nothing else. -/
structure OneBatch (r : Bytes) : Prop where
  nonempty : r ≠ []
  magic : window r rbOffsetMagic 1 = [2]
  length : uintAt 4 r rbOffsetLength+12 = r.length
  header : rbMinBytes ≤ uintAt 4 r rbOffsetLength+12
  checksum : UInt32.ofNat (uintAt 4 r rbOffsetCRC) = crc32c (r.drop rbOffsetCRCBody)

theorem validateRecordBatch_verified {batch : Bytes} {count : Int32}
    (h : validateRecordBatch batch = some (.ok count)) : Verified batch := by
  unfold validateRecordBatch at h
  split at h
  · cases h
  · rename_i hlen
    split at h
    · cases h
    · rename_i hmagic
      simp only at h
      split at h
      · cases h
      · rename_i hpresent
        split at h
        · cases h
        · rename_i hchecked
          split at h
          · cases h
          · rename_i hcrc
            exact ⟨Nat.le_of_not_lt hlen,not_not.mp hmagic,Nat.le_of_not_lt hchecked,
              Nat.le_of_not_lt hpresent,not_not.mp hcrc⟩

/-- Sound as far as the handler looks. -/
def Checked (r : Bytes) : Prop := r = [] ∨ Verified r

/-- Every call has a property, and the stores and the disk are left in one. -/
def Yields {α : Type} (P : AppendCall → Prop) (I : BrokerStore → Disk → Prop)
    (out : Option α × List AppendCall × BrokerStore × Disk) : Prop :=
  (∀ call ∈ out.2.1, P call) ∧ I out.2.2.1 out.2.2.2

section Invariants
variable {P : AppendCall → Prop} {I : BrokerStore → Disk → Prop}
variable {topicName : WireString} {bs : BrokerStore} {d : Disk}

/-- Storing a sound batch keeps an invariant. -/
def Stores (P : AppendCall → Prop) (I : BrokerStore → Disk → Prop) (topicName : WireString)
    (part : ProducePartitionData) : Prop :=
  ∀ recordCount bs d, Checked part.recordBatch → I bs d →
    Yields P I (storeBatch topicName part recordCount bs d)

theorem producePartition_yields {part : ProducePartitionData} (h : Stores P I topicName part)
    (hi : I bs d) : Yields P I (producePartition topicName part bs d) := by
  have hskip (resp : Option ProducePartitionResponse) : Yields P I (resp,[],bs,d) :=
    ⟨fun call hm => (List.not_mem_nil hm).elim,hi⟩
  unfold producePartition
  split
  · cases hv : validateRecordBatch part.recordBatch with
    | none => exact hskip none
    | some r =>
        cases r with
        | error e => exact hskip _
        | ok count => exact h count bs d (.inr (validateRecordBatch_verified hv)) hi
  · rename_i hempty
    exact h 0 bs d (.inl (List.length_eq_zero_iff.mp (Nat.eq_zero_of_not_pos hempty))) hi

theorem producePartitions_yields {parts : List ProducePartitionData}
    (h : ∀ part ∈ parts, Stores P I topicName part) (hi : I bs d) :
    Yields P I (producePartitions topicName parts bs d) := by
  induction parts generalizing bs d with
  | nil => exact ⟨fun call hm => (List.not_mem_nil hm).elim,hi⟩
  | cons part parts ih =>
      rw [List.forall_mem_cons] at h
      have hp := producePartition_yields h.1 hi
      rcases hx : producePartition topicName part bs d with ⟨_|resp,calls,bs₁,d₁⟩
      · rw [hx] at hp
        simp only [producePartitions,hx]
        exact ⟨hp.1,hp.2⟩
      · rw [hx] at hp
        have hq := ih h.2 hp.2
        simp only [producePartitions,hx]
        exact ⟨List.forall_mem_append.mpr ⟨hp.1,hq.1⟩,hq.2⟩

theorem produceTopics_yields {topics : List ProduceTopicData}
    (h : ∀ topic ∈ topics, ∀ part ∈ topic.partitions, Stores P I topic.topicName part)
    (hi : I bs d) : Yields P I (produceTopics topics bs d) := by
  induction topics generalizing bs d with
  | nil => exact ⟨fun call hm => (List.not_mem_nil hm).elim,hi⟩
  | cons topic topics ih =>
      rw [List.forall_mem_cons] at h
      have hp := producePartitions_yields h.1 hi
      rcases hx : producePartitions topic.topicName topic.partitions bs d with
        ⟨_|parts,calls,bs₁,d₁⟩
      · rw [hx] at hp
        simp only [produceTopics,hx]
        exact ⟨hp.1,hp.2⟩
      · rw [hx] at hp
        have hq := ih h.2 hp.2
        simp only [produceTopics,hx]
        exact ⟨List.forall_mem_append.mpr ⟨hp.1,hq.1⟩,hq.2⟩

theorem storeBatch_calls (part : ProducePartitionData) (recordCount : Int32) :
    ∀ call ∈ (storeBatch topicName part recordCount bs d).2.1, call.record = part.recordBatch := by
  unfold storeBatch
  rcases bs.getOrCreatePartition topicName.1 part.partition d with ⟨r|ps,bs,d⟩
  · simp
  · simp only
    rcases ps.append part.recordBatch d with ⟨result,ps,d⟩
    simp only
    split
    · simp
    · rcases result with e|offset
      · simp
      · simp only
        split <;> simp

theorem storeBatch_checked (topicName : WireString) (part : ProducePartitionData) :
    Stores (fun call => Checked call.record) (fun _ _ => True) topicName part := by
  intro recordCount bs d hc _
  refine ⟨fun call hm => ?_,trivial⟩
  change Checked call.record
  rw [storeBatch_calls part recordCount call hm]
  exact hc

end Invariants

/-- Whatever a client sends, an appended record is empty or a batch with a whole
header, the right magic byte, a length that reaches at least to the checksummed
part and not past the record, and the checksum of the part up to that length. -/
theorem appended_verified (header : RequestHeader) (body : Bytes) (bs : BrokerStore) (d : Disk) :
    ∀ call ∈ appended header body bs d, call.record = [] ∨ Verified call.record := by
  intro call hm
  unfold appended at hm
  cases hp : parseProduceRequest header body with
  | ok req rest =>
      rw [hp] at hm
      have hy : Yields (fun call => Checked call.record) (fun _ _ => True)
          (produceTopics req.topics bs d) :=
        produceTopics_yields (fun topic _ part _ => storeBatch_checked _ part) trivial
      exact hy.1 call hm
  | error e =>
      rw [hp] at hm
      cases hm
  | panic =>
      rw [hp] at hm
      cases hm

instance (r : Bytes) : Decidable (OneBatch r) :=
  decidable_of_iff (r ≠ [] ∧ window r rbOffsetMagic 1 = [2] ∧
      uintAt 4 r rbOffsetLength+12 = r.length ∧ rbMinBytes ≤ uintAt 4 r rbOffsetLength+12 ∧
      UInt32.ofNat (uintAt 4 r rbOffsetCRC) = crc32c (r.drop rbOffsetCRCBody))
    ⟨fun h => ⟨h.1,h.2.1,h.2.2.1,h.2.2.2.1,h.2.2.2.2⟩,
      fun h => ⟨h.nonempty,h.magic,h.length,h.header,h.checksum⟩⟩

/-- A batch whose length ends it right behind the checksum. -/
def cutBatch : Bytes :=
  putUint 8 0++(putUint 4 9++(putUint 4 0++(2::(putUint 4 0++List.replicate 40 0))))

/-- The body of a produce request for one topic, before version 3. -/
def produceBody (acks : ℕ) (topic : Bytes) (batches : List Bytes) : Bytes :=
  putUint 2 acks++(putUint 4 0++(putUint 4 1++(putUint 2 topic.length++(topic++
    (putUint 4 batches.length++
      batches.flatMap fun b => putUint 4 0++(putUint 4 b.length++b))))))

def produceHeader : RequestHeader := ⟨0,0,2,7,emptyString⟩

theorem appended_verified_one :
    (appended produceHeader (produceBody 1 (ascii "t") [oneRecord]) ⟨[],⟨0⟩,∅⟩ emptyRoot).map
        AppendCall.record = [oneRecord] ∧
      ∀ call ∈ appended produceHeader (produceBody 1 (ascii "t") [oneRecord]) ⟨[],⟨0⟩,∅⟩ emptyRoot,
        call.record = [] ∨ Verified call.record :=
  ⟨by decide +kernel,appended_verified produceHeader _ _ _⟩

/-- An empty batch, a batch with a byte behind it and one that ends inside its
header are stored, and none of them is one whole batch. -/
theorem empty_long_and_cut_batches_stored :
    (appended produceHeader (produceBody 1 (ascii "t") [[],oneRecord++[0],cutBatch]) ⟨[],⟨0⟩,∅⟩
        emptyRoot).map AppendCall.record = [[],oneRecord++[0],cutBatch] ∧
      ¬OneBatch [] ∧ ¬OneBatch (oneRecord++[0]) ∧ ¬OneBatch cutBatch := by
  refine ⟨by decide +kernel,by decide +kernel,by decide +kernel,by decide +kernel⟩

end Kage.ProduceHandler
