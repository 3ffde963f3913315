import Kage.ProduceHandler

/-!
# The metrics of produce requests

Every append is timed under the name of its topic, and the records of a stored
batch are counted under it. The metrics library panics on a label that is not
UTF-8 and on a counter that would go down. The topic is any byte string that the
client sends, and the number of records is a signed field of its batch that the
validator returns without looking at it, so both calls can be made with values
that the library does not accept.

The entries of a request are handled one after the other, whichever topics they
belong to. What reaches the library depends on the stores and on the disk;
`Acceptable` says of the request alone that nothing bad can reach it.
-/
namespace Kage.ProduceMetrics
open ByteStrings LengthPrefixed FaultyDisk StreamParsers SegmentLog PartitionLog RollingLog
open BrokerStores FetchHandler RecordBatches OffsetRecords RequestParsers OffsetStorage
open ProduceHandler

/-- The number of records that a batch let through is counted with. -/
def recordCount (record : Bytes) : Int32 :=
  match validateRecordBatch record with
  | some (.ok count) => count
  | some (.error _) => 0
  | none => 0

inductive MetricCall where
  | observeDiskWrite (topic : Bytes)
  | addProduced (topic : Bytes) (value : Int32)
  deriving DecidableEq, Repr

/-- The arguments that the library accepts. -/
def MetricCall.Ok : MetricCall → Prop
  | .observeDiskWrite topic => validUTF8 topic = true
  | .addProduced topic value => validUTF8 topic = true ∧ 0 ≤ value

instance : DecidablePred MetricCall.Ok
  | .observeDiskWrite topic => inferInstanceAs (Decidable (validUTF8 topic = true))
  | .addProduced topic value => inferInstanceAs (Decidable (validUTF8 topic = true ∧ 0 ≤ value))

/-- The calls of the library that follow an append. A panic in the first is the
end of the process. -/
def metricCalls (call : AppendCall) : List MetricCall :=
  .observeDiskWrite call.topic::
    if validUTF8 call.topic = false then [] else
      match call.result with
      | .error _ => []
      | .ok _ => [.addProduced call.topic (recordCount call.record)]

/-- A batch that is stored if the store can take it. -/
def LetThrough (record : Bytes) : Prop :=
  record = [] ∨ ∃ count, validateRecordBatch record = some (.ok count)

abbrev Entry := WireString × ProducePartitionData

def entries (req : ProduceRequest) : List Entry :=
  req.topics.flatMap fun t => t.partitions.map fun p => (t.topicName,p)

/-- No batch that is let through belongs to a topic that is no label or has a
negative number of records, up to the first one that the validator panics on. -/
def Acceptable : List Entry → Prop
  | [] => True
  | (topicName,part)::es =>
      (LetThrough part.recordBatch →
        validUTF8 topicName.1 = true ∧ 0 ≤ recordCount part.recordBatch) ∧
      (validateRecordBatch part.recordBatch ≠ none → Acceptable es)

/-! ## Entries -/

section Entries
variable {topicName : WireString} {part : ProducePartitionData}

theorem recordCount_of_ok {record : Bytes} {count : Int32}
    (h : validateRecordBatch record = some (.ok count)) : recordCount record = count := by
  rw [recordCount,h]

theorem producePartition_letThrough (h : LetThrough part.recordBatch) (topicName : WireString)
    (bs : BrokerStore) (d : Disk) : producePartition topicName part bs d =
      storeBatch topicName part (recordCount part.recordBatch) bs d := by
  unfold producePartition
  rcases h with h|⟨count,h⟩
  · rw [if_neg (by rw [h]; exact Nat.lt_irrefl 0),h]
    rfl
  · have hpos : part.recordBatch.length > 0 := by
      refine lt_of_lt_of_le ?_ (validateRecordBatch_verified h).header
      decide
    rw [if_pos hpos,h,recordCount_of_ok h]

theorem validate_of_letThrough {record : Bytes} (h : LetThrough record) :
    validateRecordBatch record ≠ none := by
  rcases h with rfl|⟨count,h⟩
  · decide
  · rw [h]
    exact Option.some_ne_none _

/-- A batch that is not let through is refused or takes the process down. -/
theorem producePartition_refused (h : ¬LetThrough part.recordBatch) (topicName : WireString)
    (bs : BrokerStore) (d : Disk) : ∃ resp, producePartition topicName part bs d = (resp,[],bs,d) ∧
      (resp.isSome ↔ validateRecordBatch part.recordBatch ≠ none) := by
  have hpos : part.recordBatch.length > 0 := by
    refine Nat.pos_of_ne_zero fun h0 => h (.inl (List.length_eq_zero_iff.mp h0))
  unfold producePartition
  rw [if_pos hpos]
  cases hv : validateRecordBatch part.recordBatch with
  | none => exact ⟨none,rfl,by simp⟩
  | some r =>
      cases r with
      | error e => exact ⟨_,rfl,by simp⟩
      | ok count => exact absurd (.inr ⟨count,hv⟩) h

/-- Storing a batch makes at most one call of `Append`, with the topic and the
bytes of its entry. -/
theorem storeBatch_call (topicName : WireString) (part : ProducePartitionData) (count : Int32)
    (bs : BrokerStore) (d : Disk) :
    ((storeBatch topicName part count bs d).2.1 = [] ∧
      (storeBatch topicName part count bs d).1 ≠ none) ∨
    ∃ result, (storeBatch topicName part count bs d).2.1 =
        [⟨topicName.1,part.partition,part.recordBatch,result⟩] ∧
      ((storeBatch topicName part count bs d).1 = none ↔
        validUTF8 topicName.1 = false ∨ (∃ offset, result = .ok offset) ∧ count < 0) := by
  unfold storeBatch
  rcases bs.getOrCreatePartition topicName.1 part.partition d with ⟨e|ps,bs,d⟩
  · exact .inl ⟨rfl,by simp⟩
  · simp only
    rcases ps.append part.recordBatch d with ⟨result,ps,d⟩
    refine .inr ⟨result,?_⟩
    cases hv : validUTF8 topicName.1 with
    | false => simp
    | true =>
        cases result with
        | error e => simp
        | ok offset => by_cases hc : count < 0 <;> simp [hc]

/-- The calls of the library behind an append of an entry. -/
theorem metricCalls_ok_iff (result : Except Err UInt64) :
    (∀ m ∈ metricCalls ⟨topicName.1,part.partition,part.recordBatch,result⟩, m.Ok) ↔
      ¬(validUTF8 topicName.1 = false ∨
        (∃ offset, result = .ok offset) ∧ recordCount part.recordBatch < 0) := by
  cases hv : validUTF8 topicName.1 with
  | false => simp [metricCalls,hv,MetricCall.Ok]
  | true => cases result <;> simp [metricCalls,hv,MetricCall.Ok,Int32.not_lt]

/-- The process dies of an entry that is let through exactly when the library
does not accept a call behind it. -/
theorem storeBatch_eq_none_iff (topicName : WireString) (part : ProducePartitionData)
    (bs : BrokerStore) (d : Disk) :
    (storeBatch topicName part (recordCount part.recordBatch) bs d).1 = none ↔
      ¬∀ call ∈ (storeBatch topicName part (recordCount part.recordBatch) bs d).2.1,
        ∀ m ∈ metricCalls call, m.Ok := by
  rcases storeBatch_call topicName part (recordCount part.recordBatch) bs d with
    ⟨hc,hr⟩|⟨result,hc,hr⟩
  · rw [hc]
    exact ⟨fun h => absurd h hr,fun h => absurd (fun call hm => absurd hm List.not_mem_nil) h⟩
  · rw [hc,hr,List.forall_mem_singleton,metricCalls_ok_iff,not_not]

end Entries

/-! ## Requests -/

/-- Entry after entry, until one takes the process down. -/
def produceEntries : List Entry → BrokerStore → Disk → Bool × List AppendCall × BrokerStore × Disk
  | [],bs,d => (true,[],bs,d)
  | (topicName,part)::es,bs,d =>
      match producePartition topicName part bs d with
      | (none,calls,bs,d) => (false,calls,bs,d)
      | (some _,calls,bs,d) =>
          match produceEntries es bs d with
          | (alive,later,bs,d) => (alive,calls++later,bs,d)

theorem produceEntries_append (es fs : List Entry) (bs : BrokerStore) (d : Disk) :
    produceEntries (es++fs) bs d =
      match produceEntries es bs d with
      | (false,calls,bs,d) => (false,calls,bs,d)
      | (true,calls,bs,d) =>
          match produceEntries fs bs d with
          | (alive,later,bs,d) => (alive,calls++later,bs,d) := by
  induction es generalizing bs d with
  | nil => rfl
  | cons e es ih =>
      obtain ⟨topicName,part⟩ := e
      rw [List.cons_append]
      simp only [produceEntries]
      rcases producePartition topicName part bs d with ⟨_|resp,calls,bs,d⟩
      · rfl
      · simp only [ih]
        rcases produceEntries es bs d with ⟨_|_,later,bs,d⟩
        · rfl
        · simp only [List.append_assoc]

theorem producePartitions_entries (topicName : WireString) (parts : List ProducePartitionData)
    (bs : BrokerStore) (d : Disk) :
    ((producePartitions topicName parts bs d).1.isSome,(producePartitions topicName parts bs d).2) =
      produceEntries (parts.map fun p => (topicName,p)) bs d := by
  induction parts generalizing bs d with
  | nil => rfl
  | cons part parts ih =>
      rw [List.map_cons]
      simp only [producePartitions,produceEntries]
      rcases producePartition topicName part bs d with ⟨_|resp,calls,bs,d⟩
      · rfl
      · simp only [← ih bs d,Option.isSome_map]

theorem produceTopics_entries (topics : List ProduceTopicData) (bs : BrokerStore) (d : Disk) :
    ((produceTopics topics bs d).1.isSome,(produceTopics topics bs d).2) =
      produceEntries (topics.flatMap fun t => t.partitions.map fun p => (t.topicName,p)) bs d := by
  induction topics generalizing bs d with
  | nil => rfl
  | cons topic topics ih =>
      rw [List.flatMap_cons,produceEntries_append,← producePartitions_entries]
      simp only [produceTopics]
      rcases producePartitions topic.topicName topic.partitions bs d with ⟨_|parts,calls,bs,d⟩
      · rfl
      · simp only [← ih bs d,Option.isSome_map,Option.isSome_some]

/-- A request is handled as the list of its entries. -/
theorem handleProduce_entries (req : ProduceRequest) (bs : BrokerStore) (d : Disk) :
    ((handleProduce req bs d).1.isSome,(handleProduce req bs d).2) =
      produceEntries (entries req) bs d :=
  produceTopics_entries req.topics bs d

theorem handleProduce_calls (req : ProduceRequest) (bs : BrokerStore) (d : Disk) :
    (handleProduce req bs d).2.1 = (produceEntries (entries req) bs d).2.1 := by
  rw [← handleProduce_entries]

/-- Every call that the entries lead to is accepted. -/
def Accepted (es : List Entry) (bs : BrokerStore) (d : Disk) : Prop :=
  ∀ call ∈ (produceEntries es bs d).2.1, ∀ m ∈ metricCalls call, m.Ok

section Runs
variable {topicName : WireString} {part : ProducePartitionData} {es : List Entry}
variable {bs bs' : BrokerStore} {d d' : Disk} {calls : List AppendCall}

theorem accepted_cons_of_none
    (h : producePartition topicName part bs d = (none,calls,bs',d')) :
    Accepted ((topicName,part)::es) bs d ↔ ∀ call ∈ calls, ∀ m ∈ metricCalls call, m.Ok := by
  simp only [Accepted,produceEntries,h]

theorem accepted_cons_of_some {resp : ProducePartitionResponse}
    (h : producePartition topicName part bs d = (some resp,calls,bs',d')) :
    Accepted ((topicName,part)::es) bs d ↔
      (∀ call ∈ calls, ∀ m ∈ metricCalls call, m.Ok) ∧ Accepted es bs' d' := by
  simp only [Accepted,produceEntries,h,List.forall_mem_append]

theorem metricCalls_of_letThrough {call : AppendCall}
    (h : LetThrough part.recordBatch → validUTF8 topicName.1 = true ∧
      0 ≤ recordCount part.recordBatch)
    (hc : call ∈ (producePartition topicName part bs d).2.1) : ∀ m ∈ metricCalls call, m.Ok := by
  by_cases hl : LetThrough part.recordBatch
  · obtain ⟨hv,hn⟩ := h hl
    rw [producePartition_letThrough hl] at hc
    rcases storeBatch_call topicName part (recordCount part.recordBatch) bs d with
      ⟨hs,-⟩|⟨result,hs,-⟩
    · rw [hs] at hc
      exact absurd hc List.not_mem_nil
    · rw [hs,List.mem_singleton] at hc
      rw [hc,metricCalls_ok_iff,hv]
      rintro (hf|⟨-,hneg⟩)
      · cases hf
      · exact Int32.not_lt.mpr hn hneg
  · obtain ⟨resp,hp,-⟩ := producePartition_refused hl topicName bs d
    rw [hp] at hc
    exact absurd hc List.not_mem_nil

/-- An entry takes the process down in the validator or in the metrics library. -/
theorem producePartition_eq_none_iff (topicName : WireString) (part : ProducePartitionData)
    (bs : BrokerStore) (d : Disk) :
    (producePartition topicName part bs d).1 = none ↔
      validateRecordBatch part.recordBatch = none ∨
        ¬∀ call ∈ (producePartition topicName part bs d).2.1, ∀ m ∈ metricCalls call, m.Ok := by
  by_cases hl : LetThrough part.recordBatch
  · rw [producePartition_letThrough hl,storeBatch_eq_none_iff,
      or_iff_right (validate_of_letThrough hl)]
  · obtain ⟨resp,hp,hr⟩ := producePartition_refused hl topicName bs d
    rw [Option.isSome_iff_ne_none,not_iff_not] at hr
    rw [hp,hr,or_iff_left]
    exact fun hn => hn fun call hc => absurd hc List.not_mem_nil

/-- The process survives an entry only if both do. -/
theorem survived_of_some {resp : ProducePartitionResponse}
    (h : producePartition topicName part bs d = (some resp,calls,bs',d')) :
    validateRecordBatch part.recordBatch ≠ none ∧ ∀ call ∈ calls, ∀ m ∈ metricCalls call, m.Ok := by
  have hn := producePartition_eq_none_iff topicName part bs d
  rw [h] at hn
  have hboth := not_or.mp fun hx => Option.some_ne_none resp (hn.mpr hx)
  exact ⟨hboth.1,not_not.mp hboth.2⟩

theorem Acceptable.accepted (h : Acceptable es) (bs : BrokerStore) (d : Disk) :
    Accepted es bs d := by
  induction es generalizing bs d with
  | nil => exact fun call hc => absurd hc List.not_mem_nil
  | cons e es ih =>
      obtain ⟨topicName,part⟩ := e
      have hcalls : ∀ call ∈ (producePartition topicName part bs d).2.1,
          ∀ m ∈ metricCalls call, m.Ok := fun call => metricCalls_of_letThrough h.1
      rcases hp : producePartition topicName part bs d with ⟨_|resp,calls,bs',d'⟩
      · rw [accepted_cons_of_none hp]
        rw [hp] at hcalls
        exact hcalls
      · rw [accepted_cons_of_some hp]
        rw [hp] at hcalls
        exact ⟨hcalls,ih (h.2 (survived_of_some hp).1) bs' d'⟩

end Runs

/-! ## Reaching the library -/

/-- No partition yet, and segments that take any batch of a request. -/
def roomyStores : BrokerStore := ⟨[],⟨4294967296⟩,∅⟩

/-- An empty disk with failures to come. -/
def failing (faults : List (Option ℕ)) : Disk := {Disk.blank with faults := faults}

section Reached
variable {topicName : WireString} {part : ProducePartitionData} {es : List Entry}

/-- A batch is stored in a new partition. -/
theorem storeBatch_stored (count : Int32) (hs : part.recordBatch.length < 2^31) :
    (storeBatch topicName part count roomyStores (failing [])).2.1 =
      [⟨topicName.1,part.partition,part.recordBatch,.ok 0⟩] := by
  obtain ⟨e,hm,he,hfiles⟩ : ∃ e, (failing []).mkdirAll
      (roomyStores.partitionDir topicName.1 part.partition) = (none,e) ∧ e.Healthy ∧
        e.files = ∅ := ⟨_,rfl,rfl,rfl⟩
  obtain ⟨ps,f,ho,-,hcfg,-,-,hf⟩ := openPartitionStore_follows he
    (roomyStores.partitionDir topicName.1 part.partition) roomyStores.cfg
  have hg : roomyStores.getOrCreatePartition topicName.1 part.partition (failing []) =
      (.ok ps,roomyStores.put topicName.1 part.partition ps,f) := by
    have hl : roomyStores.stores.lookup (partitionKey topicName.1 part.partition) = none := rfl
    simp only [BrokerStore.getOrCreatePartition,hl,hm,ho]
  obtain ⟨qs,g,ha,-⟩ := hf.append part.recordBatch
  have hempty : (Rolling.openAt (segments (roomyStores.partitionDir topicName.1 part.partition) e)
      0).active = [] := by
    rw [Rolling.active,Rolling.openAt_part,segments,hfiles]
    rfl
  have hcap : capacity roomyStores.cfg = 4294967296 := by decide
  rw [hcfg,hcap,Rolling.append,if_pos (by rw [hempty,frame_length,List.length_nil]; omega),
    hempty] at ha
  simp only [storeBatch,hg,ha]
  cases validUTF8 topicName.1 with
  | false => rfl
  | true =>
      simp only [answer]
      by_cases hc : count < 0 <;> simp [hc]

/-- A batch is dropped when its directory cannot be made. -/
theorem storeBatch_dropped (count : Int32) (fault : ℕ) (faults : List (Option ℕ)) :
    storeBatch topicName part count roomyStores (failing (some fault::faults)) =
      (some ⟨part.partition,1,-1⟩,[],roomyStores,failing faults) := rfl

/-- Some disk lets the first entry through that is not acceptable. -/
theorem exists_not_accepted (hs : ∀ e ∈ es, e.2.recordBatch.length < 2^31)
    (h : ¬Acceptable es) : ∃ faults, ¬Accepted es roomyStores (failing faults) := by
  induction es with
  | nil => exact absurd trivial h
  | cons e es ih =>
      obtain ⟨topicName,part⟩ := e
      rw [List.forall_mem_cons] at hs
      rw [Acceptable,not_and_or] at h
      rcases h with h|h
      · obtain ⟨hl,hbad⟩ := Classical.not_imp.mp h
        refine ⟨[],fun hacc => hbad ?_⟩
        have hcall : (⟨topicName.1,part.partition,part.recordBatch,.ok 0⟩ : AppendCall) ∈
            (producePartition topicName part roomyStores (failing [])).2.1 := by
          rw [producePartition_letThrough hl,storeBatch_stored _ hs.1]
          exact List.mem_singleton_self _
        have hall : ∀ m ∈ metricCalls ⟨topicName.1,part.partition,part.recordBatch,.ok 0⟩,
            m.Ok := by
          rcases hp : producePartition topicName part roomyStores (failing []) with
            ⟨_|resp,calls,bs,d⟩
          · rw [hp] at hcall
            exact (accepted_cons_of_none hp).mp hacc _ hcall
          · rw [hp] at hcall
            exact ((accepted_cons_of_some hp).mp hacc).1 _ hcall
        rw [metricCalls_ok_iff,not_or,Bool.not_eq_false] at hall
        exact ⟨hall.1,Int32.not_lt.mp fun hneg => hall.2 ⟨⟨0,rfl⟩,hneg⟩⟩
      · obtain ⟨hval,hes⟩ := Classical.not_imp.mp h
        obtain ⟨faults,hf⟩ := ih hs.2 hes
        by_cases hl : LetThrough part.recordBatch
        · have hp := (producePartition_letThrough hl topicName roomyStores
            (failing (some 0::faults))).trans (storeBatch_dropped _ 0 faults)
          exact ⟨some 0::faults,fun hacc => hf ((accepted_cons_of_some hp).mp hacc).2⟩
        · obtain ⟨resp,hp,hr⟩ := producePartition_refused hl topicName roomyStores (failing faults)
          obtain ⟨r,rfl⟩ := Option.isSome_iff_exists.mp (hr.mpr hval)
          exact ⟨faults,fun hacc => hf ((accepted_cons_of_some hp).mp hacc).2⟩

end Reached

/-- The entries of a parsed request have batches of less than two gigabytes. -/
theorem entries_length {header : RequestHeader} {body rest : Bytes} {req : ProduceRequest}
    (h : parseProduceRequest header body = .ok req rest) :
    ∀ e ∈ entries req, e.2.recordBatch.length < 2^31 := by
  intro e he
  obtain ⟨t,ht,he⟩ := List.mem_flatMap.mp he
  obtain ⟨p,hp,rfl⟩ := List.mem_map.mp he
  exact ensures_parseProduceRequest header body req rest h t ht p hp

/-- Whatever the stores and the disk do, the metrics library gets valid labels
and counts that are not negative, if and only if every batch that is let through
before the validator panics belongs to a topic in UTF-8 and has a number of
records that is not negative. -/
theorem metrics_accept_iff (header : RequestHeader) (body rest : Bytes) (req : ProduceRequest)
    (h : parseProduceRequest header body = .ok req rest) :
    (∀ bs d, ∀ call ∈ (handleProduce req bs d).2.1, ∀ m ∈ metricCalls call, m.Ok) ↔
      Acceptable (entries req) := by
  simp only [handleProduce_calls]
  constructor
  · intro hall
    by_contra hbad
    obtain ⟨faults,hf⟩ := exists_not_accepted (entries_length h) hbad
    exact hf (hall roomyStores (failing faults))
  · intro hacc bs d
    exact hacc.accepted bs d

/-- The calls of the library that a request body leads to. -/
def metricCallsOf (header : RequestHeader) (body : Bytes) (bs : BrokerStore) (d : Disk) :
    List MetricCall := (appended header body bs d).flatMap metricCalls

theorem metrics_accept_one_record :
    ∃ req rest, parseProduceRequest produceHeader (produceBody 1 (ascii "t") [oneRecord]) =
        .ok req rest ∧
      ∀ bs d, ∀ call ∈ (handleProduce req bs d).2.1, ∀ m ∈ metricCalls call, m.Ok := by
  refine ⟨⟨1,0,[⟨⟨ascii "t",by decide⟩,[⟨0,oneRecord⟩]⟩]⟩,[],by decide +kernel,?_⟩
  refine (metrics_accept_iff produceHeader (produceBody 1 (ascii "t") [oneRecord]) [] _
    (by decide +kernel)).mpr ?_
  exact ⟨fun _ => ⟨by decide +kernel,by decide +kernel⟩,fun _ => trivial⟩

/-- A batch that claims minus one records. -/
def minusOneRecords : Bytes := batchOf (List.replicate 36 0++[255,255,255,255])

/-- A number of records below zero and a topic that is not UTF-8 reach the
library, after the batch was stored. -/
theorem negative_count_and_raw_topic_passed :
    metricCallsOf produceHeader (produceBody 1 (ascii "t") [minusOneRecords]) ⟨[],⟨0⟩,∅⟩ emptyRoot =
        [.observeDiskWrite (ascii "t"),.addProduced (ascii "t") (-1)] ∧
      metricCallsOf produceHeader (produceBody 1 [255] [oneRecord]) ⟨[],⟨0⟩,∅⟩ emptyRoot =
        [.observeDiskWrite [255]] ∧
      ¬(MetricCall.addProduced (ascii "t") (-1)).Ok ∧ ¬(MetricCall.observeDiskWrite [255]).Ok := by
  refine ⟨by decide +kernel,by decide +kernel,by decide,by decide⟩

end Kage.ProduceMetrics
