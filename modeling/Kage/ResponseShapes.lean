import Kage.OffsetRefinement
import Kage.ProduceMetrics
import Kage.RequestHandlers

/-!
# Every requested partition is answered

Five requests name topics and partitions. Their handlers go through them in
nested loops and put an entry into the response on every path, so a response
names what the request named, in the same order and as often. An entry of a
produce response tells what became of its append.

What keeps a partition from being answered is the end of the process: a length
on which the validator panics, or a call that the metrics library does not
accept. Then nothing is sent, not even for the batches that were stored already.
Which entry ends the process can be told from the stores and the disk that the
entry finds: the time of an append is observed under the name of the topic
whether the append succeeds or not, the records of a batch are counted when it
was stored, and a fetched batch is counted when it was read.
-/
namespace Kage.ResponseShapes
open ByteStrings FaultyDisk BrokerStores FetchHandler FetchBudgets RecordBatches OffsetRecords
open OffsetHandlers OffsetStorage OffsetRefinement RequestParsers ProduceHandler ProduceMetrics
open ResponseEncoders FetchEntries RequestHandlers

/-- The requests that name partitions, among those of produce the ones that ask
for an answer. -/
inductive Asked
  | produce (req : ProduceRequest) (acks : req.acks ≠ AcksNone)
  | fetch (req : WireFetchRequest)
  | offsetCommit (req : WireOffsetCommitRequest)
  | offsetFetch (req : OffsetFetchRequest)
  | listOffsets (req : ListOffsetsRequest)

/-- The names of the topics and the numbers of their partitions, in order. -/
def outline {τ π : Type} (name : τ → Bytes) (partitions : τ → List π) (number : π → Int32)
    (topics : List τ) : List (Bytes × List Int32) :=
  topics.map fun t => (name t,(partitions t).map number)

def Asked.outline : Asked → List (Bytes × List Int32)
  | produce req _ => ResponseShapes.outline (fun t : ProduceTopicData => t.topicName.1)
      ProduceTopicData.partitions ProducePartitionData.partition req.topics
  | fetch req => ResponseShapes.outline FetchTopicData.topicName FetchTopicData.partitions
      FetchPartitionData.partition req.topics
  | offsetCommit req => ResponseShapes.outline (fun t : WireOffsetCommitTopic => t.topicName.1)
      WireOffsetCommitTopic.partitions (fun p => p.partition) req.topics
  | offsetFetch req => ResponseShapes.outline (fun t : OffsetFetchTopic => t.topicName.1)
      OffsetFetchTopic.partitions id req.topics
  | listOffsets req => ResponseShapes.outline (fun t : ListOffsetsTopicRequest => t.topicName.1)
      ListOffsetsTopicRequest.partitions ListOffsetsPartitionRequest.partition req.topics

/-- The entries of a produce response tell what became of the appends: an entry
was refused before its append, or its append failed, or it was stored. -/
inductive Told : List Entry → List AppendCall → List ProducePartitionResponse → Prop
  | nil : Told [] [] []
  | refused {es : List Entry} {calls : List AppendCall} {resps : List ProducePartitionResponse}
      (e : Entry) (resp : ProducePartitionResponse) : resp.errorCode ≠ 0 →
      resp.baseOffset = -1 → Told es calls resps → Told (e::es) calls (resp::resps)
  | failed {es : List Entry} {calls : List AppendCall} {resps : List ProducePartitionResponse}
      (e : Entry) (resp : ProducePartitionResponse) (err : Err) : resp.errorCode ≠ 0 →
      resp.baseOffset = -1 → Told es calls resps →
      Told (e::es) (⟨e.1.1,e.2.partition,e.2.recordBatch,.error err⟩::calls) (resp::resps)
  | stored {es : List Entry} {calls : List AppendCall} {resps : List ProducePartitionResponse}
      (e : Entry) (resp : ProducePartitionResponse) (offset : UInt64) : resp.errorCode = 0 →
      resp.baseOffset = offset.toInt64 → Told es calls resps →
      Told (e::es) (⟨e.1.1,e.2.partition,e.2.recordBatch,.ok offset⟩::calls) (resp::resps)

/-- A response is sent, and it names what the request names. -/
def Answered (header : RequestHeader) : Asked → State → Prop
  | .produce req acks,st => ∃ topics st', produceWork header req st =
        some (some [fullMessage (encodeProduceResponse header.correlationID topics)],st') ∧
      outline (fun t : ProduceTopicResponse => t.topicName.1) ProduceTopicResponse.partitions
        ProducePartitionResponse.partition topics = (Asked.produce req acks).outline ∧
      Told (entries req) (handleProduce req st.handler.store st.disk).2.1
        (topics.flatMap ProduceTopicResponse.partitions)
  | .fetch req,st => ∃ topics bs d,
      answerFetch req.toFetchRequest st.handler.store st.disk = some (topics,bs,d) ∧
      fetchWork header req st =
        some (some (writeFetchResponse header.correlationID 0 topics),st.withStore bs d) ∧
      outline FetchTopicResponse.topicName FetchTopicResponse.partitions
        FetchPartitionResponse.partition topics = (Asked.fetch req).outline
  | .offsetCommit req,st => ∃ topics st', offsetCommitWork header req st =
        some (some [fullMessage (encodeOffsetCommitResponse header.correlationID topics)],st') ∧
      outline (fun t : OffsetCommitTopicResponse => t.topicName.1)
        OffsetCommitTopicResponse.partitions OffsetCommitPartitionResponse.partition topics =
          (Asked.offsetCommit req).outline
  | .offsetFetch req,st => ∃ topics st', offsetFetchWork header req st =
        some (some [fullMessage (encodeOffsetFetchResponse header.correlationID topics)],st') ∧
      outline (fun t : OffsetFetchTopicResponse => t.topicName.1)
        OffsetFetchTopicResponse.partitions OffsetFetchPartitionResponse.partition topics =
          (Asked.offsetFetch req).outline
  | .listOffsets req,st => ∃ topics st', listOffsetsWork header req st =
        some (some [fullMessage (encodeListOffsetsResponse header.correlationID topics)],st') ∧
      outline (fun t : ListOffsetsTopicResponse => t.topicName.1)
        ListOffsetsTopicResponse.partitions ListOffsetsPartitionResponse.partition topics =
          (Asked.listOffsets req).outline

/-- An entry of a produce request with what it finds. -/
structure ProducePass where
  topicName : WireString
  part : ProducePartitionData
  store : BrokerStore
  disk : Disk

/-- What every entry finds. -/
def producePasses : List Entry → BrokerStore → Disk → List ProducePass
  | [],_,_ => []
  | (topicName,part)::es,bs,d =>
      ⟨topicName,part,bs,d⟩::
        match producePartition topicName part bs d with
        | (_,_,bs,d) => producePasses es bs d

/-- The validator does not panic. If the batch is let through and its partition
can be opened, the topic can be a label; if the append then succeeds, the number
of records can be added to a counter. -/
structure ProducePass.Harmless (x : ProducePass) : Prop where
  validated : validateRecordBatch x.part.recordBatch ≠ none
  counted : LetThrough x.part.recordBatch → ∀ ps bs d,
    x.store.getOrCreatePartition x.topicName.1 x.part.partition x.disk = (.ok ps,bs,d) →
      validUTF8 x.topicName.1 = true ∧
        ∀ offset, (ps.append x.part.recordBatch d).1 = .ok offset →
          0 ≤ recordCount x.part.recordBatch

/-- No entry finds a state in which it ends the process. -/
def Survives : Asked → State → Prop
  | .produce req _,st =>
      ∀ x ∈ producePasses (entries req) st.handler.store st.disk, x.Harmless
  | .fetch req,st =>
      ∀ x ∈ passes (fetchEntries req.topics) req.maxBytes st.handler.store st.disk, x.Labelled
  | .offsetCommit _,_ => True
  | .offsetFetch _,_ => True
  | .listOffsets _,_ => True

/-! ## Produce -/

section Produce
variable {topicName : WireString} {bs bs' : BrokerStore} {d d' : Disk}
variable {calls : List AppendCall}

theorem Told.append {es fs : List Entry} {calls later : List AppendCall}
    {resps resps' : List ProducePartitionResponse} (h : Told es calls resps)
    (k : Told fs later resps') : Told (es++fs) (calls++later) (resps++resps') := by
  induction h with
  | nil => exact k
  | refused e resp hc hb _ ih => exact .refused e resp hc hb ih
  | failed e resp err hc hb _ ih => exact .failed e resp err hc hb ih
  | stored e resp offset hc hb _ ih => exact .stored e resp offset hc hb ih

theorem storeBatch_told {part : ProducePartitionData} {count : Int32}
    {resp : ProducePartitionResponse}
    (h : storeBatch topicName part count bs d = (some resp,calls,bs',d')) :
    resp.partition = part.partition ∧ Told [(topicName,part)] calls [resp] := by
  have h1 : (1 : Int16) ≠ 0 := by decide
  rw [storeBatch] at h
  rcases hg : bs.getOrCreatePartition topicName.1 part.partition d with ⟨e|ps,bs₁,d₁⟩
  · rw [hg] at h
    cases h
    exact ⟨rfl,.refused _ _ h1 rfl .nil⟩
  · rcases ha : ps.append part.recordBatch d₁ with ⟨result,ps₁,d₂⟩
    simp only [hg,ha] at h
    split at h
    · cases h
    · cases result with
      | error err =>
          cases h
          exact ⟨rfl,.failed _ _ err h1 rfl .nil⟩
      | ok offset =>
          simp only at h
          split at h
          · cases h
          · cases h
            exact ⟨rfl,.stored _ _ offset rfl rfl .nil⟩

theorem producePartition_told {part : ProducePartitionData} {resp : ProducePartitionResponse}
    (h : producePartition topicName part bs d = (some resp,calls,bs',d')) :
    resp.partition = part.partition ∧ Told [(topicName,part)] calls [resp] := by
  have hcorrupt : ErrCodeCorruptMessage ≠ 0 := by decide
  unfold producePartition at h
  split at h
  · split at h
    · cases h
    · cases h
      exact ⟨rfl,.refused _ _ hcorrupt rfl .nil⟩
    · exact storeBatch_told h
  · exact storeBatch_told h

theorem producePartitions_told {parts : List ProducePartitionData}
    {resps : List ProducePartitionResponse}
    (h : producePartitions topicName parts bs d = (some resps,calls,bs',d')) :
    resps.map ProducePartitionResponse.partition = parts.map ProducePartitionData.partition ∧
      Told (parts.map fun p => (topicName,p)) calls resps := by
  induction parts generalizing bs d calls resps with
  | nil =>
      cases h
      exact ⟨rfl,.nil⟩
  | cons part parts ih =>
      rw [producePartitions] at h
      rcases hp : producePartition topicName part bs d with ⟨_|resp,calls₁,bs₁,d₁⟩
      · simp only [hp] at h
        cases h
      · rcases hq : producePartitions topicName parts bs₁ d₁ with ⟨_|resps₁,later,bs₂,d₂⟩
        · simp only [hp,hq] at h
          cases h
        · simp only [hp,hq,Option.map_some] at h
          cases h
          obtain ⟨hn,ht⟩ := producePartition_told hp
          obtain ⟨hns,hts⟩ := ih hq
          exact ⟨by rw [List.map_cons,List.map_cons,hn,hns],ht.append hts⟩

theorem produceTopics_told {topics : List ProduceTopicData} {resps : List ProduceTopicResponse}
    (h : produceTopics topics bs d = (some resps,calls,bs',d')) :
    outline (fun t : ProduceTopicResponse => t.topicName.1) ProduceTopicResponse.partitions
        ProducePartitionResponse.partition resps =
      outline (fun t : ProduceTopicData => t.topicName.1) ProduceTopicData.partitions
        ProducePartitionData.partition topics ∧
      Told (topics.flatMap fun t => t.partitions.map fun p => (t.topicName,p)) calls
        (resps.flatMap ProduceTopicResponse.partitions) := by
  induction topics generalizing bs d calls resps with
  | nil =>
      cases h
      exact ⟨rfl,.nil⟩
  | cons topic topics ih =>
      rw [produceTopics] at h
      rcases hp : producePartitions topic.topicName topic.partitions bs d with
        ⟨_|parts,calls₁,bs₁,d₁⟩
      · simp only [hp] at h
        cases h
      · rcases hq : produceTopics topics bs₁ d₁ with ⟨_|resps₁,later,bs₂,d₂⟩
        · simp only [hp,hq] at h
          cases h
        · simp only [hp,hq,Option.map_some] at h
          cases h
          obtain ⟨hn,ht⟩ := producePartitions_told hp
          obtain ⟨hns,hts⟩ := ih hq
          unfold outline at hns ⊢
          exact ⟨by rw [List.map_cons,List.map_cons,hn,hns],ht.append hts⟩

/-- The process survives an entry exactly if what the entry finds is harmless. -/
theorem producePartition_isSome_iff (topicName : WireString) (part : ProducePartitionData)
    (bs : BrokerStore) (d : Disk) : (producePartition topicName part bs d).1.isSome ↔
      (⟨topicName,part,bs,d⟩ : ProducePass).Harmless := by
  by_cases hl : LetThrough part.recordBatch
  · have hv : validateRecordBatch part.recordBatch ≠ none := validate_of_letThrough hl
    rw [producePartition_letThrough hl,storeBatch]
    rcases hg : bs.getOrCreatePartition topicName.1 part.partition d with ⟨e|ps,bs₁,d₁⟩
    · refine iff_of_true rfl ⟨hv,fun _ ps bs' d' h => ?_⟩
      rw [hg] at h
      cases h
    · have hone : (⟨topicName,part,bs,d⟩ : ProducePass).Harmless ↔
          validUTF8 topicName.1 = true ∧ ∀ offset, (ps.append part.recordBatch d₁).1 = .ok offset →
            0 ≤ recordCount part.recordBatch := by
        refine ⟨fun h => h.counted hl ps bs₁ d₁ hg,fun h => ⟨hv,fun _ qs bs' d' hq => ?_⟩⟩
        rw [hg] at hq
        cases hq
        exact h
      rcases ha : ps.append part.recordBatch d₁ with ⟨result,qs,d₂⟩
      rw [ha] at hone
      simp only [hone,ha]
      cases hu : validUTF8 topicName.1 with
      | false => simp
      | true =>
          cases result with
          | error e => simp
          | ok offset =>
              by_cases hc : recordCount part.recordBatch < 0
              · simp [hc,Int32.not_le.mpr hc]
              · simp [hc,Int32.not_lt.mp hc]
  · obtain ⟨resp,hp,hr⟩ := producePartition_refused hl topicName bs d
    rw [hp,hr]
    exact ⟨fun hv => ⟨hv,fun h => absurd h hl⟩,fun h => h.validated⟩

theorem produceEntries_iff (es : List Entry) (bs : BrokerStore) (d : Disk) :
    (produceEntries es bs d).1 ↔ ∀ x ∈ producePasses es bs d, x.Harmless := by
  induction es generalizing bs d with
  | nil => exact iff_of_true rfl fun x hx => absurd hx List.not_mem_nil
  | cons e es ih =>
      obtain ⟨topicName,part⟩ := e
      have hi := producePartition_isSome_iff topicName part bs d
      rw [producePasses,List.forall_mem_cons,← hi,produceEntries]
      rcases producePartition topicName part bs d with ⟨_|resp,calls,bs₁,d₁⟩
      · simp
      · simp [ih]

theorem handleProduce_isSome_iff (req : ProduceRequest) (bs : BrokerStore) (d : Disk) :
    (handleProduce req bs d).1.isSome ↔ ∀ x ∈ producePasses (entries req) bs d, x.Harmless := by
  rw [← produceEntries_iff,← handleProduce_entries]

end Produce

/-! ## The other requests -/

section Others

theorem fetchTopics_outline {topics : List FetchTopicData} {resps : List FetchTopicResponse}
    (h : List.Forall₂ TopicBounded topics resps) :
    outline FetchTopicResponse.topicName FetchTopicResponse.partitions
        FetchPartitionResponse.partition resps =
      outline FetchTopicData.topicName FetchTopicData.partitions FetchPartitionData.partition
        topics := by
  have hparts {parts : List FetchPartitionData} {answers : List FetchPartitionResponse}
      (h : List.Forall₂ Bounded parts answers) : answers.map FetchPartitionResponse.partition =
        parts.map FetchPartitionData.partition := by
    induction h with
    | nil => rfl
    | cons hb _ ih => rw [List.map_cons,List.map_cons,hb.1,ih]
  unfold outline
  induction h with
  | nil => rfl
  | cons ht _ ih => rw [List.map_cons,List.map_cons,ht.1,hparts ht.2,ih]

theorem handleFetch_outline (req : FetchRequest) (bs : BrokerStore) (d : Disk) :
    outline FetchTopicResponse.topicName FetchTopicResponse.partitions
        FetchPartitionResponse.partition (handleFetch req bs d).1 =
      outline FetchTopicData.topicName FetchTopicData.partitions FetchPartitionData.partition
        req.topics := by
  rcases h : fetchTopics req.topics req.maxBytes bs d with ⟨resps,left,bs',d'⟩
  simp only [handleFetch,h]
  exact fetchTopics_outline (fetchTopics_within req.topics h).1

theorem handleOffsetCommit_outline (req : WireOffsetCommitRequest) (h : Handler) (d : Disk) :
    outline (fun t : OffsetCommitTopicResponse => t.topicName.1)
        OffsetCommitTopicResponse.partitions OffsetCommitPartitionResponse.partition
        (handleOffsetCommit req.request h d).1 = (Asked.offsetCommit req).outline := by
  rcases hc : handleOffsetCommit req.request h d with ⟨resps,h',d'⟩
  obtain ⟨ha,-⟩ := commitTopics_refines (Refines.refl h) req.groupID req.request.topics hc
  have hn := congrArg (List.map fun x : WireString × List Int32 => (x.1.1,x.2)) ha
  simp only [List.map_map,WireOffsetCommitRequest.request,Function.comp_def] at hn
  exact hn

theorem listOffsetsPartition_partition (topicName : WireString)
    (part : ListOffsetsPartitionRequest) (bs : BrokerStore) (d : Disk) :
    (listOffsetsPartition topicName part bs d).1.partition = part.partition := by
  unfold listOffsetsPartition
  simp only
  split
  · rfl
  · split
    · rcases bs.getOrCreatePartition topicName.1 part.partition d with ⟨e|ps,bs,d⟩ <;> rfl
    · rfl

theorem listOffsetsPartitions_partition (topicName : WireString)
    (parts : List ListOffsetsPartitionRequest) (bs : BrokerStore) (d : Disk) :
    (listOffsetsPartitions topicName parts bs d).1.map ListOffsetsPartitionResponse.partition =
      parts.map ListOffsetsPartitionRequest.partition := by
  induction parts generalizing bs d with
  | nil => rfl
  | cons part parts ih =>
      rw [listOffsetsPartitions,List.map_cons,List.map_cons,listOffsetsPartition_partition,ih]

theorem handleListOffsets_outline (topics : List ListOffsetsTopicRequest) (bs : BrokerStore)
    (d : Disk) :
    outline (fun t : ListOffsetsTopicResponse => t.topicName.1)
        ListOffsetsTopicResponse.partitions ListOffsetsPartitionResponse.partition
        (handleListOffsets topics bs d).1 =
      outline (fun t : ListOffsetsTopicRequest => t.topicName.1)
        ListOffsetsTopicRequest.partitions ListOffsetsPartitionRequest.partition topics := by
  unfold outline
  induction topics generalizing bs d with
  | nil => rfl
  | cons topic topics ih =>
      rw [handleListOffsets,List.map_cons,List.map_cons,listOffsetsPartitions_partition,ih]

theorem handleOffsetFetch_outline (req : OffsetFetchRequest) (h : Handler) :
    outline (fun t : OffsetFetchTopicResponse => t.topicName.1)
        OffsetFetchTopicResponse.partitions OffsetFetchPartitionResponse.partition
        (handleOffsetFetch req h) = (Asked.offsetFetch req).outline := by
  unfold handleOffsetFetch outline Asked.outline outline
  rw [List.map_map]
  refine List.map_congr_left fun topic _ => ?_
  simp only [Function.comp_apply,List.map_map]
  congr 1
  refine List.map_congr_left fun partition _ => ?_
  simp only [Function.comp_apply]
  cases h.offsetCache ⟨req.groupID.1,topic.topicName.1,partition⟩ <;> rfl

end Others

/-! ## Answers -/

theorem produceWork_none {header : RequestHeader} {req : ProduceRequest} {st : State}
    (h : (handleProduce req st.handler.store st.disk).1 = none) :
    produceWork header req st = none := by
  unfold produceWork
  rcases hp : handleProduce req st.handler.store st.disk with ⟨_|topics,calls,bs,d⟩
  · rfl
  · rw [hp] at h
    cases h

theorem answered_produce_iff (header : RequestHeader) (req : ProduceRequest)
    (acks : req.acks ≠ AcksNone) (st : State) :
    Answered header (.produce req acks) st ↔ Survives (.produce req acks) st := by
  rw [Survives,← handleProduce_isSome_iff]
  rcases h : handleProduce req st.handler.store st.disk with ⟨_|topics,calls,bs,d⟩
  · have hwork : produceWork header req st = none := produceWork_none (congrArg Prod.fst h)
    refine iff_of_false ?_ Bool.false_ne_true
    rintro ⟨topics,st',hx,-⟩
    rw [hwork] at hx
    cases hx
  · obtain ⟨hout,htold⟩ := produceTopics_told h
    refine iff_of_true ⟨topics,st.withStore bs d,?_,hout,?_⟩ rfl
    · simp only [produceWork,h,if_neg acks]
    · rw [h]
      exact htold

theorem answered_fetch_iff (header : RequestHeader) (req : WireFetchRequest) (st : State) :
    Answered header (.fetch req) st ↔ Survives (.fetch req) st := by
  obtain ⟨hall,hnone⟩ := answerFetch_guarded req.toFetchRequest st.handler.store st.disk
  by_cases hs : Survives (.fetch req) st
  · have ha := hall hs
    have hout := handleFetch_outline req.toFetchRequest st.handler.store st.disk
    rcases hf : handleFetch req.toFetchRequest st.handler.store st.disk with ⟨topics,bs,d⟩
    rw [hf] at ha hout
    exact iff_of_true ⟨topics,bs,d,ha,by simp only [fetchWork,ha],hout⟩ hs
  · refine iff_of_false ?_ hs
    rintro ⟨topics,bs,d,hx,-⟩
    rw [hnone hs] at hx
    cases hx

/-- Every requested partition is answered once, in its place, exactly when no
entry of the request finds a state in which it ends the process. -/
theorem partitions_answered_iff (header : RequestHeader) (asked : Asked) (st : State) :
    Answered header asked st ↔ Survives asked st := by
  cases asked with
  | produce req acks => exact answered_produce_iff header req acks st
  | fetch req => exact answered_fetch_iff header req st
  | offsetCommit req =>
      exact iff_of_true ⟨_,_,rfl,handleOffsetCommit_outline req st.handler st.disk⟩ trivial
  | offsetFetch req =>
      exact iff_of_true ⟨_,_,rfl,handleOffsetFetch_outline req st.handler⟩ trivial
  | listOffsets req =>
      exact iff_of_true ⟨_,_,rfl,
        handleListOffsets_outline req.topics st.handler.store st.disk⟩ trivial

/-- A sound batch and one on which the validator panics. -/
def mixedProduce : ProduceRequest :=
  ⟨1,0,[⟨aTopic,[⟨0,oneRecord⟩,⟨1,shortLength⟩]⟩]⟩

/-- The first batch is stored, and neither is answered. -/
theorem stored_batch_unanswered :
    ((handleProduce mixedProduce idle.handler.store idle.disk).2.1.map fun call =>
        (call.record,call.result.toOption)) = [(oneRecord,some 0)] ∧
      produceWork produceHeader mixedProduce idle = none ∧
      ¬Answered produceHeader (.produce mixedProduce (by decide)) idle := by
  have hnone : produceWork produceHeader mixedProduce idle = none :=
    produceWork_none (by decide +kernel)
  refine ⟨by decide +kernel,hnone,?_⟩
  rintro ⟨topics,st',hx,-⟩
  rw [hnone] at hx
  cases hx

end Kage.ResponseShapes
