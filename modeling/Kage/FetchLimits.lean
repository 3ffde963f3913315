import Kage.RequestHandlers

/-!
# The limits of a fetch inside its request

An entry at the start of a record is answered with as many bytes as its limits
and the log allow, unless the smaller limit is so large that the prefix of the
record pushes it over the largest number. It is answered only if the whole
request is: an entry in front of it or behind it that serves a batch of a topic
whose name is not UTF-8 ends the process, and no entry is answered.
-/
namespace Kage.FetchLimits
open ByteStrings LengthPrefixed FaultyDisk PartitionLog BrokerStores RecordBatches FetchHandler
open SegmentLog FetchBudgets FetchEntries OffsetStorage RequestParsers ProduceHandler
open ResponseEncoders RequestHandlers

/-- The entries of a request with what each of them finds. -/
def passesOf (req : WireFetchRequest) (st : State) : List Pass :=
  passes (fetchEntries req.topics) req.maxBytes st.handler.store st.disk

/-- The answer to an entry of a request that is answered. -/
theorem answer_at {req : WireFetchRequest} {st : State} {topics : List FetchTopicResponse}
    {bs : BrokerStore} {d : Disk}
    (h : answerFetch req.toFetchRequest st.handler.store st.disk = some (topics,bs,d)) (i : ℕ) :
    (topics.flatMap FetchTopicResponse.partitions)[i]? =
      (passesOf req st)[i]?.map fun x => x.handled.1 := by
  have hh := handleFetch_of_answerFetch h
  have ht := fetchTopics_handled req.topics req.maxBytes st.handler.store st.disk
  rcases hf : fetchTopics req.topics req.maxBytes st.handler.store st.disk with ⟨resps,r,bs',d'⟩
  rw [hf] at ht
  simp only [handleFetch,hf] at hh
  cases hh
  rw [ht,List.getElem?_map]
  rfl

/-- A request is answered exactly if every batch that it reads belongs to a topic
in UTF-8. -/
theorem fetchWork_answers {req : WireFetchRequest} {st : State}
    (h : ∀ x ∈ passesOf req st, x.Labelled) (header : RequestHeader) : ∃ topics bs d,
    answerFetch req.toFetchRequest st.handler.store st.disk = some (topics,bs,d) ∧
      fetchWork header req st =
        some (some (writeFetchResponse header.correlationID 0 topics),st.withStore bs d) := by
  have ha := (answerFetch_guarded req.toFetchRequest st.handler.store st.disk).1 h
  rcases hf : handleFetch req.toFetchRequest st.handler.store st.disk with ⟨topics,bs,d⟩
  rw [hf] at ha
  exact ⟨topics,bs,d,ha,by simp only [fetchWork,ha]⟩

section Entry
variable {req : WireFetchRequest} {st : State} {i : ℕ} {x : Pass} {bs' : BrokerStore}
variable {ps : PartitionStore} {d' : Disk} {log before b rest : Bytes}

/-- An entry of a request at the start of a record is answered without an error
and with as many bytes as the limits and the log allow, exactly when the smaller
limit leaves room for the prefix and every entry of the request for which a batch
is read has a topic in UTF-8. -/
theorem fetch_succeeds_iff (header : RequestHeader) (hx : (passesOf req st)[i]? = some x)
    (hg : x.store.getOrCreatePartition x.topicName x.part.partition x.disk = (.ok ps,bs',d'))
    (h : ps.active.Holds d' log) (hlog : log = before++(frame b++rest))
    (hl : log.length < 2^63) (ho : x.part.fetchOffset = Int64.ofNat before.length)
    (hr : 0 < x.remaining.toInt) (hp : 0 < x.part.partitionMaxBytes.toInt) :
    (∃ topics bs d resp,
        answerFetch req.toFetchRequest st.handler.store st.disk = some (topics,bs,d) ∧
        fetchWork header req st =
          some (some (writeFetchResponse header.correlationID 0 topics),st.withStore bs d) ∧
        (topics.flatMap FetchTopicResponse.partitions)[i]? = some resp ∧
        resp.errorCode = ErrCodeNone ∧
        resp.batchSize.toInt = min (min x.part.partitionMaxBytes.toInt x.remaining.toInt)
          (resp.highWatermark.toInt-x.part.fetchOffset.toInt-4)) ↔
      min x.part.partitionMaxBytes.toInt x.remaining.toInt ≤ 2^31-5 ∧
        ∀ y ∈ passesOf req st, y.Labelled := by
  have hentry := fetchPartition_succeeds_iff x.part hg h hlog hl ho hr hp rfl
  constructor
  · rintro ⟨topics,bs,d,resp,ha,-,hi,hresp⟩
    rw [answer_at ha,hx] at hi
    cases hi
    refine ⟨hentry.mp hresp,?_⟩
    by_contra hbad
    rw [(answerFetch_guarded req.toFetchRequest st.handler.store st.disk).2 hbad] at ha
    cases ha
  · rintro ⟨hle,hall⟩
    obtain ⟨topics,bs,d,ha,hw⟩ := fetchWork_answers hall header
    have hi := answer_at ha i
    rw [hx] at hi
    exact ⟨topics,bs,d,_,ha,hw,hi,hentry.mpr hle⟩

end Entry

/-- The first partitions of topics from their starts. -/
def fetchFrom (maxBytes partitionMaxBytes : Int32) (topics : List Bytes) : WireFetchRequest :=
  ⟨⟨maxBytes,topics.map fun t => ⟨t,[⟨0,0,partitionMaxBytes⟩]⟩⟩,-1,500,1,0⟩

/-- One stored batch and limits of a hundred bytes. -/
theorem fetch_succeeds_small_limit : ∃ st topics bs d resp,
    answerFetch (fetchFrom 100 100 [ascii "t"]).toFetchRequest st.handler.store st.disk =
        some (topics,bs,d) ∧
      fetchWork produceHeader (fetchFrom 100 100 [ascii "t"]) st =
        some (some (writeFetchResponse 7 0 topics),st.withStore bs d) ∧
      (topics.flatMap FetchTopicResponse.partitions)[0]? = some resp ∧
      resp.errorCode = ErrCodeNone ∧
      resp.batchSize.toInt = min (min 100 100) (resp.highWatermark.toInt-0-4) := by
  obtain ⟨ps,d,r,h,-,hr⟩ := exists_follows [] ⟨0⟩ [oneRecord] (by decide +kernel)
  have hh := h.holds
  rw [hr] at hh
  have hlog : frames [oneRecord] = []++(frame oneRecord++[]) := rfl
  have hx : (passesOf (fetchFrom 100 100 [ascii "t"])
      (idle.withStore (BrokerStore.put ⟨[],⟨0⟩,∅⟩ (ascii "t") 0 ps) d))[0]? =
      some ⟨ascii "t",⟨0,0,100⟩,100,BrokerStore.put ⟨[],⟨0⟩,∅⟩ (ascii "t") 0 ps,d⟩ := rfl
  refine ⟨_,(fetch_succeeds_iff produceHeader hx
    (getOrCreatePartition_of_lookup (put_lookup ⟨[],⟨0⟩,∅⟩ (ascii "t") 0 ps)) hh hlog
    (by decide +kernel) rfl (show 0 < (100 : Int32).toInt by decide)
    (show 0 < (100 : Int32).toInt by decide)).mpr
      ⟨show min (100 : Int32).toInt (100 : Int32).toInt ≤ 2^31-5 by decide,?_⟩⟩
  intro y hy hreads
  rw [List.mem_singleton.mp hy]
  show validUTF8 (ascii "t") = true
  decide +kernel

/-- One batch in every topic. -/
def storeEach : List Bytes → BrokerStore → Disk → BrokerStore × Disk
  | [],bs,d => (bs,d)
  | topic::topics,bs,d =>
      match bs.getOrCreatePartition topic 0 d with
      | (.error _,bs,d) => storeEach topics bs d
      | (.ok ps,bs,d) =>
          match ps.append oneRecord d with
          | (_,ps,d) => storeEach topics (bs.put topic 0 ps) d

/-- A broker that was started over the files of another one that had stored a
batch in every topic. -/
def startedOver (topics : List Bytes) : State :=
  match storeEach topics idle.handler.store idle.disk with
  | (bs,d) => {idle with disk := (bs.close d).2}

/-- A stored batch is fetched from its start. With the largest limits the answer
is an error and no bytes; behind an entry for a topic that is not UTF-8 there is
no answer at all. -/
theorem in_range_fetches_fail :
    ((answerFetch (fetchFrom 2147483647 2147483647 [ascii "t"]).toFetchRequest
        (startedOver [ascii "t"]).handler.store (startedOver [ascii "t"]).disk).map fun x =>
          x.1.flatMap FetchTopicResponse.partitions) =
        some [{partition := 0, errorCode := ErrCodeOffsetOutOfRange, highWatermark := 65}] ∧
      ((answerFetch (fetchFrom 1000 100 [ascii "t"]).toFetchRequest
        (startedOver [[255],ascii "t"]).handler.store (startedOver [[255],ascii "t"]).disk).map
          fun x => (x.1.flatMap FetchTopicResponse.partitions).map
            FetchPartitionResponse.batchSize) = some [61] ∧
      fetchWork produceHeader (fetchFrom 1000 100 [[255],ascii "t"])
        (startedOver [[255],ascii "t"]) = none := by
  refine ⟨by decide +kernel,by decide +kernel,Option.isNone_iff_eq_none.mp (by decide +kernel)⟩

end Kage.FetchLimits
