import Kage.FetchFrames
import Kage.FetchLimits
import Mathlib.Data.List.Forall2

/-!
# A consumer that walks the log

The consumer asks for one partition, decodes the answer, takes its first batch
and moves on to the offset behind the last record of that batch, until an answer
has no batch. Offsets are byte positions of records, so the base offset that
the broker writes into the batch has to send the consumer to the record behind
it. It does for every offset delta, because both sides compute modulo `2^64`.

The rest of an answer is not used here. Later passes of the rewriting loop
change it, but never the first batch.

Every batch on the way is counted under the name of the topic. If the name is
not UTF-8, the first one ends the process, and the consumer gets no further than
the start of the log.
-/
namespace Kage.ConsumerWalk
open ByteStrings LengthPrefixed FaultyDisk StreamParsers PartitionLog RollingLog BrokerStores
open RecordBatches FetchHandler FetchServing FetchBudgets FetchFrames OffsetRecords OffsetStorage
open RequestParsers ProduceHandler ResponseEncoders FetchEntries RequestHandlers FetchLimits

/-- What the consumer subscribes to, and its budgets. -/
structure Consumer where
  topic : WireString
  partition : Int32
  partitionMaxBytes : Int32
  maxBytes : Int32

def Consumer.request (c : Consumer) (cursor : Int64) : WireFetchRequest :=
  ⟨⟨c.maxBytes,[⟨c.topic.1,[⟨c.partition,cursor,c.partitionMaxBytes⟩]⟩]⟩,-1,500,1,0⟩

/-- What the consumer reads, behind its length, of the answer for the one
partition that it asked for. There is no answer if the process ends. -/
def Consumer.poll (c : Consumer) (header : RequestHeader) (cursor : Int64) (st : State) :
    Option (Option DecodedPartition × State) :=
  match fetchWork header (c.request cursor) st with
  | none => none
  | some (writes,st) =>
      match decodeFetchResponse ((writes.getD []).flatten.drop 4) with
      | .ok resp _ => some ((resp.topics.flatMap Prod.snd).head?,st)
      | .error _ => some (none,st)
      | .panic => some (none,st)

/-- The first batch of an answer, cut by its own length field. -/
def firstBatch (p : Bytes) : Bytes := p.take (12+uintAt 4 p rbLength)

def nextOffset (batch : Bytes) : Int64 :=
  (UInt64.ofNat (uintAt 8 batch rbBaseOffset)).toInt64+
    (UInt32.ofNat (uintAt 4 batch rbLastOffsetDelta)).toInt32.toInt64+1

structure Visit where
  cursor : Int64
  batch : Bytes

/-- At most so many fetches; the visits, the last cursor and the answer that
had no batch. -/
def walk (c : Consumer) (header : RequestHeader) : ℕ → Int64 → State →
    Option (List Visit × Int64 × Option DecodedPartition)
  | 0,cursor,_ => some ([],cursor,none)
  | n+1,cursor,st =>
      match c.poll header cursor st with
      | none => none
      | some (none,_) => some ([],cursor,none)
      | some (some resp,st) =>
          match resp.recordBatch with
          | none => some ([],cursor,some resp)
          | some p =>
              match walk c header n (nextOffset (firstBatch p)) st with
              | none => none
              | some (visits,last) => some (⟨cursor,firstBatch p⟩::visits,last)

/-- The consumer reads what the handler put into the entry. -/
theorem poll_eq (c : Consumer) (header : RequestHeader) (cursor : Int64) (st : State) :
    c.poll header cursor st =
      match countedFetch c.topic.1 ⟨c.partition,cursor,c.partitionMaxBytes⟩ c.maxBytes
        st.handler.store st.disk with
      | none => none
      | some (resp,_,bs,d) => some (some (carriedPartition resp),st.withStore bs d) := by
  rcases hc : countedFetch c.topic.1 ⟨c.partition,cursor,c.partitionMaxBytes⟩ c.maxBytes
    st.handler.store st.disk with _|⟨resp,left,bs,d⟩
  · have ha : answerFetch (c.request cursor).toFetchRequest st.handler.store st.disk = none := by
      simp [answerFetch,countedTopics,countedPartitions,Consumer.request,hc]
    simp only [Consumer.poll,fetchWork,ha]
  · have ha : answerFetch (c.request cursor).toFetchRequest st.handler.store st.disk =
        some ([⟨c.topic.1,[resp]⟩],bs,d) := by
      simp [answerFetch,countedTopics,countedPartitions,Consumer.request,hc]
    have hh := handleFetch_of_answerFetch ha
    have hs := handleFetch_sized (c.request cursor).toFetchRequest st.handler.store st.disk
    have hw := handleFetch_whole (c.request cursor).toFetchRequest st.handler.store st.disk
    rw [hh] at hs hw
    have hr := returns_decodeFetchResponse hw (by simpa using Nat.lt_succ_iff.mp c.topic.2)
      (show 1 < 2^31 by decide) (by simp)
      header.correlationID 0 []
    rw [List.append_nil] at hr
    have hdrop : (writeFetchResponse header.correlationID 0 [⟨c.topic.1,[resp]⟩]).flatten.drop 4 =
        fetchBody header.correlationID 0 [⟨c.topic.1,[resp]⟩] := by
      rw [writeFetchResponse_body hs,fullMessage,frame,List.drop_left' (putUint_length 4 _)]
    simp only [Consumer.poll,fetchWork,ha,Option.getD_some,hdrop,hr]
    rfl

section Step
variable {b rest : Bytes}

/-- The base offset sends the consumer behind the record. -/
theorem targetBase_next (cur : UInt64) (n : ℕ) (delta : Int32) :
    (targetBase cur n delta).toInt64+delta.toInt64+1 = (cur+4+UInt64.ofNat n).toInt64 := by
  rw [targetBase,UInt64.toInt64_sub,UInt64.toInt64_sub,
    Int64.toInt64_toUInt64 delta.toInt64]
  generalize (cur+4+UInt64.ofNat n).toInt64 = x
  generalize delta.toInt64 = y
  have h1 : (1 : UInt64).toInt64 = 1 := rfl
  rw [h1]
  grind

/-- What stands in a base offset after it was written. -/
theorem uintAt_overwrite (b : Bytes) (base : UInt64) :
    uintAt 8 (overwrite b 0 (putUint 8 base.toNat)) rbBaseOffset = base.toNat := by
  rw [overwrite_zero,rbBaseOffset,uintAt_putUint base.toNat_lt]

/-- The first batch of a rewritten window that holds all of it. -/
theorem firstBatch_patch (hb : Complete b) (rest : Bytes) (cur : UInt64) :
    SameButBase b (firstBatch (patch cur (b++rest))) ∧
      nextOffset (firstBatch (patch cur (b++rest))) =
        (cur+4+UInt64.ofNat b.length).toInt64 := by
  have hl := hb.header
  have hlen : (b++rest).length = (b++rest).length-1+1 := by
    simp only [List.length_append,rbMinBytes] at hl ⊢
    omega
  have hfield := uintAt_append_left rest (show rbLength+4 ≤ b.length from le_trans (by decide) hl)
  have hdelta := uintAt_append_left rest
    (show rbLastOffsetDelta+4 ≤ b.length from le_trans (by decide) hl)
  have hhead := patchLoop_head ((b++rest).length-1) cur
    (by rw [hfield]; exact hb.length.symm)
    (by rw [List.length_append]; exact le_trans (by decide) (Nat.le_add_right_of_le hl))
  rw [patch,hlen,hhead,hdelta]
  generalize hbase : targetBase cur b.length
    (UInt32.ofNat (uintAt 4 b rbLastOffsetDelta)).toInt32 = base
  generalize patchLoop _ _ 0 rest = tail
  obtain ⟨hql,hqd⟩ := overwrite_sameButBase base.toNat (q := b) (le_trans (by decide) hl)
  have hq : firstBatch (overwrite b 0 (putUint 8 base.toNat)++tail) =
      overwrite b 0 (putUint 8 base.toNat) := by
    rw [firstBatch,uintAt_append_left _ (by rw [hql]; exact le_trans (by decide) hl),
      uintAt_of_drop hqd (by decide)]
    exact List.take_left' (hql.trans hb.length)
  rw [hq]
  refine ⟨⟨hql,hqd⟩,?_⟩
  rw [nextOffset,uintAt_overwrite,uintAt_of_drop hqd (by decide),UInt64.ofNat_toNat,← hbase,
    targetBase_next]

end Step

section Walk
variable {c : Consumer} {st : State} {ps : PartitionStore}
variable {r : Rolling UInt8} {before b rest : Bytes}

/-- The answer at the end of the log. -/
def caughtUp (partition : Int32) (log : Bytes) : DecodedPartition :=
  ⟨partition,ErrCodeNone,Int64.ofNat log.length,Int64.ofNat log.length,0,-1,none⟩

/-- The positions of the records behind `start` bytes. -/
def starts (start : ℕ) (payloads : List Bytes) : List Int64 :=
  (List.range payloads.length).map fun i => Int64.ofNat (start+(frames (payloads.take i)).length)

theorem starts_cons (start : ℕ) (p : Bytes) (payloads : List Bytes) :
    starts start (p::payloads) = Int64.ofNat start::starts (start+(frame p).length) payloads := by
  simp [starts,List.range_succ_eq_map,Function.comp_def,Nat.add_assoc]

/-- A store that was put back is found. -/
theorem lookup_withStore (st : State) (topic : Bytes) (partition : Int32) (ps : PartitionStore)
    (d : Disk) : (st.withStore (st.handler.store.put topic partition ps)
      d).handler.store.stores.lookup (partitionKey topic partition) = some ps :=
  put_lookup _ topic partition ps

theorem poll_end (header : RequestHeader)
    (hlk : st.handler.store.stores.lookup (partitionKey c.topic.1 c.partition) = some ps)
    (h : Follows ps st.disk r) :
    c.poll header (Int64.ofNat r.active.length) st =
      some (some (caughtUp c.partition r.active),st) := by
  rw [poll_eq,countedFetch,fetchPartition,getOrCreatePartition_of_lookup hlk]
  simp only [h.size,if_true,caughtUp]
  rfl

/-- One fetch at the start of a record that fits the budgets. -/
theorem poll_record (header : RequestHeader)
    (hlk : st.handler.store.stores.lookup (partitionKey c.topic.1 c.partition) = some ps)
    (h : Follows ps st.disk r) (hlog : r.active = before++(frame b++rest))
    (hl : r.active.length < 2^63) (hb : Complete b)
    (hp : b.length ≤ c.partitionMaxBytes.toInt ∧ c.partitionMaxBytes.toInt ≤ 2^31-5)
    (hm : b.length ≤ c.maxBytes.toInt ∧ c.maxBytes.toInt ≤ 2^31-5) :
    ∃ resp p qs e, c.poll header (Int64.ofNat before.length) st =
        (if validUTF8 c.topic.1 then some (some resp,
          st.withStore (st.handler.store.put c.topic.1 c.partition qs) e) else none) ∧
      resp.recordBatch = some p ∧ SameButBase b (firstBatch p) ∧
      nextOffset (firstBatch p) = Int64.ofNat (before.length+(frame b).length) ∧
      Follows qs e r := by
  have hlen := hb.header
  rw [rbMinBytes] at hlen
  have hp0 : 0 < c.partitionMaxBytes.toInt := by omega
  obtain ⟨qs,e,hf,hq⟩ := fetchPartition_served
    ⟨c.partition,Int64.ofNat before.length,c.partitionMaxBytes⟩ hlk h hlog hl rfl
    ⟨by omega,hm.2⟩ ⟨hp0,hp.2⟩ rfl
  have hcap : b.length ≤ (min c.maxBytes.toInt c.partitionMaxBytes.toInt).toNat := by omega
  rw [List.take_append,List.take_of_length_le hcap] at hf
  obtain ⟨hsame,hnext⟩ := firstBatch_patch hb
    (rest.take ((min c.maxBytes.toInt c.partitionMaxBytes.toInt).toNat-b.length))
    (UInt64.ofNat before.length)
  obtain ⟨resp,hresp,hf⟩ : ∃ resp : FetchPartitionResponse, resp.recordBatch = some _ ∧
      fetchPartition c.topic.1 _ c.maxBytes st.handler.store st.disk = (resp,_,_,e) :=
    ⟨_,rfl,hf⟩
  refine ⟨carriedPartition resp,_,qs,e,?_,hresp,hsame,?_,hq⟩
  · rw [poll_eq,countedFetch,hf]
    simp only [hresp,Option.isSome_some,Bool.true_and]
    cases validUTF8 c.topic.1 <;> rfl
  · rw [hnext,frame_length,← Nat.add_assoc,← UInt64.toInt64_ofNat',UInt64.ofNat_add,
      UInt64.ofNat_add]
    rfl

/-- From any record on, the walk takes the records one by one. -/
theorem walk_from (header : RequestHeader)
    (hlk : st.handler.store.stores.lookup (partitionKey c.topic.1 c.partition) = some ps)
    (h : Follows ps st.disk r) (before : Bytes) {batches : List Bytes}
    (hlog : r.active = before++frames batches) (hl : r.active.length < 2^63)
    (hc : ∀ b ∈ batches, Complete b)
    (hp : ∀ b ∈ batches, (b.length : ℤ) ≤ c.partitionMaxBytes.toInt)
    (hm : ∀ b ∈ batches, (b.length : ℤ) ≤ c.maxBytes.toInt)
    (hmax : c.partitionMaxBytes.toInt ≤ 2^31-5 ∧ c.maxBytes.toInt ≤ 2^31-5)
    (hu : validUTF8 c.topic.1 = true ∨ batches = []) {n : ℕ} (hn : batches.length < n) :
    ∃ visits, walk c header n (Int64.ofNat before.length) st =
        some (visits,Int64.ofNat r.active.length,some (caughtUp c.partition r.active)) ∧
      visits.map Visit.cursor = starts before.length batches ∧
      List.Forall₂ (fun b v => SameButBase b v.batch) batches visits := by
  induction batches generalizing before st ps n with
  | nil =>
      obtain ⟨n,rfl⟩ := Nat.exists_eq_succ_of_ne_zero (Nat.ne_of_gt hn)
      have he : before.length = r.active.length := by simp [hlog]
      refine ⟨[],?_,rfl,.nil⟩
      rw [he,walk,poll_end header hlk h]
      rfl
  | cons b batches ih =>
      obtain ⟨n,rfl⟩ := Nat.exists_eq_succ_of_ne_zero (Nat.ne_of_gt (Nat.zero_lt_of_lt hn))
      have hu := hu.resolve_right (List.cons_ne_nil b batches)
      rw [List.forall_mem_cons] at hc hp hm
      rw [frames_cons] at hlog
      obtain ⟨resp,p,qs,e,hpoll,hbatch,hsame,hnext,hq⟩ :=
        poll_record header hlk h hlog hl hc.1 ⟨hp.1,hmax.1⟩ ⟨hm.1,hmax.2⟩
      rw [if_pos hu] at hpoll
      have hlog' : r.active = (before++frame b)++frames batches := by
        rw [hlog,List.append_assoc]
      have hlk' := lookup_withStore st c.topic.1 c.partition qs e
      obtain ⟨visits,hw,hcur,hall⟩ := ih hlk' hq _ hlog' hc.2 hp.2 hm.2 (.inl hu)
        (Nat.lt_of_succ_lt_succ hn)
      rw [List.length_append] at hw hcur
      refine ⟨⟨Int64.ofNat before.length,firstBatch p⟩::visits,?_,?_,.cons hsame hall⟩
      · rw [walk,hpoll]
        simp only [hbatch,hnext,hw]
      · rw [List.map_cons,hcur,starts_cons]

/-- A consumer whose budgets admit every batch visits the records of the active
segment in order, each once, is sent their batches unchanged but for the base
offset, and ends at the high watermark, exactly if the name of the topic is UTF-8
or there is no record. -/
theorem walk_visits_every_batch_iff (header : RequestHeader) {batches : List Bytes}
    (hlk : st.handler.store.stores.lookup (partitionKey c.topic.1 c.partition) = some ps)
    (h : Follows ps st.disk r) (hlog : r.active = frames batches) (hl : r.active.length < 2^63)
    (hc : ∀ b ∈ batches, Complete b)
    (hv : ∀ b ∈ batches, ∃ count, validateRecordBatch b = some (.ok count))
    (hp : ∀ b ∈ batches, (b.length : ℤ) ≤ c.partitionMaxBytes.toInt)
    (hm : ∀ b ∈ batches, (b.length : ℤ) ≤ c.maxBytes.toInt)
    (hmax : c.partitionMaxBytes.toInt ≤ 2^31-5 ∧ c.maxBytes.toInt ≤ 2^31-5)
    {n : ℕ} (hn : batches.length < n) :
    (∃ visits resp, walk c header n 0 st = some (visits,resp.highWatermark,some resp) ∧
      visits.map Visit.cursor = starts 0 batches ∧
      List.Forall₂ (fun b v => SameButBase b v.batch ∧ ∃ count,
        validateRecordBatch b = some (.ok count) ∧
        validateRecordBatch v.batch = some (.ok count)) batches visits ∧
      resp.highWatermark = ps.Size ∧ resp.errorCode = ErrCodeNone ∧ resp.batchSize = -1 ∧
      resp.recordBatch = none) ↔ validUTF8 c.topic.1 = true ∨ batches = [] := by
  constructor
  · rintro ⟨visits,resp,hw,-⟩
    by_contra hboth
    obtain ⟨hu,hne⟩ := not_or.mp hboth
    obtain ⟨b,batches,rfl⟩ := List.exists_cons_of_ne_nil hne
    obtain ⟨n,rfl⟩ := Nat.exists_eq_succ_of_ne_zero (Nat.ne_of_gt (Nat.zero_lt_of_lt hn))
    rw [List.forall_mem_cons] at hc hp hm
    rw [frames_cons] at hlog
    obtain ⟨_,_,_,_,hpoll,_⟩ := poll_record header hlk h
      (show r.active = []++(frame b++frames batches) from hlog) hl hc.1 ⟨hp.1,hmax.1⟩
      ⟨hm.1,hmax.2⟩
    rw [if_neg hu] at hpoll
    rw [walk,show (0 : Int64) = Int64.ofNat ([] : Bytes).length from rfl,hpoll] at hw
    cases hw
  · intro hu
    obtain ⟨visits,hw,hcur,hall⟩ := walk_from header hlk h [] hlog hl hc hp hm hmax hu hn
    refine ⟨visits,caughtUp c.partition r.active,hw,hcur,?_,h.size.symm,rfl,rfl,rfl⟩
    refine ((List.forall₂_and_left batches visits).mpr ⟨hv,hall⟩).imp fun b v hbv => ?_
    obtain ⟨⟨count,hcount⟩,hs⟩ := hbv
    exact ⟨hs,count,hcount,by rw [validate_sameButBase hs,hcount]⟩

/-- Two batches, of which the second has a negative offset delta. -/
theorem walk_visits_two_batches : ∃ st visits resp,
    walk ⟨aTopic,0,61,100⟩ produceHeader 3 0 st = some (visits,resp.highWatermark,some resp) ∧
      visits.map Visit.cursor = [0,65] ∧ resp.highWatermark = 130 := by
  obtain ⟨ps,d,r,h,-,hr⟩ := exists_follows [] ⟨0⟩
    [oneRecord,batchOf ([0,0,255,255,255,255]++(List.replicate 33 0++[1]))] (by decide +kernel)
  obtain ⟨visits,resp,hw,hcur,-,hsize,-⟩ := (walk_visits_every_batch_iff (c := ⟨aTopic,0,61,100⟩)
    (n := 3) produceHeader (lookup_withStore idle aTopic.1 0 ps d) h hr
    (by rw [hr]; decide +kernel) (by decide +kernel)
    (by
      intro b hb
      exact ⟨1,by revert b; decide +kernel⟩)
    (by decide +kernel) (by decide +kernel) (by decide) (by decide)).mpr
      (.inl (by decide +kernel))
  refine ⟨_,visits,resp,hw,by rw [hcur]; decide +kernel,?_⟩
  rw [hsize,h.size,hr]
  decide +kernel

end Walk

/-- A topic whose name is the byte 255. -/
def rawTopic : WireString := ⟨[255],by decide⟩

/-- The log holds one batch and both limits admit it; the first fetch ends the
process. -/
theorem raw_topic_not_walked :
    (((startedOver [[255]]).handler.store.getOrCreatePartition [255] 0
        (startedOver [[255]]).disk).1.toOption.map PartitionStore.Size) = some 65 ∧
      walk ⟨rawTopic,0,100,100⟩ produceHeader 2 0 (startedOver [[255]]) = none :=
  ⟨by decide +kernel,Option.isNone_iff_eq_none.mp (by decide +kernel)⟩

end Kage.ConsumerWalk
