import Kage.FetchServing
import Kage.PartitionReads

/-!
# The byte budgets of a fetch

A fetch request limits the bytes of every partition and of the whole response.
The handler reads four bytes more than the smaller limit, for the prefix of the
first record, and drops them again; what it sends is charged to the budget of
the request. `charge` is what one answer costs, and one pass of the loop keeps
the sum of the charges and of what is left within what was there before,
whatever the store and the disk do.

The four bytes are added in 32-bit arithmetic. A limit that they push over the
largest number asks the store for a negative size, which it refuses, so the same
budgets that bound every answer also say exactly when an offset inside the log
is served.
-/
namespace Kage.FetchBudgets
open ByteStrings LengthPrefixed FaultyDisk PartitionLog BrokerStores RecordBatches FetchHandler
open SegmentLog FetchServing

/-- The bytes that an answer takes from the budget of the request. -/
def charge (resp : FetchPartitionResponse) : ℤ := max 0 resp.batchSize.toInt

/-- An answer for this entry that sends nothing or stays in the entry's limit. -/
def Bounded (part : FetchPartitionData) (resp : FetchPartitionResponse) : Prop :=
  resp.partition = part.partition ∧ (resp.batchSize = -1 ∨
    (0 ≤ resp.batchSize.toInt ∧ resp.batchSize.toInt ≤ max 0 part.partitionMaxBytes.toInt))

/-- What one entry may do to the budget. -/
structure Within (part : FetchPartitionData) (remaining : Int32) (resp : FetchPartitionResponse)
    (left : Int32) : Prop where
  bounded : Bounded part resp
  charged : charge resp+max 0 left.toInt ≤ max 0 remaining.toInt

section Entries
variable {part : FetchPartitionData} {remaining : Int32} {resp : FetchPartitionResponse}

/-- Nothing was sent. -/
theorem Within.unserved (hp : resp.partition = part.partition) (hb : resp.batchSize = -1) :
    Within part remaining resp remaining := by
  have hm : (-1 : Int32).toInt = -1 := rfl
  refine ⟨⟨hp,.inl hb⟩,?_⟩
  rw [charge,hb]
  omega

/-- A payload within the smaller limit was sent. -/
theorem Within.served (hp : resp.partition = part.partition) {n : ℕ}
    (hb : resp.batchSize = Int32.ofNat n)
    (hn : (n : ℤ) ≤ min remaining.toInt part.partitionMaxBytes.toInt) :
    Within part remaining resp (remaining-Int32.ofNat n) := by
  have hlt := remaining.toInt_lt
  have hz := Int32.toInt_ofNat_of_lt (n := n) (by omega)
  have hsub : (remaining-Int32.ofNat n).toInt = remaining.toInt-n := by
    rw [Int32.toInt_sub,hz,Int.bmod_eq_of_le (by omega) (by omega)]
  refine ⟨⟨hp,.inr ⟨?_,?_⟩⟩,?_⟩
  · rw [hb,hz]
    omega
  · rw [hb,hz]
    omega
  · rw [charge,hb,hz,hsub]
    omega

/-- The bytes behind the prefix are no more than the limit to which the prefix
was added. -/
theorem payload_le {ps qs : PartitionStore} {d e e' : Disk} {o : UInt64} {cap k : Int32}
    {r r' : SectionReader} {raw : Bytes} (hcap : 0 < cap.toInt)
    (hread : ps.read o (cap+4) d = (.ok (r,k),qs,e))
    (hfull : r.readFull k.toInt.toNat e = (.ok raw,r',e')) :
    (((raw.drop recHdr).length : ℕ) : ℤ) ≤ cap.toInt := by
  have h4 := window_le hcap
  obtain ⟨hr,rfl,-⟩ := PartitionStore.read_ok hread
  have hk := readRange_pos hr
  obtain ⟨hlen,hpos⟩ := SectionReader.readFull_length hfull
  have hle := readRange_le hr (hpos (by omega))
  rw [List.length_drop,hlen,recHdr]
  omega

/-- What one pass of the loop answers: nothing, or a batch within the smaller limit. -/
inductive Answered (part : FetchPartitionData) (remaining : Int32) :
    FetchPartitionResponse → Int32 → Prop
  | unserved {resp : FetchPartitionResponse} : resp.partition = part.partition →
      resp.batchSize = -1 → resp.recordBatch = none → Answered part remaining resp remaining
  | served {resp : FetchPartitionResponse} (batch : Bytes) : resp.partition = part.partition →
      resp.recordBatch = some batch → resp.batchSize = Int32.ofNat batch.length →
      (batch.length : ℤ) ≤ min remaining.toInt part.partitionMaxBytes.toInt →
      Answered part remaining resp (remaining-Int32.ofNat batch.length)

theorem Answered.within {left : Int32} (h : Answered part remaining resp left) :
    Within part remaining resp left := by
  cases h with
  | unserved hp hb _ => exact .unserved hp hb
  | served batch hp _ hb hn => exact .served hp hb hn

theorem fetchPartition_answered (topic : Bytes) (part : FetchPartitionData) (remaining : Int32)
    (bs : BrokerStore) (d : Disk) :
    Answered part remaining (fetchPartition topic part remaining bs d).1
      (fetchPartition topic part remaining bs d).2.1 := by
  unfold fetchPartition
  simp only
  rcases bs.getOrCreatePartition topic part.partition d with ⟨ps,bs',d'⟩
  cases ps with
  | error e => exact .unserved rfl rfl rfl
  | ok ps =>
      simp only
      split
      · exact .unserved rfl rfl rfl
      · split
        · exact .unserved rfl rfl rfl
        · have hcap := cap_toInt remaining part.partitionMaxBytes
          generalize (if remaining < part.partitionMaxBytes then remaining
            else part.partitionMaxBytes) = cap at hcap
          split
          · exact .unserved rfl rfl rfl
          · rename_i h0
            rw [Int32.le_iff_toInt_le,not_le] at h0
            rcases hread : ps.read part.fetchOffset.toUInt64 (cap+4) d' with ⟨x,qs,e⟩
            cases x with
            | error x => exact .unserved rfl rfl rfl
            | ok rk =>
                obtain ⟨r,k⟩ := rk
                simp only
                rcases hfull : r.readFull k.toInt.toNat e with ⟨y,r',e'⟩
                cases y with
                | error y => exact .unserved rfl rfl rfl
                | ok raw =>
                    simp only
                    split
                    · exact .unserved rfl rfl rfl
                    · refine .served _ rfl rfl rfl ?_
                      rw [← hcap,patch,patchLoop_length]
                      exact payload_le h0 hread hfull

/-- One pass of the loop keeps the budget. -/
theorem fetchPartition_within (topic : Bytes) (part : FetchPartitionData) (remaining : Int32)
    (bs : BrokerStore) (d : Disk) :
    Within part remaining (fetchPartition topic part remaining bs d).1
      (fetchPartition topic part remaining bs d).2.1 :=
  (fetchPartition_answered topic part remaining bs d).within

end Entries

section Requests

/-- The loop over the partitions of a topic. -/
theorem fetchPartitions_within (topic : Bytes) (parts : List FetchPartitionData)
    {remaining left : Int32} {bs bs' : BrokerStore} {d d' : Disk}
    {resps : List FetchPartitionResponse}
    (h : fetchPartitions topic parts remaining bs d = (resps,left,bs',d')) :
    List.Forall₂ Bounded parts resps ∧
      (resps.map charge).sum+max 0 left.toInt ≤ max 0 remaining.toInt := by
  induction parts generalizing remaining bs d resps with
  | nil =>
      cases h
      exact ⟨.nil,by simp⟩
  | cons part parts ih =>
      have hw := fetchPartition_within topic part remaining bs d
      rcases hp : fetchPartition topic part remaining bs d with ⟨resp,left₁,bs₁,d₁⟩
      rcases hq : fetchPartitions topic parts left₁ bs₁ d₁ with ⟨resps₁,left₂,bs₂,d₂⟩
      rw [hp] at hw
      simp only [fetchPartitions,hp,hq] at h
      cases h
      obtain ⟨hb,hsum⟩ := ih hq
      have hc : charge resp+max 0 left₁.toInt ≤ max 0 remaining.toInt := hw.charged
      refine ⟨.cons hw.bounded hb,?_⟩
      rw [List.map_cons,List.sum_cons]
      omega

/-- A topic of the request and its answer. -/
def TopicBounded (topic : FetchTopicData) (resp : FetchTopicResponse) : Prop :=
  resp.topicName = topic.topicName ∧ List.Forall₂ Bounded topic.partitions resp.partitions

/-- The bytes that a response sends. -/
def totalCharge (resps : List FetchTopicResponse) : ℤ :=
  ((resps.flatMap FetchTopicResponse.partitions).map charge).sum

theorem fetchTopics_within (topics : List FetchTopicData) {remaining left : Int32}
    {bs bs' : BrokerStore} {d d' : Disk} {resps : List FetchTopicResponse}
    (h : fetchTopics topics remaining bs d = (resps,left,bs',d')) :
    List.Forall₂ TopicBounded topics resps ∧
      totalCharge resps+max 0 left.toInt ≤ max 0 remaining.toInt := by
  induction topics generalizing remaining bs d resps with
  | nil =>
      cases h
      exact ⟨.nil,by simp [totalCharge]⟩
  | cons topic topics ih =>
      rcases hp : fetchPartitions topic.topicName topic.partitions remaining bs d with
        ⟨parts,left₁,bs₁,d₁⟩
      rcases hq : fetchTopics topics left₁ bs₁ d₁ with ⟨resps₁,left₂,bs₂,d₂⟩
      simp only [fetchTopics,hp,hq] at h
      cases h
      obtain ⟨hparts,hc⟩ := fetchPartitions_within topic.topicName topic.partitions hp
      obtain ⟨hb,hsum⟩ := ih hq
      refine ⟨.cons ⟨rfl,hparts⟩ hb,?_⟩
      rw [totalCharge] at hsum ⊢
      simp only [List.flatMap_cons,List.map_append,List.sum_append]
      omega

/-- Every entry is answered within its own limit, and the whole response within
the limit of the request, for every request, store and schedule of failures. -/
theorem fetch_within_budgets (req : FetchRequest) (bs : BrokerStore) (d : Disk) :
    List.Forall₂ (fun topic resp => resp.topicName = topic.topicName ∧
      List.Forall₂ (fun part resp => resp.partition = part.partition ∧
        (resp.batchSize = -1 ∨ (0 ≤ resp.batchSize.toInt ∧
          resp.batchSize.toInt ≤ max 0 part.partitionMaxBytes.toInt)))
        topic.partitions resp.partitions) req.topics (handleFetch req bs d).1 ∧
      (((handleFetch req bs d).1.flatMap FetchTopicResponse.partitions).map fun resp =>
        max 0 resp.batchSize.toInt).sum ≤ max 0 req.maxBytes.toInt := by
  rcases ht : fetchTopics req.topics req.maxBytes bs d with ⟨resps,left,bs',d'⟩
  obtain ⟨hb,hsum⟩ := fetchTopics_within req.topics ht
  have hc : totalCharge resps ≤ max 0 req.maxBytes.toInt := by omega
  simp only [handleFetch,ht]
  exact ⟨hb,hc⟩

end Requests

section Overflow
variable {bs bs' : BrokerStore} {topic : Bytes} {part : FetchPartitionData} {remaining : Int32}
variable {ps : PartitionStore} {d d' : Disk} {log before b rest : Bytes}

/-- A limit that the prefix pushes over the largest number is refused. -/
theorem fetchPartition_overflow (part : FetchPartitionData)
    (hg : bs.getOrCreatePartition topic part.partition d = (.ok ps,bs',d'))
    (h : ps.active.Holds d' log) (hl : log.length < 2^63) (off : ℕ) (hoff : off < log.length)
    (ho : part.fetchOffset = Int64.ofNat off)
    (hcap : 2^31-5 < min remaining.toInt part.partitionMaxBytes.toInt) :
    (fetchPartition topic part remaining bs d).1 =
      {partition := part.partition, errorCode := ErrCodeOffsetOutOfRange,
        highWatermark := Int64.ofNat log.length} := by
  have hs := size_of_holds h
  have hcapInt := cap_toInt remaining part.partitionMaxBytes
  generalize hc : (if remaining < part.partitionMaxBytes then remaining
    else part.partitionMaxBytes) = cap at hcapInt
  have hlt := cap.toInt_lt
  have hz : (0 : Int32).toInt = 0 := rfl
  have hneg : cap+4 ≤ 0 := by
    have h4 : (4 : Int32).toInt = 4 := rfl
    rw [Int32.le_iff_toInt_le,Int32.toInt_add,h4,Int.bmod_def]
    split <;> omega
  have hread : ps.read (UInt64.ofNat off) (cap+4) d' = (.error ErrInvalidSize,ps,d') := by
    refine PartitionReads.read_of_error h (PartitionReads.readRange_nonpos hl ?_ hneg)
    rw [UInt64.toNat_ofNat_of_lt' (show off < 2^64 by omega)]
    exact hoff
  rw [← Int64.toUInt64_ofNat',← ho] at hread
  obtain ⟨hne,hgt⟩ := offset_inside hoff hl
  rw [← ho] at hne hgt
  have hcap0 : ¬cap ≤ 0 := by
    rw [Int32.le_iff_toInt_le]
    omega
  simp only [fetchPartition,hg,hs,if_neg hne,if_neg hgt,hc,if_neg hcap0,hread]

/-- A fetch at the start of a record succeeds, with as many bytes as the limits
and the log allow, exactly when the smaller limit leaves room for the prefix. -/
theorem fetchPartition_succeeds_iff (part : FetchPartitionData)
    (hg : bs.getOrCreatePartition topic part.partition d = (.ok ps,bs',d'))
    (h : ps.active.Holds d' log) (hlog : log = before++(frame b++rest))
    (hl : log.length < 2^63) (ho : part.fetchOffset = Int64.ofNat before.length)
    (hr : 0 < remaining.toInt) (hp : 0 < part.partitionMaxBytes.toInt)
    {resp : FetchPartitionResponse} (hresp : (fetchPartition topic part remaining bs d).1 = resp) :
    (resp.errorCode = ErrCodeNone ∧ resp.batchSize.toInt =
        min (min part.partitionMaxBytes.toInt remaining.toInt)
          (resp.highWatermark.toInt-part.fetchOffset.toInt-4)) ↔
      min part.partitionMaxBytes.toInt remaining.toInt ≤ 2^31-5 := by
  have hlen : log.length = before.length+(4+b.length+rest.length) := by
    rw [hlog,List.length_append,List.length_append,frame_length]
  rw [min_comm part.partitionMaxBytes.toInt]
  rcases le_or_gt (min remaining.toInt part.partitionMaxBytes.toInt) (2^31-5) with hle|hgt
  · have hf := fetchPartition_holds part remaining hg h hlog hl ho (by omega) hle rfl
    have hplen : (patch (UInt64.ofNat before.length) ((b++rest).take
        (min remaining.toInt part.partitionMaxBytes.toInt).toNat)).length =
        min (min remaining.toInt part.partitionMaxBytes.toInt).toNat (b.length+rest.length) := by
      rw [patch,patchLoop_length,List.length_take,List.length_append]
    rw [hf] at hresp
    subst hresp
    refine iff_of_true ⟨rfl,?_⟩ hle
    rw [Int32.toInt_ofNat_of_lt (by omega),hplen,ho,Int64.toInt_ofNat_of_lt hl,
      Int64.toInt_ofNat_of_lt (by omega)]
    omega
  · rw [fetchPartition_overflow part hg h hl before.length (by omega) ho hgt] at hresp
    subst hresp
    refine iff_of_false ?_ (not_le.mpr hgt)
    rintro ⟨herr,-⟩
    exact absurd herr (show ErrCodeOffsetOutOfRange ≠ ErrCodeNone by decide)

end Overflow

end Kage.FetchBudgets
