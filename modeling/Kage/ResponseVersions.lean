import Kage.RequestHandlers

/-!
# Response layouts and versions

The broker advertises a range of versions for every request. `produceResponseAt`
and `fetchResponseAt` are the layouts that the message comments give for each
version of the two responses that grew fields: the throttle time and the
timestamps of a produce response, and the last stable offset and the aborted
transactions of a fetch response.

The encoders take no version. What they write is the layout of the latest
version, and since a missing field makes a message shorter, the lengths tell for
which earlier versions it is also theirs.
-/
namespace Kage.ResponseVersions
open ByteStrings LengthPrefixed FetchHandler ProduceHandler ResponseEncoders RequestParsers
open FetchEntries RequestHandlers

/-- A version that a client may choose after asking for the supported ones. -/
def Advertised (key version : Int16) : Prop :=
  ∃ v ∈ supportedAPIVersions, v.key = key ∧ v.minVersion ≤ version ∧ version ≤ v.maxVersion

/-! ## Layouts -/

def producePartitionAt (version : Int16) (p : ProducePartitionResponse) : Bytes :=
  writeInt32 p.partition++(writeInt16 p.errorCode++(writeInt64 p.baseOffset++
    since version 2 (writeInt64 (-1))))

def produceTopicAt (version : Int16) (t : ProduceTopicResponse) : Bytes :=
  writeString t.topicName.1++writeArray (producePartitionAt version) t.partitions

def produceResponseAt (version : Int16) (correlationID : Int32)
    (topics : List ProduceTopicResponse) : Bytes :=
  writeInt32 correlationID++(writeArray (produceTopicAt version) topics++
    since version 1 (writeInt32 0))

/-- The batch of a partition, which is absent when there are no records. -/
def batchBytes (p : FetchPartitionResponse) : Bytes :=
  match p.recordBatch with
  | none => []
  | some batch => if p.batchSize > 0 then batch else []

def fetchPartitionAt (version : Int16) (p : FetchPartitionResponse) : Bytes :=
  writeInt32 p.partition++(writeInt16 p.errorCode++(writeInt64 p.highWatermark++
    (since version 4 (writeInt64 p.highWatermark)++(since version 4 (writeInt32 0)++
      (writeInt32 p.batchSize++batchBytes p)))))

def fetchTopicAt (version : Int16) (t : FetchTopicResponse) : Bytes :=
  writeString t.topicName++writeArray (fetchPartitionAt version) t.partitions

def fetchResponseAt (version : Int16) (correlationID throttleTimeMs : Int32)
    (topics : List FetchTopicResponse) : Bytes :=
  writeInt32 correlationID++(writeInt32 throttleTimeMs++writeArray (fetchTopicAt version) topics)

/-- What is written for a fetch, behind the size of the frame. -/
def fetchBody (correlationID throttleTimeMs : Int32) (topics : List FetchTopicResponse) : Bytes :=
  (writeFetchResponse correlationID throttleTimeMs topics).tail.flatten

/-! ## Arrays -/

section Arrays
variable {α β : Type} {as : List α}

theorem writeArray_congr {w w' : α → Bytes} (h : ∀ a ∈ as, w a = w' a) :
    writeArray w as = writeArray w' as := by
  rw [writeArray,writeArray,List.flatMap_congr h]

/-- Elements that are longer by a known amount. -/
theorem writeArray_length_add {w w' : α → Bytes} {k : α → ℕ}
    (h : ∀ a ∈ as, (w a).length = (w' a).length+k a) :
    (writeArray w as).length = (writeArray w' as).length+(as.map k).sum := by
  rw [writeArray,writeArray,List.length_append,List.length_append,Nat.add_assoc]
  congr 1
  induction as with
  | nil => rfl
  | cons a as ih =>
      rw [List.forall_mem_cons] at h
      rw [List.flatMap_cons,List.flatMap_cons,List.length_append,List.length_append,h.1,ih h.2,
        List.map_cons,List.sum_cons]
      omega

/-- A name and an array of parts: what the topics of both responses are. -/
def named (name : α → Bytes) (parts : α → List β) (w : β → Bytes) (a : α) : Bytes :=
  name a++writeArray w (parts a)

variable {name : α → Bytes} {parts : α → List β} {w w' : β → Bytes}

theorem writeArray_named_congr (h : ∀ a ∈ as, ∀ p ∈ parts a, w p = w' p) :
    writeArray (named name parts w) as = writeArray (named name parts w') as := by
  refine writeArray_congr fun a ha => ?_
  rw [named,named,writeArray_congr (h a ha)]

theorem writeArray_named_length {k : ℕ} (h : ∀ p, (w p).length = (w' p).length+k) :
    (writeArray (named name parts w) as).length =
      (writeArray (named name parts w') as).length+
        (as.map fun a => (parts a).length*k).sum := by
  refine writeArray_length_add fun a _ => ?_
  rw [named,named,List.length_append,List.length_append,writeArray_length_add fun p _ => h p,
    List.map_const',List.sum_replicate_nat,Nat.add_assoc]

/-- Lists that add up to nothing are empty. -/
theorem eq_nil_of_sum {k : ℕ} (hk : 0 < k)
    (h : (as.map fun a => (parts a).length*k).sum = 0) : ∀ a ∈ as, parts a = [] := by
  intro a ha
  have hz := List.sum_eq_zero_iff_forall_eq_nat.mp h _ (List.mem_map_of_mem ha)
  rcases Nat.mul_eq_zero.mp hz with h0|h0
  · exact List.length_eq_zero_iff.mp h0
  · omega

end Arrays

theorem since_of_le {version added : Int16} (h : added ≤ version) (field : Bytes) :
    since version added field = field := if_pos h

/-- How much is missing where a field is not there yet. -/
theorem since_length (version added : Int16) (field : Bytes) :
    field.length = (since version added field).length+
      if added ≤ version then 0 else field.length := by
  unfold since
  split <;> simp_all

/-! ## Produce -/

theorem encodeProduceResponse_eq (correlationID : Int32) (topics : List ProduceTopicResponse) :
    encodeProduceResponse correlationID topics = produceResponseAt 2 correlationID topics := rfl

theorem produceResponseAt_length (version : Int16) (correlationID : Int32)
    (topics : List ProduceTopicResponse) :
    (encodeProduceResponse correlationID topics).length =
      (produceResponseAt version correlationID topics).length+
        ((topics.map fun t => t.partitions.length*(if 2 ≤ version then 0 else 8)).sum+
          if 1 ≤ version then 0 else 4) := by
  have hpart : ∀ p : ProducePartitionResponse, (producePartitionAt 2 p).length =
      (producePartitionAt version p).length+(if 2 ≤ version then 0 else 8) := by
    intro p
    have hs := since_length version 2 (writeInt64 (-1))
    have h2 := since_of_le (Int16.le_refl 2) (writeInt64 (-1))
    rw [writeInt64_length] at hs
    simp only [producePartitionAt,List.length_append,h2,writeInt64_length]
    omega
  have harray : (writeArray (produceTopicAt 2) topics).length =
      (writeArray (produceTopicAt version) topics).length+
        (topics.map fun t => t.partitions.length*(if 2 ≤ version then 0 else 8)).sum :=
    writeArray_named_length hpart
  have hs := since_length version 1 (writeInt32 0)
  have h1 := since_of_le (show (1 : Int16) ≤ 2 by decide) (writeInt32 0)
  rw [writeInt32_length] at hs
  rw [encodeProduceResponse_eq,produceResponseAt,produceResponseAt]
  simp only [List.length_append,h1,writeInt32_length]
  omega

/-- A produce response has the layout of a version when that is the second or a
later one, or the first one and there is no partition to be stamped. -/
theorem encodeProduceResponse_eq_iff (version : Int16) (correlationID : Int32)
    (topics : List ProduceTopicResponse) :
    encodeProduceResponse correlationID topics = produceResponseAt version correlationID topics ↔
      1 ≤ version ∧ (2 ≤ version ∨ ∀ t ∈ topics, t.partitions = []) := by
  constructor
  · intro h
    have hl := produceResponseAt_length version correlationID topics
    rw [h] at hl
    have h1 : 1 ≤ version := by
      by_contra hv
      rw [if_neg hv] at hl
      omega
    refine ⟨h1,or_iff_not_imp_left.mpr fun hv => ?_⟩
    simp only [if_neg hv,if_pos h1] at hl
    exact eq_nil_of_sum (show 0 < 8 by decide) (by omega)
  · rintro ⟨h1,h⟩
    have htopics : writeArray (produceTopicAt 2) topics =
        writeArray (produceTopicAt version) topics := by
      refine writeArray_named_congr fun t ht p hp => ?_
      rcases h with hv|hv
      · rw [producePartitionAt,producePartitionAt,since_of_le hv,since_of_le (Int16.le_refl 2)]
      · rw [hv t ht] at hp
        exact absurd hp List.not_mem_nil
    rw [encodeProduceResponse_eq,produceResponseAt,produceResponseAt,htopics,since_of_le h1,
      since_of_le (show (1 : Int16) ≤ 2 by decide)]

/-! ## Fetch -/

theorem flatten_partitionWrites (p : FetchPartitionResponse) :
    (partitionWrites p).flatten = fetchPartitionAt 4 p := by
  have h4 := fun field => since_of_le (Int16.le_refl 4) field
  rw [partitionWrites,fetchPartitionAt,h4,h4,batchBytes]
  cases p.recordBatch with
  | none => simp
  | some batch =>
      simp only
      split <;> simp

theorem flatten_topicWrites (t : FetchTopicResponse) :
    (topicWrites t).flatten = fetchTopicAt 4 t := by
  rw [topicWrites_flatten,fetchTopicAt,writeArray_congr fun p _ => flatten_partitionWrites p]

theorem fetchBody_eq (correlationID throttleTimeMs : Int32) (topics : List FetchTopicResponse) :
    fetchBody correlationID throttleTimeMs topics =
      fetchResponseAt 4 correlationID throttleTimeMs topics := by
  rw [fetchBody,writeFetchResponse,List.tail_cons,List.flatten_cons,flatten_flatMap,
    fetchResponseAt,writeArray,List.flatMap_congr fun t _ => flatten_topicWrites t]
  simp only [List.append_assoc]

theorem fetchResponseAt_length (version : Int16) (correlationID throttleTimeMs : Int32)
    (topics : List FetchTopicResponse) :
    (fetchBody correlationID throttleTimeMs topics).length =
      (fetchResponseAt version correlationID throttleTimeMs topics).length+
        (topics.map fun t => t.partitions.length*(if 4 ≤ version then 0 else 12)).sum := by
  have hpart : ∀ p : FetchPartitionResponse, (fetchPartitionAt 4 p).length =
      (fetchPartitionAt version p).length+(if 4 ≤ version then 0 else 12) := by
    intro p
    have hs := since_length version 4 (writeInt64 p.highWatermark)
    have ht := since_length version 4 (writeInt32 0)
    have h4 := fun field => since_of_le (Int16.le_refl 4) field
    simp only [fetchPartitionAt,List.length_append,h4,writeInt64_length,
      writeInt32_length] at hs ht ⊢
    by_cases hv : 4 ≤ version
    · simp only [if_pos hv] at hs ht ⊢
      omega
    · simp only [if_neg hv] at hs ht ⊢
      omega
  have harray : (writeArray (fetchTopicAt 4) topics).length =
      (writeArray (fetchTopicAt version) topics).length+
        (topics.map fun t => t.partitions.length*(if 4 ≤ version then 0 else 12)).sum :=
    writeArray_named_length hpart
  rw [fetchBody_eq,fetchResponseAt,fetchResponseAt]
  simp only [List.length_append]
  omega

/-- A fetch response has the layout of a version when that is the fourth or a
later one, or there is no partition in it. -/
theorem fetchBody_eq_iff (version : Int16) (correlationID throttleTimeMs : Int32)
    (topics : List FetchTopicResponse) :
    fetchBody correlationID throttleTimeMs topics =
        fetchResponseAt version correlationID throttleTimeMs topics ↔
      4 ≤ version ∨ ∀ t ∈ topics, t.partitions = [] := by
  constructor
  · intro h
    have hl := fetchResponseAt_length version correlationID throttleTimeMs topics
    rw [h] at hl
    refine or_iff_not_imp_left.mpr fun hv => ?_
    simp only [if_neg hv] at hl
    exact eq_nil_of_sum (show 0 < 12 by decide) (by omega)
  · intro h
    rw [fetchBody_eq,fetchResponseAt,fetchResponseAt]
    have htopics : writeArray (fetchTopicAt 4) topics =
        writeArray (fetchTopicAt version) topics := by
      refine writeArray_named_congr fun t ht p hp => ?_
      rcases h with hv|hv
      · have h4 := fun field => since_of_le (Int16.le_refl 4) field
        rw [fetchPartitionAt,fetchPartitionAt,since_of_le hv,since_of_le hv,h4,h4]
      · rw [hv t ht] at hp
        exact absurd hp List.not_mem_nil
    rw [htopics]

/-! ## Requests of a version -/

/-- What is written for a produce request does not depend on its version. -/
theorem produceWork_written {header : RequestHeader} {req : ProduceRequest} {st st' : State}
    {writes : List Bytes} (h : produceWork header req st = some (some writes,st')) :
    ∃ topics, (handleProduce req st.handler.store st.disk).1 = some topics ∧
      writes = [fullMessage (encodeProduceResponse header.correlationID topics)] := by
  obtain ⟨topics,calls,bs,d,hp,-,hout⟩ := produceWork_eq_some h
  rw [hp]
  split at hout
  · cases hout
  · cases hout
    exact ⟨topics,rfl,rfl⟩

/-- Nor does what is written for a fetch request. -/
theorem fetchWork_written {header : RequestHeader} {req : WireFetchRequest} {st st' : State}
    {writes : List Bytes} (h : fetchWork header req st = some (some writes,st')) :
    writes.tail.flatten = fetchBody header.correlationID 0
      (handleFetch req.toFetchRequest st.handler.store st.disk).1 := by
  obtain ⟨topics,bs,d,ha,-,hout⟩ := fetchWork_eq_some h
  cases hout
  rw [handleFetch_of_answerFetch ha]
  rfl

/-- The answers to requests of a version have its layout exactly as far as the
fields that are newer than the version are not written. -/
theorem responses_match_iff (version : Int16) (correlationID throttleTimeMs : Int32)
    (produced : List ProduceTopicResponse) (fetched : List FetchTopicResponse) :
    (encodeProduceResponse correlationID produced =
        produceResponseAt version correlationID produced ↔
      1 ≤ version ∧ (2 ≤ version ∨ ∀ t ∈ produced, t.partitions = [])) ∧
    ((writeFetchResponse correlationID throttleTimeMs fetched).tail.flatten =
        fetchResponseAt version correlationID throttleTimeMs fetched ↔
      4 ≤ version ∨ ∀ t ∈ fetched, t.partitions = []) :=
  ⟨encodeProduceResponse_eq_iff version correlationID produced,
    fetchBody_eq_iff version correlationID throttleTimeMs fetched⟩

instance (key version : Int16) : Decidable (Advertised key version) :=
  inferInstanceAs (Decidable (∃ v ∈ supportedAPIVersions, _))

/-- Version zero is advertised for both requests. The shortest produce response
is four bytes too long for it, and a fetch response twelve for each partition. -/
theorem version_zero_mismatch : Advertised ApiKeyProduce 0 ∧ Advertised ApiKeyFetch 0 ∧
    (encodeProduceResponse 7 []).length = 12 ∧ (produceResponseAt 0 7 []).length = 8 ∧
      (writeFetchResponse 7 0 [⟨ascii "t",[⟨0,0,0,-1,none⟩]⟩]).tail.flatten.length = 49 ∧
        (fetchResponseAt 0 7 0 [⟨ascii "t",[⟨0,0,0,-1,none⟩]⟩]).length = 37 := by
  decide +kernel

end Kage.ResponseVersions
