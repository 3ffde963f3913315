import Kage.ProduceHandler

/-!
# The entries of a fetch request

A served batch is counted under the name of its topic, and the metrics library
panics on a name that is not UTF-8. `countedFetch` is an entry with that count,
and the loops of the handler are chained over it: what `handleFetch` builds is
sent unless an entry ends the process.

The entries are handled one after the other, whichever topics they belong to,
and each finds the stores, the disk and the budget as the entries before it left
them. Whether a batch is served is a property of that state, so it can be told
before the entry is handled which requests are answered.
-/
namespace Kage.FetchEntries
open ByteStrings FaultyDisk PartitionLog BrokerStores FetchHandler ProduceHandler

/-- One requested partition, and the count of its batch. -/
def countedFetch (topicName : Bytes) (part : FetchPartitionData) (remaining : Int32)
    (bs : BrokerStore) (d : Disk) : Option (FetchPartitionResponse × Int32 × BrokerStore × Disk) :=
  match fetchPartition topicName part remaining bs d with
  | (resp,remaining,bs,d) =>
      if resp.recordBatch.isSome && !validUTF8 topicName then none
      else some (resp,remaining,bs,d)

def countedPartitions (topicName : Bytes) : List FetchPartitionData → Int32 → BrokerStore →
    Disk → Option (List FetchPartitionResponse × Int32 × BrokerStore × Disk)
  | [],remaining,bs,d => some ([],remaining,bs,d)
  | part::parts,remaining,bs,d => do
      let (resp,remaining,bs,d) ← countedFetch topicName part remaining bs d
      let (resps,remaining,bs,d) ← countedPartitions topicName parts remaining bs d
      return (resp::resps,remaining,bs,d)

def countedTopics : List FetchTopicData → Int32 → BrokerStore → Disk →
    Option (List FetchTopicResponse × Int32 × BrokerStore × Disk)
  | [],remaining,bs,d => some ([],remaining,bs,d)
  | topic::topics,remaining,bs,d => do
      let (parts,remaining,bs,d) ←
        countedPartitions topic.topicName topic.partitions remaining bs d
      let (resps,remaining,bs,d) ← countedTopics topics remaining bs d
      return (⟨topic.topicName,parts⟩::resps,remaining,bs,d)

/-- The topics of the response, if the process gets so far. -/
def answerFetch (req : FetchRequest) (bs : BrokerStore) (d : Disk) :
    Option (List FetchTopicResponse × BrokerStore × Disk) := do
  let (topics,_,bs,d) ← countedTopics req.topics req.maxBytes bs d
  return (topics,bs,d)

/-! ## The state before an entry -/

/-- An entry with what it finds. -/
structure Pass where
  topicName : Bytes
  part : FetchPartitionData
  remaining : Int32
  store : BrokerStore
  disk : Disk

namespace Pass

def cap (x : Pass) : Int32 :=
  if x.remaining < x.part.partitionMaxBytes then x.remaining else x.part.partitionMaxBytes

/-- The answer, and what is left for the next entry. -/
def handled (x : Pass) : FetchPartitionResponse × Int32 × BrokerStore × Disk :=
  fetchPartition x.topicName x.part x.remaining x.store x.disk

/-- The partition can be opened, the offset is in front of its end, both budgets
leave room, and the store can be read there for the length of a record header at
least. -/
def Reads (x : Pass) : Prop :=
  ∃ ps bs d, x.store.getOrCreatePartition x.topicName x.part.partition x.disk = (.ok ps,bs,d) ∧
    x.part.fetchOffset < ps.Size ∧ 0 < x.cap ∧
    ∃ raw, ps.fetch x.part.fetchOffset.toUInt64 (x.cap+4) d = .ok raw ∧ recHdr ≤ raw.length

/-- A batch is read only for a topic that can be a label. -/
def Labelled (x : Pass) : Prop := x.Reads → validUTF8 x.topicName = true

end Pass

/-- The entries of a request, one after the other. -/
def fetchEntries (topics : List FetchTopicData) : List (Bytes × FetchPartitionData) :=
  topics.flatMap fun t => t.partitions.map (t.topicName,·)

theorem fetchEntries_cons (topic : FetchTopicData) (topics : List FetchTopicData) :
    fetchEntries (topic::topics) =
      topic.partitions.map (topic.topicName,·)++fetchEntries topics := List.flatMap_cons

/-- What every entry finds. -/
def passes : List (Bytes × FetchPartitionData) → Int32 → BrokerStore → Disk → List Pass
  | [],_,_,_ => []
  | (topicName,part)::es,remaining,bs,d =>
      ⟨topicName,part,remaining,bs,d⟩::
        match fetchPartition topicName part remaining bs d with
        | (_,remaining,bs,d) => passes es remaining bs d

theorem passes_cons (topicName : Bytes) (part : FetchPartitionData)
    (es : List (Bytes × FetchPartitionData)) {remaining left : Int32} {bs bs' : BrokerStore}
    {d d' : Disk} {resp : FetchPartitionResponse}
    (h : fetchPartition topicName part remaining bs d = (resp,left,bs',d')) :
    passes ((topicName,part)::es) remaining bs d =
      ⟨topicName,part,remaining,bs,d⟩::passes es left bs' d' := by
  rw [passes,h]

/-- The entries behind a topic find what its loop left. -/
theorem passes_append (topicName : Bytes) (parts : List FetchPartitionData)
    (es : List (Bytes × FetchPartitionData)) {remaining left : Int32} {bs bs' : BrokerStore}
    {d d' : Disk} {resps : List FetchPartitionResponse}
    (h : fetchPartitions topicName parts remaining bs d = (resps,left,bs',d')) :
    passes (parts.map (topicName,·)++es) remaining bs d =
      passes (parts.map (topicName,·)) remaining bs d++passes es left bs' d' := by
  induction parts generalizing remaining bs d resps with
  | nil =>
      cases h
      rfl
  | cons part parts ih =>
      rcases hp : fetchPartition topicName part remaining bs d with ⟨resp,r₁,bs₁,d₁⟩
      rcases hq : fetchPartitions topicName parts r₁ bs₁ d₁ with ⟨rs,r₂,bs₂,d₂⟩
      simp only [fetchPartitions,hp,hq] at h
      cases h
      rw [List.map_cons,List.cons_append,passes_cons _ _ _ hp,passes_cons _ _ _ hp,ih hq,
        List.cons_append]

theorem fetchPartitions_handled (topicName : Bytes) (parts : List FetchPartitionData)
    (remaining : Int32) (bs : BrokerStore) (d : Disk) :
    (fetchPartitions topicName parts remaining bs d).1 =
      (passes (parts.map (topicName,·)) remaining bs d).map fun x => x.handled.1 := by
  induction parts generalizing remaining bs d with
  | nil => rfl
  | cons part parts ih =>
      rcases hp : fetchPartition topicName part remaining bs d with ⟨resp,r₁,bs₁,d₁⟩
      simp only [List.map_cons,passes_cons _ _ _ hp,fetchPartitions,Pass.handled,hp,ih]

/-- The entries of a response are the answers to the entries of the request. -/
theorem fetchTopics_handled (topics : List FetchTopicData) (remaining : Int32)
    (bs : BrokerStore) (d : Disk) :
    (fetchTopics topics remaining bs d).1.flatMap FetchTopicResponse.partitions =
      (passes (fetchEntries topics) remaining bs d).map fun x => x.handled.1 := by
  induction topics generalizing remaining bs d with
  | nil => rfl
  | cons topic topics ih =>
      rcases hp : fetchPartitions topic.topicName topic.partitions remaining bs d with
        ⟨resps,r₁,bs₁,d₁⟩
      have hr := fetchPartitions_handled topic.topicName topic.partitions remaining bs d
      rw [hp] at hr
      rw [fetchEntries_cons,passes_append _ _ _ hp,List.map_append,← hr]
      simp only [fetchTopics,hp,List.flatMap_cons,ih]

/-! ## Served batches -/

/-- A batch is served exactly if the entry finds one to read. -/
theorem handled_isSome_iff (x : Pass) : x.handled.1.recordBatch.isSome ↔ x.Reads := by
  obtain ⟨topicName,part,remaining,bs,d⟩ := x
  simp only [Pass.handled,Pass.Reads,Pass.cap,fetchPartition]
  rcases hg : bs.getOrCreatePartition topicName part.partition d with ⟨e|ps,bs₁,d₁⟩
  · simp
  · generalize (if remaining < part.partitionMaxBytes then remaining
      else part.partitionMaxBytes) = cap
    have hone (P : PartitionStore → BrokerStore → Disk → Prop) :
        (∃ qs bs' d', ((.ok ps : Except Err PartitionStore),bs₁,d₁) = (.ok qs,bs',d') ∧
          P qs bs' d') ↔ P ps bs₁ d₁ := by
      constructor
      · rintro ⟨qs,bs',d',hq,hP⟩
        cases hq
        exact hP
      · exact fun hP => ⟨ps,bs₁,d₁,rfl,hP⟩
    rw [hone]
    simp only
    by_cases h₁ : part.fetchOffset = ps.Size
    · simp [h₁,Int64.lt_irrefl]
    by_cases h₂ : part.fetchOffset > ps.Size
    · simp [h₁,h₂,Int64.lt_asymm h₂]
    by_cases h₃ : cap ≤ 0
    · simp [h₁,h₂,h₃,Int32.not_lt.mpr h₃]
    have hlt : part.fetchOffset < ps.Size := by
      rw [gt_iff_lt,Int64.lt_iff_toInt_lt] at h₂
      rw [← Int64.toInt_inj] at h₁
      rw [Int64.lt_iff_toInt_lt]
      omega
    rw [if_neg h₁,if_neg h₂,if_neg h₃,and_iff_right hlt,and_iff_right (Int32.not_le.mp h₃)]
    rw [PartitionStore.fetch]
    rcases ps.read part.fetchOffset.toUInt64 (cap+4) d₁ with ⟨e|⟨r,n⟩,qs,d₂⟩
    · simp
    · simp only
      rcases r.readFull n.toInt.toNat d₂ with ⟨e|raw,r',d₃⟩
      · simp
      · by_cases h₄ : raw.length < recHdr <;> simp [h₄]
        omega

/-! ## The count -/

/-- There is a value, and this one, exactly under a condition. -/
def Guarded {α : Type} (p : Prop) (v : α) (o : Option α) : Prop :=
  (p → o = some v) ∧ (¬p → o = none)

theorem Guarded.bind {α β : Type} {p q : Prop} {v : α} {w : β} {o : Option α}
    {f : α → Option β} (h : Guarded p v o) (k : Guarded q w (f v)) :
    Guarded (p ∧ q) w (o >>= f) := by
  by_cases hp : p
  · rw [h.1 hp]
    exact ⟨fun hpq => k.1 hpq.2,fun hn => k.2 fun hq => hn ⟨hp,hq⟩⟩
  · rw [h.2 hp]
    exact ⟨fun hpq => absurd hpq.1 hp,fun _ => rfl⟩

theorem Guarded.map {α β : Type} {p : Prop} {v : α} {o : Option α} (h : Guarded p v o)
    (f : α → β) : Guarded p (f v) (o >>= fun x => some (f x)) :=
  and_true p ▸ h.bind (q := True) ⟨fun _ => rfl,fun hn => absurd trivial hn⟩

theorem countedFetch_guarded (topicName : Bytes) (part : FetchPartitionData)
    (remaining : Int32) (bs : BrokerStore) (d : Disk) :
    Guarded (⟨topicName,part,remaining,bs,d⟩ : Pass).Labelled
      (fetchPartition topicName part remaining bs d)
      (countedFetch topicName part remaining bs d) := by
  have hs := handled_isSome_iff ⟨topicName,part,remaining,bs,d⟩
  rw [Pass.Labelled,← hs,Pass.handled,countedFetch]
  rcases fetchPartition topicName part remaining bs d with ⟨resp,left,bs',d'⟩
  simp only [Guarded]
  cases resp.recordBatch.isSome <;> cases validUTF8 topicName <;> simp

theorem countedPartitions_guarded (topicName : Bytes) (parts : List FetchPartitionData)
    (remaining : Int32) (bs : BrokerStore) (d : Disk) :
    Guarded (∀ x ∈ passes (parts.map (topicName,·)) remaining bs d, x.Labelled)
      (fetchPartitions topicName parts remaining bs d)
      (countedPartitions topicName parts remaining bs d) := by
  induction parts generalizing remaining bs d with
  | nil => exact ⟨fun _ => rfl,fun hn => absurd (fun x hx => absurd hx List.not_mem_nil) hn⟩
  | cons part parts ih =>
      rcases hp : fetchPartition topicName part remaining bs d with ⟨resp,r₁,bs₁,d₁⟩
      have hc := countedFetch_guarded topicName part remaining bs d
      rw [hp] at hc
      simp only [List.map_cons,passes_cons _ _ _ hp,List.forall_mem_cons,countedPartitions,
        fetchPartitions,hp]
      exact hc.bind ((ih r₁ bs₁ d₁).map fun x => (resp::x.1,x.2))

/-- The loops with the count build what the handler builds, if every batch that
is read belongs to a topic in UTF-8, and nothing otherwise. -/
theorem countedTopics_guarded (topics : List FetchTopicData) (remaining : Int32)
    (bs : BrokerStore) (d : Disk) :
    Guarded (∀ x ∈ passes (fetchEntries topics) remaining bs d, x.Labelled)
      (fetchTopics topics remaining bs d) (countedTopics topics remaining bs d) := by
  induction topics generalizing remaining bs d with
  | nil => exact ⟨fun _ => rfl,fun hn => absurd (fun x hx => absurd hx List.not_mem_nil) hn⟩
  | cons topic topics ih =>
      rcases hp : fetchPartitions topic.topicName topic.partitions remaining bs d with
        ⟨parts,r₁,bs₁,d₁⟩
      have hc := countedPartitions_guarded topic.topicName topic.partitions remaining bs d
      rw [hp] at hc
      simp only [fetchEntries_cons,passes_append _ _ _ hp,List.forall_mem_append,countedTopics,
        fetchTopics,hp]
      exact hc.bind ((ih r₁ bs₁ d₁).map fun x => (⟨topic.topicName,parts⟩::x.1,x.2))

theorem answerFetch_guarded (req : FetchRequest) (bs : BrokerStore) (d : Disk) :
    Guarded (∀ x ∈ passes (fetchEntries req.topics) req.maxBytes bs d, x.Labelled)
      (handleFetch req bs d) (answerFetch req bs d) :=
  (countedTopics_guarded req.topics req.maxBytes bs d).map fun x => (x.1,x.2.2)

/-- What is sent is what `handleFetch` builds. -/
theorem handleFetch_of_answerFetch {req : FetchRequest} {bs : BrokerStore} {d : Disk}
    {out : List FetchTopicResponse × BrokerStore × Disk} (h : answerFetch req bs d = some out) :
    handleFetch req bs d = out := by
  by_cases hl : ∀ x ∈ passes (fetchEntries req.topics) req.maxBytes bs d, x.Labelled
  · rw [(answerFetch_guarded req bs d).1 hl] at h
    exact Option.some.inj h
  · rw [(answerFetch_guarded req bs d).2 hl] at h
    cases h

end Kage.FetchEntries
