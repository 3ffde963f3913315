import Kage.BrokerPrograms

/-!
# A connection served alone

The programs of the handlers, run without interference, compute what the
sequential handlers compute and leave the stores and the disk as those leave
them. Only the count of opened segments is new. The statement is carried from
the single calls to the loop over the requests of a connection.
-/
namespace Kage.ServedAlone
open ByteStrings FaultyDisk StreamParsers PartitionLog BrokerStores FetchHandler RecordBatches
open OffsetRecords OffsetHandlers RequestParsers ProduceHandler FetchEntries ResponseEncoders
open RequestHandlers AtomicPrograms BrokerPrograms

/-- A run returns this value and leaves this handler and disk. -/
structure Gives {α : Type} (out : α × Shared) (a : α) (h : Handler) (d : Disk) : Prop where
  value : out.1 = a
  handler : out.2.handler = h
  disk : out.2.disk = d

theorem Gives.eq {α : Type} {out : α × Shared} {a : α} {h : Handler} {d : Disk}
    (k : Gives out a h d) : ∃ opened, out = (a,⟨h,d,opened⟩) := by
  obtain ⟨v,⟨h',d',opened⟩⟩ := out
  obtain ⟨rfl,rfl,rfl⟩ := k
  exact ⟨opened,rfl⟩

section Stores
variable {topic : Bytes} {partition : Int32} {b : Shared}

theorem run_getOrCreatePartition (topic : Bytes) (partition : Int32) (b : Shared) :
    (getOrCreatePartitionProgram topic partition).run respond b =
      match b.handler.store.getOrCreatePartition topic partition b.disk with
      | (.error e,bs,d) => (some e,b.withStore bs d)
      | (.ok _,bs,d) => (none,b.withStore bs d) := by
  unfold getOrCreatePartitionProgram callFind callCreate
  simp only [Program.perform_bind,Program.run_call,respond,Shared.store]
  cases hl : b.handler.store.stores.lookup (partitionKey topic partition) with
  | some ps => rw [getOrCreatePartition_of_lookup hl]; rfl
  | none => rfl

/-- The calls that follow find the store. -/
theorem store_of_ok {bs : BrokerStore} {d : Disk} {ps : PartitionStore}
    (h : b.handler.store.getOrCreatePartition topic partition b.disk = (.ok ps,bs,d)) :
    (b.withStore bs d).store topic partition = some ps := lookup_of_ok h

end Stores

section Produce
variable {topicName : WireString} {part : ProducePartitionData} {b : Shared}
variable {bs : BrokerStore} {d : Disk}

theorem storeBatch_alone {recordCount : Int32} {resp : Option ProducePartitionResponse}
    {calls : List AppendCall}
    (h : storeBatch topicName part recordCount b.handler.store b.disk = (resp,calls,bs,d)) :
    Gives ((storeBatchProgram topicName part recordCount).run respond b) resp
      {b.handler with store := bs} d := by
  unfold storeBatch at h
  unfold storeBatchProgram
  rw [Program.run_bind,run_getOrCreatePartition]
  rcases hg : b.handler.store.getOrCreatePartition topicName.1 part.partition b.disk with
    ⟨x,bs₁,d₁⟩
  simp only [hg] at h
  cases x with
  | error e =>
      cases h
      exact ⟨rfl,rfl,rfl⟩
  | ok ps =>
      have hs := store_of_ok hg
      simp only [callAppend,Program.perform_bind,Program.run_call,respond,hs,Shared.withStore_disk]
      rcases ha : ps.append part.recordBatch d₁ with ⟨r,qs,e⟩
      simp only [ha] at h ⊢
      by_cases hv : validUTF8 topicName.1 = false
      · rw [if_pos hv] at h ⊢
        cases h
        exact ⟨rfl,rfl,rfl⟩
      · rw [if_neg hv] at h ⊢
        cases r with
        | error x =>
            cases h
            exact ⟨rfl,rfl,rfl⟩
        | ok offset =>
            simp only at h ⊢
            split at h <;> cases h <;> simp only [*,if_true,if_false] <;> exact ⟨rfl,rfl,rfl⟩

theorem producePartition_alone {resp : Option ProducePartitionResponse} {calls : List AppendCall}
    (h : producePartition topicName part b.handler.store b.disk = (resp,calls,bs,d)) :
    Gives ((producePartitionProgram topicName part).run respond b) resp
      {b.handler with store := bs} d := by
  unfold producePartition at h
  unfold producePartitionProgram
  split at h
  · rename_i hl
    rw [if_pos hl]
    cases hv : validateRecordBatch part.recordBatch with
    | none =>
        simp only [hv] at h
        cases h
        exact ⟨rfl,rfl,rfl⟩
    | some x =>
        simp only [hv] at h
        cases x with
        | error e =>
            cases h
            exact ⟨rfl,rfl,rfl⟩
        | ok recordCount => exact storeBatch_alone h
  · rename_i hl
    rw [if_neg hl]
    exact storeBatch_alone h

/-- The sequential handlers in one form. -/
abbrev Seq (α : Type) := Handler → Disk → α × Handler × Disk

/-- A program run alone computes a sequential function. -/
def Computes {α : Type} (p : BrokerProgram α) (f : Seq α) : Prop :=
  ∀ b : Shared, Gives (p.run respond b) (f b.handler b.disk).1 (f b.handler b.disk).2.1
    (f b.handler b.disk).2.2

/-- A sequential function on lists that goes on until one entry has no answer. -/
structure Walks {α β : Type} (one : α → Seq (Option β)) (all : List α → Seq (Option (List β))) :
    Prop where
  nil : ∀ h d, all [] h d = (some [],h,d)
  cons : ∀ a as h d, all (a::as) h d =
    match one a h d with
    | (none,h,d) => (none,h,d)
    | (some b,h,d) =>
        match all as h d with
        | (bs,h,d) => (bs.map (b::·),h,d)

theorem forEach_computes {α β : Type} {f : α → BrokerProgram (Option β)}
    {one : α → Seq (Option β)} {all : List α → Seq (Option (List β))} (hw : Walks one all)
    {as : List α} (hf : ∀ a ∈ as, Computes (f a) (one a)) : Computes (forEach f as) (all as) := by
  induction as with
  | nil =>
      intro b
      rw [hw.nil]
      exact ⟨rfl,rfl,rfl⟩
  | cons a as ih =>
      rw [List.forall_mem_cons] at hf
      intro b
      obtain ⟨opened,hr⟩ := (hf.1 b).eq
      rw [hw.cons,forEach,Program.run_bind,hr]
      rcases one a b.handler b.disk with ⟨x,h₁,d₁⟩
      cases x with
      | none => exact ⟨rfl,rfl,rfl⟩
      | some y =>
          obtain ⟨opened₂,hr₂⟩ := (ih hf.2 ⟨h₁,d₁,opened⟩).eq
          simp only [Program.run_bind,hr₂]
          exact ⟨rfl,rfl,rfl⟩

theorem Computes.map {α β : Type} {p : BrokerProgram α} {f : Seq α} (h : Computes p f) (g : α → β) :
    Computes (do return g (← p)) fun h d => (g (f h d).1,(f h d).2) := by
  intro b
  obtain ⟨opened,hr⟩ := (h b).eq
  simp only [Program.run_bind,hr]
  exact ⟨rfl,rfl,rfl⟩

/-- A function of the stores, in the common form. -/
def onStore {α : Type} (f : BrokerStore → Disk → α × BrokerStore × Disk) : Seq α := fun h d =>
  ((f h.store d).1,{h with store := (f h.store d).2.1},(f h.store d).2.2)

/-- The calls that are recorded next to the answers of a produce request. -/
def withoutCalls {α : Type}
    (f : BrokerStore → Disk → Option α × List AppendCall × BrokerStore × Disk) : Seq (Option α) :=
  onStore fun bs d => ((f bs d).1,(f bs d).2.2)

theorem handleProduce_computes (req : ProduceRequest) :
    Computes (handleProduceProgram req) (withoutCalls (handleProduce req)) := by
  have hparts (topicName : WireString) :
      Walks (fun part => withoutCalls (producePartition topicName part))
        (fun parts => withoutCalls (producePartitions topicName parts)) := by
    refine ⟨fun h d => rfl,fun part parts h d => ?_⟩
    simp only [withoutCalls,onStore,producePartitions]
    rcases producePartition topicName part h.store d with ⟨_|resp,calls,bs,e⟩ <;> rfl
  have htopics : Walks
      (fun topic => fun h d => (((withoutCalls
          (producePartitions topic.topicName topic.partitions) h d).1.map (⟨topic.topicName,·⟩)),
        (withoutCalls (producePartitions topic.topicName topic.partitions) h d).2))
      (fun topics => withoutCalls (produceTopics topics)) := by
    refine ⟨fun h d => rfl,fun topic topics h d => ?_⟩
    simp only [withoutCalls,onStore,produceTopics]
    rcases producePartitions topic.topicName topic.partitions h.store d with
      ⟨_|parts,calls,bs,e⟩ <;> rfl
  refine forEach_computes htopics fun topic _ => Computes.map ?_ _
  exact forEach_computes (hparts topic.topicName) fun part _ b => producePartition_alone rfl

end Produce

section Fetch
variable {b : Shared}

/-- A program goes down where the sequential function does, and returns what it
returns otherwise. -/
def Serves {α : Type} (h : Handler) (out : Option α × Shared) :
    Option (α × BrokerStore × Disk) → Prop
  | none => out.1 = none
  | some (a,bs,d) => Gives out (some a) {h with store := bs} d

theorem Serves.down {α : Type} {h : Handler} {out : Option α × Shared}
    (k : Serves h out none) : ∃ b, out = (none,b) := ⟨out.2,Prod.ext k rfl⟩

/-- An answer together with the budget behind it. -/
def withBudget {α : Type} (x : α × Int32 × BrokerStore × Disk) :
    (α × Int32) × BrokerStore × Disk := ((x.1,x.2.1),x.2.2)

/-- Right after a read the section refers to the file that is open. -/
theorem readFull_after_read (topicName : Bytes) (partition : Int32) {ps qs : PartitionStore}
    {e : Disk} {o : UInt64} {m n : Int32} {r : SectionReader}
    (h : ps.read o m b.disk = (.ok (r,n),qs,e)) (k : ℕ) :
    respond (.readFull ⟨topicName,partition,b.opened (partitionKey topicName partition),r.pos,
        r.limit⟩ k) (b.update topicName partition qs e) =
      ((r.readFull k e).1,
        {b.update topicName partition qs e with disk := (r.readFull k e).2.2}) := by
  obtain ⟨-,hr,bw,-,hq⟩ := PartitionStore.read_ok h
  have hs : (b.update topicName partition qs e).store topicName partition = some qs :=
    put_lookup _ _ _ _
  have hf : (b.update topicName partition qs e).fileOf
      ⟨topicName,partition,b.opened (partitionKey topicName partition),r.pos,r.limit⟩ qs =
      r.file := by
    simp [Shared.fileOf,Shared.update,hq,hr]
  simp only [respond,hs,hf]
  rfl

theorem fetchPartition_alone (topicName : Bytes) (part : FetchPartitionData) (remaining : Int32)
    (b : Shared) :
    Serves b.handler ((fetchPartitionProgram topicName part remaining).run respond b)
      ((countedFetch topicName part remaining b.handler.store b.disk).map withBudget) := by
  unfold countedFetch fetchPartition fetchPartitionProgram
  rw [Program.run_bind,run_getOrCreatePartition]
  rcases hg : b.handler.store.getOrCreatePartition topicName part.partition b.disk with ⟨x,bs₁,d₁⟩
  cases x with
  | error e => exact ⟨rfl,rfl,rfl⟩
  | ok ps =>
      have hs := store_of_ok hg
      simp only [callSize,callRead,Program.perform_bind,Program.run_call,respond,hs]
      by_cases h₁ : part.fetchOffset = ps.Size
      · rw [if_pos h₁,if_pos h₁]
        exact ⟨rfl,rfl,rfl⟩
      rw [if_neg h₁,if_neg h₁]
      by_cases h₂ : part.fetchOffset > ps.Size
      · rw [if_pos h₂,if_pos h₂]
        exact ⟨rfl,rfl,rfl⟩
      rw [if_neg h₂,if_neg h₂]
      generalize (if remaining < part.partitionMaxBytes then remaining
        else part.partitionMaxBytes) = cap
      by_cases h₃ : cap ≤ 0
      · rw [if_pos h₃,if_pos h₃]
        exact ⟨rfl,rfl,rfl⟩
      rw [if_neg h₃,if_neg h₃,Program.run_call]
      simp only [respond,hs,Shared.withStore_disk,Shared.withStore_opened]
      rcases hr : ps.read part.fetchOffset.toUInt64 (cap+4) d₁ with ⟨_|⟨r,n⟩,qs,e⟩
      · exact ⟨rfl,rfl,rfl⟩
      have hf := readFull_after_read (b := b.withStore bs₁ d₁) topicName part.partition hr
        n.toInt.toNat
      simp only [callReadFull,Program.perform_bind,Program.run_call]
      rw [Shared.withStore_opened] at hf
      rw [hf]
      rcases hx : r.readFull n.toInt.toNat e with ⟨_|raw,r',e'⟩
      · exact ⟨rfl,rfl,rfl⟩
      simp only
      by_cases h₄ : raw.length < recHdr
      · rw [if_pos h₄,if_pos h₄]
        exact ⟨rfl,rfl,rfl⟩
      rw [if_neg h₄,if_neg h₄]
      simp only [Option.isSome_some,Bool.true_and]
      cases hv : validUTF8 topicName with
      | false => exact rfl
      | true => exact ⟨rfl,rfl,rfl⟩

theorem fetchPartitions_alone (topicName : Bytes) (parts : List FetchPartitionData)
    (remaining : Int32) (b : Shared) :
    Serves b.handler ((fetchPartitionsProgram topicName parts remaining).run respond b)
      ((countedPartitions topicName parts remaining b.handler.store b.disk).map withBudget) := by
  induction parts generalizing b remaining with
  | nil => exact ⟨rfl,rfl,rfl⟩
  | cons part parts ih =>
      have hp := fetchPartition_alone topicName part remaining b
      rw [fetchPartitionsProgram,Program.run_bind,countedPartitions]
      rcases hc : countedFetch topicName part remaining b.handler.store b.disk with
        _|⟨resp,r₁,bs₁,d₁⟩ <;> rw [hc] at hp
      · obtain ⟨b',hr⟩ := Serves.down hp
        rw [hr]
        exact rfl
      · obtain ⟨opened,hr⟩ := Gives.eq hp
        have hq := ih r₁ ⟨{b.handler with store := bs₁},d₁,opened⟩
        rw [hr]
        simp only [Program.run_bind,Option.bind_eq_bind,Option.bind_some] at hq ⊢
        rcases hcs : countedPartitions topicName parts r₁ bs₁ d₁ with _|⟨resps,r₂,bs₂,d₂⟩ <;>
          rw [hcs] at hq
        · obtain ⟨b',hr'⟩ := Serves.down hq
          rw [hr']
          exact rfl
        · obtain ⟨opened',hr'⟩ := Gives.eq hq
          rw [hr']
          exact ⟨rfl,rfl,rfl⟩

theorem fetchTopics_alone (topics : List FetchTopicData) (remaining : Int32) (b : Shared) :
    Serves b.handler ((fetchTopicsProgram topics remaining).run respond b)
      ((countedTopics topics remaining b.handler.store b.disk).map fun x => (x.1,x.2.2)) := by
  induction topics generalizing b remaining with
  | nil => exact ⟨rfl,rfl,rfl⟩
  | cons topic topics ih =>
      have hp := fetchPartitions_alone topic.topicName topic.partitions remaining b
      rw [fetchTopicsProgram,Program.run_bind,countedTopics]
      rcases hc : countedPartitions topic.topicName topic.partitions remaining b.handler.store
        b.disk with _|⟨parts,r₁,bs₁,d₁⟩ <;> rw [hc] at hp
      · obtain ⟨b',hr⟩ := Serves.down hp
        rw [hr]
        exact rfl
      · obtain ⟨opened,hr⟩ := Gives.eq hp
        have hq := ih r₁ ⟨{b.handler with store := bs₁},d₁,opened⟩
        rw [hr]
        simp only [Program.run_bind,Option.bind_eq_bind,Option.bind_some] at hq ⊢
        rcases hcs : countedTopics topics r₁ bs₁ d₁ with _|⟨resps,r₂,bs₂,d₂⟩ <;>
          rw [hcs] at hq
        · obtain ⟨b',hr'⟩ := Serves.down hq
          rw [hr']
          exact rfl
        · obtain ⟨opened',hr'⟩ := Gives.eq hq
          rw [hr']
          exact ⟨rfl,rfl,rfl⟩

theorem handleFetch_alone (req : FetchRequest) (b : Shared) :
    Serves b.handler ((handleFetchProgram req).run respond b)
      (answerFetch req b.handler.store b.disk) := by
  have h := fetchTopics_alone req.topics req.maxBytes b
  rw [handleFetchProgram,answerFetch]
  rcases hc : countedTopics req.topics req.maxBytes b.handler.store b.disk with
    _|⟨resps,r,bs,d⟩ <;> rw [hc] at h <;> exact h

end Fetch

/-! ## The other handlers -/

theorem listOffsetsPartition_computes (topicName : WireString)
    (part : ListOffsetsPartitionRequest) :
    Computes (listOffsetsPartitionProgram topicName part)
      (onStore fun bs d => (some (listOffsetsPartition topicName part bs d).1,
        (listOffsetsPartition topicName part bs d).2)) := by
  intro b
  unfold listOffsetsPartitionProgram
  simp only [onStore,listOffsetsPartition]
  by_cases h₁ : part.timestamp = TimestampEarliest
  · simp only [if_pos h₁]
    exact ⟨rfl,rfl,rfl⟩
  by_cases h₂ : part.timestamp = TimestampLatest
  · simp only [if_neg h₁,if_pos h₂]
    rw [Program.run_bind,run_getOrCreatePartition]
    rcases hg : b.handler.store.getOrCreatePartition topicName.1 part.partition b.disk with
      ⟨_|ps,bs,d⟩
    · exact ⟨rfl,rfl,rfl⟩
    · have hs := store_of_ok hg
      simp only [callSize,Program.perform_bind,Program.run_call,respond,hs]
      exact ⟨rfl,rfl,rfl⟩
  · simp only [if_neg h₁,if_neg h₂]
    exact ⟨rfl,rfl,rfl⟩

/-- The answers for the partitions of one topic. -/
def listOffsetsOf (topic : ListOffsetsTopicRequest) :
    Seq (Option (List ListOffsetsPartitionResponse)) := onStore fun bs d =>
  (some (listOffsetsPartitions topic.topicName topic.partitions bs d).1,
    (listOffsetsPartitions topic.topicName topic.partitions bs d).2)

theorem handleListOffsets_computes (topics : List ListOffsetsTopicRequest) :
    Computes (handleListOffsetsProgram topics)
      (onStore fun bs d => (some (handleListOffsets topics bs d).1,
        (handleListOffsets topics bs d).2)) := by
  have hparts (topicName : WireString) :
      Walks (fun part => onStore fun bs d =>
          (some (listOffsetsPartition topicName part bs d).1,
            (listOffsetsPartition topicName part bs d).2))
        (fun parts => listOffsetsOf ⟨topicName,parts⟩) :=
    ⟨fun _ _ => rfl,fun _ _ _ _ => rfl⟩
  have htopics : Walks
      (fun topic h d => ((listOffsetsOf topic h d).1.map (⟨topic.topicName,·⟩),
        (listOffsetsOf topic h d).2))
      (fun topics => onStore fun bs d => (some (handleListOffsets topics bs d).1,
        (handleListOffsets topics bs d).2)) :=
    ⟨fun _ _ => rfl,fun _ _ _ _ => rfl⟩
  refine forEach_computes htopics fun topic _ => Computes.map ?_ _
  exact forEach_computes (hparts topic.topicName) fun part _ =>
    listOffsetsPartition_computes topic.topicName part

theorem commitPartition_computes (c : Commit) :
    Computes (commitPartitionProgram c) fun h d =>
      (some (commitPartition c h d).1,(commitPartition c h d).2) := by
  intro b
  unfold commitPartitionProgram commitPartition appendCommit
  rw [Program.run_bind,run_getOrCreatePartition]
  rcases hg : b.handler.store.getOrCreatePartition ConsumerOffsetsTopic 0 b.disk with ⟨_|ps,bs,d⟩
  · simp only [hg]
    exact ⟨rfl,rfl,rfl⟩
  · have hs := store_of_ok hg
    simp only [hg,callAppend,Program.perform_bind,Program.run_call,respond,hs,
      Shared.withStore_disk]
    rcases ps.append c.record d with ⟨_|o,qs,e⟩
    · exact ⟨rfl,rfl,rfl⟩
    · exact ⟨rfl,rfl,rfl⟩

/-- The answers for the partitions of one topic. -/
def commitsOf (groupID : WireString) (topic : OffsetCommitTopic) :
    Seq (Option (List OffsetCommitPartitionResponse)) := fun h d =>
  (some (commitPartitions groupID topic.topicName topic.partitions h d).1,
    (commitPartitions groupID topic.topicName topic.partitions h d).2)

theorem handleOffsetCommit_computes (req : OffsetCommitRequest) :
    Computes (handleOffsetCommitProgram req) fun h d =>
      (some (handleOffsetCommit req h d).1,(handleOffsetCommit req h d).2) := by
  have hparts (topicName : WireString) :
      Walks (fun (part : OffsetCommitPartition) h d =>
          (some (commitPartition ⟨req.groupID,topicName,part.partition,part.committedOffset⟩
              h d).1,
            (commitPartition ⟨req.groupID,topicName,part.partition,part.committedOffset⟩ h d).2))
        (fun parts => commitsOf req.groupID ⟨topicName,parts⟩) :=
    ⟨fun _ _ => rfl,fun _ _ _ _ => rfl⟩
  have htopics : Walks
      (fun topic h d => ((commitsOf req.groupID topic h d).1.map (⟨topic.topicName,·⟩),
        (commitsOf req.groupID topic h d).2))
      (fun topics h d => (some (commitTopics req.groupID topics h d).1,
        (commitTopics req.groupID topics h d).2)) :=
    ⟨fun _ _ => rfl,fun _ _ _ _ => rfl⟩
  refine forEach_computes htopics fun topic _ => Computes.map ?_ _
  exact forEach_computes (hparts topic.topicName) fun part _ => commitPartition_computes _

theorem ensureTopics_computes (ts : List WireString) :
    Computes (ensureTopicsProgram ts) (onStore fun bs d => ((),ensureTopics ts bs d)) := by
  induction ts with
  | nil => exact fun b => ⟨rfl,rfl,rfl⟩
  | cons t ts ih =>
      intro b
      rw [ensureTopicsProgram,Program.run_bind,run_getOrCreatePartition]
      simp only [onStore,ensureTopics]
      rcases b.handler.store.getOrCreatePartition t.1 0 b.disk with ⟨_|ps,bs,d⟩
      · exact ih (b.withStore bs d)
      · exact ih (b.withStore bs d)

theorem handleMetadata_computes (topics : List WireString) :
    Computes (handleMetadataProgram topics) (onStore fun bs d =>
      (byTopic (ensureTopics topics bs d).1.topics,ensureTopics topics bs d)) := by
  intro b
  obtain ⟨opened,hr⟩ := (ensureTopics_computes topics b).eq
  rw [handleMetadataProgram,Program.run_bind,hr]
  exact ⟨rfl,rfl,rfl⟩

/-! ## The loop -/

/-- The program of a handler on a connection with this address of the broker. -/
def WorkAgrees {α : Type} (advertised : Bytes) (work : Work α) (p : WorkProgram α) : Prop :=
  ∀ req st opened, st.advertised = advertised →
    match work req st with
    | none => ((p req).run respond ⟨st.handler,st.disk,opened⟩).1 = none
    | some (out,st') => Gives ((p req).run respond ⟨st.handler,st.disk,opened⟩) (some out)
        st'.handler st'.disk ∧ st'.socket = st.socket ∧ st'.advertised = advertised

/-- What a request does, as a program and in sequence. -/
def RequestAgrees (advertised : Bytes) (f : Bytes → State → Result)
    (p : Bytes → Socket → BrokerProgram Turn) : Prop :=
  ∀ s st opened, st.advertised = advertised →
    match f s st with
    | .panic => ((p s st.socket).run respond ⟨st.handler,st.disk,opened⟩).1 = .panic
    | .stop _ st' => Gives ((p s st.socket).run respond ⟨st.handler,st.disk,opened⟩)
        (.stop st'.socket) st'.handler st'.disk
    | .next rest st' => Gives ((p s st.socket).run respond ⟨st.handler,st.disk,opened⟩)
        (.next rest st'.socket) st'.handler st'.disk ∧ st'.advertised = advertised

section Loop
variable {advertised : Bytes} {header : RequestHeader}

theorem served_agrees {α : Type} {parseText writeText : String} {parse : Parser α} {work : Work α}
    {p : WorkProgram α} (hw : WorkAgrees advertised work p) :
    RequestAgrees advertised (served parseText writeText parse work) (servedProgram parse p) := by
  intro s st opened ha
  unfold served servedProgram
  cases parse s with
  | panic => exact rfl
  | error e => exact ⟨rfl,rfl,rfl⟩
  | ok req rest =>
      have h := hw req st opened ha
      rw [Program.run_bind]
      rcases hx : work req st with _|⟨out,st'⟩
      · simp only [hx] at h ⊢
        rw [h]
        exact rfl
      · simp only [hx] at h ⊢
        obtain ⟨hg,hs,ha'⟩ := h
        obtain ⟨opened',hr⟩ := hg.eq
        rw [hr]
        cases out with
        | none => exact ⟨⟨by rw [hs]; rfl,rfl,rfl⟩,ha'⟩
        | some writes =>
            simp only
            rw [hs]
            rcases st.socket.writeAll writes with ⟨_|e,k⟩
            · exact ⟨⟨rfl,rfl,rfl⟩,ha'⟩
            · exact ⟨rfl,rfl,rfl⟩

/-- A handler whose message depends on nothing that is shared. -/
theorem message_agrees {α : Type} {m : α → State → Bytes} {m' : α → Bytes}
    (h : ∀ req st, st.advertised = advertised → m req st = m' req) :
    WorkAgrees advertised (answer m) (message m') := by
  intro req st opened ha
  rw [RequestHandlers.answer,h req st ha]
  exact ⟨⟨rfl,rfl,rfl⟩,rfl,ha⟩

theorem produce_agrees : WorkAgrees advertised (produceWork header) (produceProgram header) := by
  intro req st opened ha
  obtain ⟨opened',hr⟩ := (handleProduce_computes req ⟨st.handler,st.disk,opened⟩).eq
  unfold produceWork
  simp only [produceProgram,Program.run_bind,hr,withoutCalls,onStore]
  rcases handleProduce req st.handler.store st.disk with ⟨_|topics,calls,bs,d⟩
  · exact rfl
  · simp only
    by_cases hz : req.acks = AcksNone
    · rw [if_pos hz,if_pos hz]
      exact ⟨⟨rfl,rfl,rfl⟩,rfl,ha⟩
    · rw [if_neg hz,if_neg hz]
      exact ⟨⟨rfl,rfl,rfl⟩,rfl,ha⟩

theorem fetch_agrees : WorkAgrees advertised (fetchWork header) (fetchProgram header) := by
  intro req st opened ha
  have hf := handleFetch_alone req.toFetchRequest ⟨st.handler,st.disk,opened⟩
  unfold fetchWork
  simp only [fetchProgram,Program.run_bind]
  rcases hc : answerFetch req.toFetchRequest st.handler.store st.disk with _|⟨topics,bs,d⟩ <;>
    rw [hc] at hf
  · obtain ⟨b,hr⟩ := Serves.down hf
    rw [hr]
    exact rfl
  · obtain ⟨opened',hr⟩ := Gives.eq hf
    rw [hr]
    exact ⟨⟨rfl,rfl,rfl⟩,rfl,ha⟩

theorem listOffsets_agrees :
    WorkAgrees advertised (listOffsetsWork header) (listOffsetsProgram header) := by
  intro req st opened ha
  obtain ⟨opened',hr⟩ := (handleListOffsets_computes req.topics ⟨st.handler,st.disk,opened⟩).eq
  simp only [listOffsetsWork,listOffsetsProgram,Program.run_bind,hr,onStore]
  exact ⟨⟨rfl,rfl,rfl⟩,rfl,ha⟩

theorem metadata_agrees :
    WorkAgrees advertised (metadataWork header)
      (metadataProgram (if advertised = [] then ascii "127.0.0.1" else advertised) header) := by
  intro req st opened ha
  obtain ⟨opened',hr⟩ := (handleMetadata_computes req.topics ⟨st.handler,st.disk,opened⟩).eq
  simp only [metadataWork,metadataProgram,Program.run_bind,hr,onStore,State.advertisedHost,ha]
  exact ⟨⟨rfl,rfl,rfl⟩,rfl,ha⟩

theorem offsetCommit_agrees :
    WorkAgrees advertised (offsetCommitWork header) (offsetCommitProgram header) := by
  intro req st opened ha
  obtain ⟨opened',hr⟩ := (handleOffsetCommit_computes req.request ⟨st.handler,st.disk,opened⟩).eq
  simp only [offsetCommitWork,offsetCommitProgram,Program.run_bind,hr]
  exact ⟨⟨rfl,rfl,rfl⟩,trivial,ha⟩

theorem offsetFetch_agrees :
    WorkAgrees advertised (offsetFetchWork header) (offsetFetchProgram header) := by
  intro req st opened ha
  rw [offsetFetchWork,RequestHandlers.answer]
  exact ⟨⟨rfl,rfl,rfl⟩,rfl,ha⟩

theorem requestAgrees_ite {c : Prop} [Decidable c] {f f' : Bytes → State → Result}
    {p p' : Bytes → Socket → BrokerProgram Turn} (h : RequestAgrees advertised f p)
    (h' : RequestAgrees advertised f' p') :
    RequestAgrees advertised (if c then f else f') (if c then p else p') := by
  by_cases hc : c
  · rw [if_pos hc,if_pos hc]
    exact h
  · rw [if_neg hc,if_neg hc]
    exact h'

/-- The host that is told to clients. -/
def hostOf (advertised : Bytes) : Bytes :=
  if advertised = [] then ascii "127.0.0.1" else advertised

theorem dispatch_agrees (advertised : Bytes) (header : RequestHeader) :
    RequestAgrees advertised (dispatch header) (dispatchProgram (hostOf advertised) header) := by
  refine requestAgrees_ite (served_agrees produce_agrees) ?_
  refine requestAgrees_ite (served_agrees fetch_agrees) ?_
  refine requestAgrees_ite (served_agrees listOffsets_agrees) ?_
  refine requestAgrees_ite (served_agrees metadata_agrees) ?_
  refine requestAgrees_ite (served_agrees offsetCommit_agrees) ?_
  refine requestAgrees_ite (served_agrees offsetFetch_agrees) ?_
  refine requestAgrees_ite (served_agrees (message_agrees fun req st ha => ?_)) ?_
  · rw [State.advertisedHost,ha]
    rfl
  refine requestAgrees_ite (served_agrees (message_agrees fun _ _ _ => rfl)) ?_
  refine requestAgrees_ite (served_agrees (message_agrees fun _ _ _ => rfl)) ?_
  refine requestAgrees_ite (served_agrees (message_agrees fun _ _ _ => rfl)) ?_
  refine requestAgrees_ite (served_agrees (message_agrees fun _ _ _ => rfl)) ?_
  refine requestAgrees_ite (served_agrees (message_agrees fun _ _ _ => rfl)) ?_
  exact fun s st opened ha => ⟨rfl,rfl,rfl⟩

/-- A connection that nobody interferes with is served as in sequence. -/
theorem connectionLoop_alone (fuel : ℕ) (s : Bytes) (st : State) (opened : Bytes → ℕ) :
    match handleLoop fuel s st with
    | .panic => ((connectionLoop (hostOf st.advertised) fuel s st.socket).run respond
        ⟨st.handler,st.disk,opened⟩).1 = none
    | .closed st' => Gives ((connectionLoop (hostOf st.advertised) fuel s st.socket).run respond
        ⟨st.handler,st.disk,opened⟩) (some st'.socket) st'.handler st'.disk := by
  induction fuel generalizing s st opened with
  | zero => exact ⟨rfl,rfl,rfl⟩
  | succ fuel ih =>
      rw [handleLoop,connectionLoop]
      cases parseRequestHeader s with
      | panic => exact rfl
      | error e => exact ⟨rfl,rfl,rfl⟩
      | ok header rest =>
          have h := dispatch_agrees st.advertised header rest st opened rfl
          simp only
          rw [Program.run_bind]
          cases hd : dispatch header rest st with
          | panic =>
              rw [hd] at h
              simp only at h
              rw [h]
              exact rfl
          | stop e st' =>
              rw [hd] at h
              obtain ⟨opened',hr⟩ := h.eq
              rw [hr]
              exact ⟨rfl,rfl,rfl⟩
          | next rest' st' =>
              rw [hd] at h
              obtain ⟨hg,ha⟩ := h
              obtain ⟨opened',hr⟩ := hg.eq
              rw [hr,← ha]
              exact ih rest' st' opened'

end Loop

end Kage.ServedAlone
