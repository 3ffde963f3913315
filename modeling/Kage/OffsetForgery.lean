import Kage.ProduceHandler
import Kage.DirectoryFrames

/-!
# Offsets and produced records

The partition of the committed offsets is an ordinary partition: a produce
request may name it, and the handler does not refuse that. What it appends there
is read back with the offsets. A batch that passes the validator can also be the
record of an offset, so a client can put any offset for a key of its choice into
the cache of the next handler.

The property holds as long as no produced batch reaches the directory of the
offsets by another name, and none that goes to the partition itself decodes as
the record of an offset. Then the cache is the table of the last acknowledged
commits, and it does not depend on what else was produced. Loading looks at
`2^31-1` bytes of the log, and the log has to fit in those.
-/
namespace Kage.OffsetForgery
open ByteStrings LengthPrefixed FaultyDisk SegmentLog PartitionLog RollingLog PartitionRuns
open BrokerStores LastWrite OffsetRecords OffsetHandlers OffsetStorage DirectoryFrames
open RequestParsers ProduceHandler RecordBatches

inductive Op where
  | produce (req : ProduceRequest)
  | commit (req : OffsetCommitRequest)

/-- The commits that were answered without an error. -/
def answered (cs : List Commit) (codes : List Int16) : List Commit :=
  (cs.zip codes).filterMap fun p => if p.2 = 0 then some p.1 else none

def codes (resps : List OffsetCommitTopicResponse) : List Int16 :=
  resps.flatMap fun t => t.partitions.map OffsetCommitPartitionResponse.errorCode

/-- One request, with the commits it acknowledges. No result stands for the end
of the process. -/
def perform (h : Handler) (d : Disk) : Op → Option (List Commit × Handler × Disk)
  | .produce req =>
      match handleProduce req h.store d with
      | (none,_,_,_) => none
      | (some _,_,bs,d) => some ([],{h with store := bs},d)
  | .commit req =>
      match handleOffsetCommit req h d with
      | (resps,h,d) => some (answered (commits req) (codes resps),h,d)

/-- Requests handled one after another. -/
def run : List Op → Handler → Disk → Option (List Commit × Handler × Disk)
  | [],h,d => some ([],h,d)
  | op::ops,h,d =>
      match perform h d op with
      | none => none
      | some (cs,h,d) =>
          match run ops h d with
          | none => none
          | some (later,h,d) => some (cs++later,h,d)

/-- What the requests of a run ask to commit. -/
def asked : List Op → List Commit
  | [] => []
  | .produce _::ops => asked ops
  | .commit req::ops => commits req++asked ops

/-- An entry of a produce request that the validator refuses, that goes to
another directory, or that no one takes for the record of an offset. -/
def Harmless (root : List Bytes) (topicName : WireString) (part : ProducePartitionData) : Prop :=
  Checked part.recordBatch →
    joinPath root (partitionKey topicName.1 part.partition) ≠ offsetsDir root ∨
      partitionKey topicName.1 part.partition = offsetsName ∧
        recordWrite part.recordBatch = none

def HarmlessOp (root : List Bytes) : Op → Prop
  | .produce req => ∀ topic ∈ req.topics, ∀ part ∈ topic.partitions,
      Harmless root topic.topicName part
  | .commit _ => True

/-- The partition of the offsets has not left its first segment. -/
def OneSegment (bs : BrokerStore) : Prop :=
  ∀ ps, bs.stores.lookup offsetsName = some ps → ps.active.baseOffset = 0

/-- Loading reads the whole log of the offsets. -/
def InWindow (bs : BrokerStore) : Prop :=
  ∀ ps, bs.stores.lookup offsetsName = some ps → ps.active.size ≤ hydrationWindow

/-- A new handler on the same store loads this table. -/
def Hydrates (bs : BrokerStore) (d : Disk) (table : OffsetCache) : Prop :=
  ∃ h e, loadOffsetsCache (newHandler bs) d = (none,h,e) ∧ h.offsetCache = table

/-! ## The log of the offsets among other partitions -/

/-- The partition of the offsets is the rolling log, opened or not. -/
structure Hosts (root : List Bytes) (cfg : SegmentConfig) (bs : BrokerStore) (d : Disk)
    (r : Rolling UInt8) : Prop where
  rootDir : bs.rootDir = root
  config : bs.cfg = cfg
  placed : Placed bs
  healthy : d.Healthy
  log : (bs.stores.lookup offsetsName = none ∧ Vacant (offsetsDir root) d ∧
      r = Rolling.openAt (fun _ => none) 0) ∨
    ∃ ps, bs.stores.lookup offsetsName = some ps ∧ Follows ps d r ∧ ps.cfg = cfg

section Hosting
variable {root : List Bytes} {cfg : SegmentConfig} {bs bs' : BrokerStore} {d e : Disk}
variable {r : Rolling UInt8}

theorem vacant_of_files {dir other : List Bytes} (hv : Vacant dir d)
    (h : FilesWithin other d e) (hne : dir ≠ other) : Vacant dir e := by
  intro p hp hdir
  have hl := h.lookup p (by rw [hdir]; exact hne)
  rw [← Finmap.lookup_isSome,hl,Finmap.lookup_isSome] at hp
  exact hv p hp hdir

theorem hosts_start (hf : Fresh root d) (cfg : SegmentConfig) :
    Hosts root cfg ⟨root,cfg,∅⟩ d (Rolling.openAt (fun _ => none) 0) :=
  ⟨rfl,rfl,fun _ _ hk => (by cases hk),hf.healthy,.inl ⟨rfl,hf.vacant,rfl⟩⟩

theorem Hosts.dir (h : Hosts root cfg bs d r) {ps : PartitionStore}
    (hl : bs.stores.lookup offsetsName = some ps) : ps.dir = offsetsDir root := by
  rw [(h.placed _ _ hl).1,h.rootDir,joinPath_offsetsName]

/-- What happens in other directories and to other stores does not matter. -/
theorem Hosts.elsewhere (h : Hosts root cfg bs d r) {dir : List Bytes}
    (hroot : bs'.rootDir = bs.rootDir) (hcfg : bs'.cfg = bs.cfg) (hp : Placed bs')
    (hl : bs'.stores.lookup offsetsName = bs.stores.lookup offsetsName)
    (hf : FilesWithin dir d e) (hne : offsetsDir root ≠ dir) : Hosts root cfg bs' e r := by
  refine ⟨hroot.trans h.rootDir,hcfg.trans h.config,hp,hf.healthy h.healthy,?_⟩
  rcases h.log with ⟨hn,hv,hr⟩|⟨ps,hs,hfol,hc⟩
  · exact .inl ⟨hl.trans hn,vacant_of_files hv hf hne,hr⟩
  · exact .inr ⟨ps,hl.trans hs,hf.follows hfol (by rw [h.dir hs]; exact hne),hc⟩

/-- The partition can be had, and it is the log. -/
theorem Hosts.getOrCreate (h : Hosts root cfg bs d r) :
    ∃ ps bs' e, bs.getOrCreatePartition ConsumerOffsetsTopic 0 d = (.ok ps,bs',e) ∧
      Hosts root cfg bs' e r ∧ bs'.stores.lookup offsetsName = some ps ∧ Follows ps e r ∧
      ps.cfg = cfg := by
  rcases h.log with ⟨hn,hv,rfl⟩|⟨ps,hs,hfol,hc⟩
  · obtain ⟨e₁,hm,he₁,hfiles⟩ : ∃ e₁, d.mkdirAll (offsetsDir root) = (none,e₁) ∧ e₁.Healthy ∧
        e₁.files = d.files := by
      rw [Disk.mkdirAll,Disk.next_healthy h.healthy]
      exact ⟨_,rfl,h.healthy,rfl⟩
    have hv₁ : Vacant (offsetsDir root) e₁ := fun p hp => hv p (hfiles ▸ hp)
    obtain ⟨ps,e₂,ho,-,hcfg,-,-,hfol⟩ := openPartitionStore_follows he₁ (offsetsDir root) cfg
    rw [hv₁.segments] at hfol
    have hpd : bs.partitionDir ConsumerOffsetsTopic 0 = offsetsDir root := by
      rw [BrokerStore.partitionDir,h.rootDir]
      exact joinPath_offsetsName root
    have hkey : bs.stores.lookup (partitionKey ConsumerOffsetsTopic 0) = none := hn
    have hg : bs.getOrCreatePartition ConsumerOffsetsTopic 0 d =
        (.ok ps,bs.put ConsumerOffsetsTopic 0 ps,e₂) := by
      simp only [BrokerStore.getOrCreatePartition,hkey,hpd,h.config,hm,ho]
    have hgets := getOrCreatePartition_gets h.placed hg
    have hlook := hgets.got ps rfl
    exact ⟨ps,_,e₂,hg,⟨h.rootDir,h.config,hgets.placed,hgets.files.healthy h.healthy,
      .inr ⟨ps,hlook,hfol,hcfg⟩⟩,hlook,hfol,hcfg⟩
  · exact ⟨ps,bs,d,getOrCreatePartition_of_lookup hs,h,hs,hfol,hc⟩

/-- Appending a record to the partition is appending its frame to the log. -/
theorem Hosts.append (h : Hosts root cfg bs d r) (x : Bytes) :
    ∃ ps bs₁ d₁ qs d₂, bs.getOrCreatePartition ConsumerOffsetsTopic 0 d = (.ok ps,bs₁,d₁) ∧
      ps.append x d₁ = (answer (r.append (capacity cfg) (frame x)).1,qs,d₂) ∧
      Hosts root cfg (bs₁.put ConsumerOffsetsTopic 0 qs) d₂
        (r.append (capacity cfg) (frame x)).2 := by
  obtain ⟨ps,bs₁,d₁,hg,h₁,hlook,hfol,hcfg⟩ := h.getOrCreate
  obtain ⟨qs,d₂,ha,hdir,hqcfg,-,hfol₂⟩ := hfol.append x
  rw [hcfg] at ha hfol₂
  have hw := storeAppend_within (h₁.placed _ _ hlook).2 x d₁
  rw [ha] at hw
  have hplaced : Placed (bs₁.put ConsumerOffsetsTopic 0 qs) := by
    refine put_placed h₁.placed ?_ (by rw [hdir]; exact hw.2.2)
    rw [hdir,h₁.dir hlook,BrokerStore.partitionDir,h₁.rootDir]
    exact (joinPath_offsetsName root).symm
  exact ⟨ps,bs₁,d₁,qs,d₂,hg,ha,⟨h₁.rootDir,h₁.config,hplaced,hw.1.healthy h₁.healthy,
    .inr ⟨qs,put_lookup bs₁ _ _ qs,hfol₂,hqcfg.trans hcfg⟩⟩⟩

end Hosting

/-! ## What requests add to the log -/

/-- As long as the log stays in its first file, these records were added. -/
def Adds (r r' : Rolling UInt8) (xs : List Bytes) : Prop :=
  r'.base = 0 → r.base = 0 ∧ r'.active = r.active++frames xs

theorem Adds.refl (r : Rolling UInt8) : Adds r r [] := fun h => ⟨h,by simp⟩

theorem Adds.trans {r r₁ r₂ : Rolling UInt8} {xs ys : List Bytes} (h : Adds r r₁ xs)
    (k : Adds r₁ r₂ ys) : Adds r r₂ (xs++ys) := by
  intro hb
  obtain ⟨hb₁,ha₁⟩ := k hb
  obtain ⟨hb₀,ha₀⟩ := h hb₁
  exact ⟨hb₀,by rw [ha₁,ha₀,frames_append,List.append_assoc]⟩

theorem adds_append (limit : ℕ) (r : Rolling UInt8) (x : Bytes) :
    Adds r (r.append limit (frame x)).2 (if (frame x).length ≤ limit then [x] else []) := by
  intro hb
  obtain ⟨h0,-,ha⟩ := Rolling.append_first hb
  refine ⟨h0,ha.trans ?_⟩
  split
  · simp
  · rfl

/-- The commits whose records fit in a segment. -/
def fitting (cfg : SegmentConfig) (cs : List Commit) : List Commit :=
  cs.filter fun c => commitSize c ≤ capacity cfg

/-- As long as the log stays in its first file, the acknowledged commits are
those that fit, and their records were added. -/
def Commits (cfg : SegmentConfig) (r r' : Rolling UInt8) (cs acked : List Commit) : Prop :=
  Adds r r' (acked.map Commit.record) ∧ (r'.base = 0 → acked = fitting cfg cs)

section Committing
variable {root : List Bytes} {cfg : SegmentConfig} {h h' : Handler} {d d' : Disk}
variable {r r₁ r₂ : Rolling UInt8}

theorem Commits.refl (cfg : SegmentConfig) (r : Rolling UInt8) : Commits cfg r r [] [] :=
  ⟨.refl r,fun _ => rfl⟩

theorem Commits.trans {cs acked cs' acked' : List Commit} (a : Commits cfg r r₁ cs acked)
    (b : Commits cfg r₁ r₂ cs' acked') : Commits cfg r r₂ (cs++cs') (acked++acked') := by
  constructor
  · rw [List.map_append]
    exact a.1.trans b.1
  · intro hb
    rw [fitting,List.filter_append,a.2 (b.1 hb).1,b.2 hb]
    rfl

theorem answered_cons (c : Commit) (cs : List Commit) (code : Int16) (codes : List Int16) :
    answered (c::cs) (code::codes) = answered [c] [code]++answered cs codes := by
  unfold answered
  rw [List.zip_cons_cons,List.filterMap_cons]
  by_cases hc : code = 0
  · simp [hc]
  · simp [hc]

theorem answered_append {cs : List Commit} {codes : List Int16} (h : cs.length = codes.length)
    (cs' : List Commit) (codes' : List Int16) :
    answered (cs++cs') (codes++codes') = answered cs codes++answered cs' codes' := by
  rw [answered,List.zip_append h,List.filterMap_append]
  rfl

/-- One appended commit, by the answer to it. -/
theorem commits_append (cfg : SegmentConfig) (r : Rolling UInt8) (c : Commit) (code : Int16)
    (hcode : code = 0 ↔ (r.append (capacity cfg) (frame c.record)).1.isSome) :
    Commits cfg r (r.append (capacity cfg) (frame c.record)).2 [c] (answered [c] [code]) := by
  have hack : (r.append (capacity cfg) (frame c.record)).2.base = 0 →
      answered [c] [code] = fitting cfg [c] := by
    intro hb
    obtain ⟨-,hsome,-⟩ := Rolling.append_first hb
    have hfit : code = 0 ↔ commitSize c ≤ capacity cfg := hcode.trans hsome
    by_cases hc : code = 0
    · simp [answered,fitting,hc,hfit.mp hc]
    · simp [answered,fitting,hc,mt hfit.mpr hc]
  refine ⟨fun hb => ?_,hack⟩
  have hadd := adds_append (capacity cfg) r c.record hb
  rw [hack hb]
  by_cases hc : commitSize c ≤ capacity cfg
  · have hf : (frame c.record).length ≤ capacity cfg := hc
    rw [if_pos hf] at hadd
    simpa [fitting,hc] using hadd
  · have hf : ¬(frame c.record).length ≤ capacity cfg := hc
    rw [if_neg hf] at hadd
    simpa [fitting,hc] using hadd

theorem commitPartition_hosts (hh : Hosts root cfg h.store d r) (c : Commit)
    {resp : OffsetCommitPartitionResponse} (hc : commitPartition c h d = (resp,h',d')) :
    ∃ r', Hosts root cfg h'.store d' r' ∧ Commits cfg r r' [c] (answered [c] [resp.errorCode]) := by
  obtain ⟨ps,bs₁,d₁,qs,d₂,hg,ha,h₂⟩ := hh.append c.record
  have hcode := commits_append cfg r c resp.errorCode
  unfold commitPartition appendCommit at hc
  cases hx : (r.append (capacity cfg) (frame c.record)).1 with
  | none =>
      simp only [hg,ha,hx,answer] at hc
      cases hc
      exact ⟨_,h₂,hcode (by rw [hx]; simp)⟩
  | some o =>
      simp only [hg,ha,hx,answer] at hc
      cases hc
      exact ⟨_,h₂,hcode (by rw [hx]; simp)⟩

theorem commitPartitions_hosts (hh : Hosts root cfg h.store d r) (groupID topicName : WireString)
    (parts : List OffsetCommitPartition) {resps : List OffsetCommitPartitionResponse}
    (hc : commitPartitions groupID topicName parts h d = (resps,h',d')) :
    resps.length = parts.length ∧ ∃ r', Hosts root cfg h'.store d' r' ∧
      Commits cfg r r' (topicCommits groupID ⟨topicName,parts⟩)
        (answered (topicCommits groupID ⟨topicName,parts⟩)
          (resps.map OffsetCommitPartitionResponse.errorCode)) := by
  induction parts generalizing h d r resps with
  | nil =>
      cases hc
      exact ⟨rfl,r,hh,.refl cfg r⟩
  | cons part parts ih =>
      rcases h₁ : commitPartition ⟨groupID,topicName,part.partition,part.committedOffset⟩ h d with
        ⟨resp,h₂,d₂⟩
      rcases h₃ : commitPartitions groupID topicName parts h₂ d₂ with ⟨resps',h₄,d₄⟩
      simp only [commitPartitions,h₁,h₃] at hc
      cases hc
      obtain ⟨r₁,hh₁,hc₁⟩ := commitPartition_hosts hh _ h₁
      obtain ⟨hlen,r₂,hh₂,hc₂⟩ := ih hh₁ h₃
      refine ⟨by rw [List.length_cons,List.length_cons,hlen],r₂,hh₂,?_⟩
      have hcs : topicCommits groupID ⟨topicName,part::parts⟩ =
          ⟨groupID,topicName,part.partition,part.committedOffset⟩::
            topicCommits groupID ⟨topicName,parts⟩ := rfl
      rw [hcs,List.map_cons,answered_cons]
      exact hc₁.trans hc₂

theorem commitTopics_hosts (hh : Hosts root cfg h.store d r) (groupID : WireString)
    (topics : List OffsetCommitTopic) {resps : List OffsetCommitTopicResponse}
    (hc : commitTopics groupID topics h d = (resps,h',d')) :
    ∃ r', Hosts root cfg h'.store d' r' ∧
      Commits cfg r r' (topics.flatMap (topicCommits groupID))
        (answered (topics.flatMap (topicCommits groupID)) (codes resps)) := by
  induction topics generalizing h d r resps with
  | nil =>
      cases hc
      exact ⟨r,hh,.refl cfg r⟩
  | cons topic topics ih =>
      rcases h₁ : commitPartitions groupID topic.topicName topic.partitions h d with ⟨parts,h₂,d₂⟩
      rcases h₃ : commitTopics groupID topics h₂ d₂ with ⟨resps',h₄,d₄⟩
      simp only [commitTopics,h₁,h₃] at hc
      cases hc
      obtain ⟨hlen,r₁,hh₁,hc₁⟩ := commitPartitions_hosts hh _ _ _ h₁
      obtain ⟨r₂,hh₂,hc₂⟩ := ih hh₁ h₃
      refine ⟨r₂,hh₂,?_⟩
      have hcodes : codes (⟨topic.topicName,parts⟩::resps') =
          parts.map OffsetCommitPartitionResponse.errorCode++codes resps' := rfl
      have hl : (topicCommits groupID topic).length =
          (parts.map OffsetCommitPartitionResponse.errorCode).length := by
        rw [topicCommits,List.length_map,List.length_map,hlen]
      rw [List.flatMap_cons,hcodes,answered_append hl]
      exact hc₁.trans hc₂

end Committing

/-! ## What produce requests do to it -/

section Producing
variable {root : List Bytes} {cfg : SegmentConfig} {bs : BrokerStore} {d : Disk}
variable {r : Rolling UInt8} {topicName : WireString} {part : ProducePartitionData}

theorem recordWrites_append (xs ys : List Bytes) :
    recordWrites (xs++ys) = recordWrites xs++recordWrites ys := List.filterMap_append

/-- The log of the offsets has grown by records that are none of offsets. -/
def Grown (root : List Bytes) (cfg : SegmentConfig) (r : Rolling UInt8) (bs : BrokerStore)
    (d : Disk) : Prop :=
  ∃ r' xs, Hosts root cfg bs d r' ∧ recordWrites xs = [] ∧ Adds r r' xs

/-- The stores and the disk after an entry do not depend on the answer. -/
theorem storeBatch_state (recordCount : Int32) :
    (storeBatch topicName part recordCount bs d).2.2 =
      match bs.getOrCreatePartition topicName.1 part.partition d with
      | (.error _,bs,d) => (bs,d)
      | (.ok ps,bs,d) =>
          (bs.put topicName.1 part.partition (ps.append part.recordBatch d).2.1,
            (ps.append part.recordBatch d).2.2) := by
  unfold storeBatch
  rcases bs.getOrCreatePartition topicName.1 part.partition d with ⟨e|ps,bs,d⟩
  · rfl
  · simp only
    split
    · rfl
    · rcases (ps.append part.recordBatch d).1 with e|offset
      · rfl
      · simp only
        split <;> rfl

/-- The key decides, not the topic and the number. -/
theorem getOrCreatePartition_congr {topic topic' : Bytes} {partition partition' : Int32}
    (h : partitionKey topic partition = partitionKey topic' partition') (bs : BrokerStore)
    (d : Disk) :
    bs.getOrCreatePartition topic partition d = bs.getOrCreatePartition topic' partition' d := by
  have hl : bs.stores.lookup (partitionKey topic partition) =
      bs.stores.lookup (partitionKey topic' partition') :=
    congrArg (fun k => (bs.stores.lookup k : Option PartitionStore)) h
  simp only [BrokerStore.getOrCreatePartition,BrokerStore.partitionDir,BrokerStore.put,h,hl]

theorem storeBatch_elsewhere (hh : Hosts root cfg bs d r) (recordCount : Int32)
    (hne : joinPath root (partitionKey topicName.1 part.partition) ≠ offsetsDir root) :
    Hosts root cfg (storeBatch topicName part recordCount bs d).2.2.1
      (storeBatch topicName part recordCount bs d).2.2.2 r := by
  have hkey : offsetsName ≠ partitionKey topicName.1 part.partition := by
    intro hk
    rw [← hk,joinPath_offsetsName] at hne
    exact hne rfl
  rw [storeBatch_state]
  rcases hg : bs.getOrCreatePartition topicName.1 part.partition d with ⟨x,bs₁,d₁⟩
  have hgets := getOrCreatePartition_gets hh.placed hg
  have hdir : offsetsDir root ≠ bs.partitionDir topicName.1 part.partition := by
    rw [BrokerStore.partitionDir,hh.rootDir]
    exact hne.symm
  have h₁ := hh.elsewhere hgets.root hgets.cfg hgets.placed (hgets.others _ hkey) hgets.files hdir
  cases x with
  | error e => exact h₁
  | ok ps =>
      obtain ⟨hpd,hhoused⟩ := hgets.placed _ _ (hgets.got ps rfl)
      have hw := storeAppend_within hhoused part.recordBatch d₁
      have hps : ps.dir = bs₁.partitionDir topicName.1 part.partition := hpd
      refine h₁.elsewhere rfl rfl (put_placed h₁.placed (hw.2.1.trans hps) ?_)
        (put_lookup_ne bs₁ hkey _) hw.1.files ?_
      · rw [hw.2.1]
        exact hw.2.2
      · rw [hps,BrokerStore.partitionDir,h₁.rootDir]
        exact hne.symm

theorem storeBatch_offsets (hh : Hosts root cfg bs d r) (recordCount : Int32)
    (hkey : partitionKey topicName.1 part.partition = offsetsName) :
    Hosts root cfg (storeBatch topicName part recordCount bs d).2.2.1
      (storeBatch topicName part recordCount bs d).2.2.2
      (r.append (capacity cfg) (frame part.recordBatch)).2 := by
  obtain ⟨ps,bs₁,d₁,qs,d₂,hg,ha,h₂⟩ := hh.append part.recordBatch
  have hput : bs₁.put topicName.1 part.partition qs = bs₁.put ConsumerOffsetsTopic 0 qs := by
    simp only [BrokerStore.put,hkey]
    rfl
  rw [storeBatch_state,getOrCreatePartition_congr hkey,hg]
  simp only [ha,hput]
  exact h₂

theorem storeBatch_grown (h : Harmless root topicName part) :
    Stores (fun _ => True) (Grown root cfg r) topicName part := by
  rintro recordCount bs d hchecked ⟨r',xs,hh,hxs,hadds⟩
  refine ⟨fun _ _ => trivial,?_⟩
  rcases h hchecked with hne|⟨hkey,hnone⟩
  · exact ⟨r',xs,storeBatch_elsewhere hh recordCount hne,hxs,hadds⟩
  · refine ⟨_,_,storeBatch_offsets hh recordCount hkey,?_,
      hadds.trans (adds_append (capacity cfg) r' part.recordBatch)⟩
    rw [recordWrites_append,hxs,List.nil_append]
    split
    · simp [recordWrites,hnone]
    · rfl

end Producing

/-! ## Runs -/

section Runs
variable {root : List Bytes} {cfg : SegmentConfig} {h h' : Handler} {d d' : Disk}
variable {r : Rolling UInt8}

/-- One request adds the records of the commits it acknowledges, and possibly
others that are not read as offsets. -/
theorem perform_hosts (hh : Hosts root cfg h.store d r) {op : Op} (hop : HarmlessOp root op)
    {cs : List Commit} (hp : perform h d op = some (cs,h',d')) :
    ∃ r' xs, Hosts root cfg h'.store d' r' ∧ Adds r r' xs ∧
      recordWrites xs = cs.map Commit.write ∧ (r'.base = 0 → cs = fitting cfg (asked [op])) := by
  cases op with
  | produce req =>
      have hg : Yields (fun _ => True) (Grown root cfg r) (produceTopics req.topics h.store d) :=
        produceTopics_yields (fun topic ht part hm => storeBatch_grown (hop topic ht part hm))
          ⟨r,[],hh,rfl,.refl r⟩
      rcases hx : handleProduce req h.store d with ⟨_|resps,calls,bs,e⟩
      · simp only [perform,hx] at hp
        cases hp
      · simp only [perform,hx] at hp
        cases hp
        have hx' : produceTopics req.topics h.store d = (some resps,calls,bs,d') := hx
        rw [hx'] at hg
        obtain ⟨r',xs,hh',hxs,hadds⟩ := hg.2
        exact ⟨r',xs,hh',hadds,hxs,fun _ => rfl⟩
  | commit req =>
      rcases hx : handleOffsetCommit req h d with ⟨resps,h₁,d₁⟩
      simp only [perform,hx] at hp
      cases hp
      obtain ⟨r',hh',hadds,hacked⟩ := commitTopics_hosts hh req.groupID req.topics hx
      refine ⟨r',_,hh',hadds,recordWrites_commits _,fun hb => ?_⟩
      rw [asked,asked,List.append_nil]
      exact hacked hb

theorem run_hosts {ops : List Op} (hh : Hosts root cfg h.store d r)
    (hsafe : ∀ op ∈ ops, HarmlessOp root op) {cs : List Commit}
    (hrun : run ops h d = some (cs,h',d')) :
    ∃ r' xs, Hosts root cfg h'.store d' r' ∧ Adds r r' xs ∧
      recordWrites xs = cs.map Commit.write ∧ (r'.base = 0 → cs = fitting cfg (asked ops)) := by
  induction ops generalizing h d r cs with
  | nil =>
      cases hrun
      exact ⟨r,[],hh,.refl r,rfl,fun _ => rfl⟩
  | cons op ops ih =>
      rw [List.forall_mem_cons] at hsafe
      rcases hp : perform h d op with _|⟨cs₁,h₁,d₁⟩
      · simp only [run,hp] at hrun
        cases hrun
      · rcases hr : run ops h₁ d₁ with _|⟨cs₂,h₂,d₂⟩
        · simp only [run,hp,hr] at hrun
          cases hrun
        · simp only [run,hp,hr] at hrun
          cases hrun
          obtain ⟨r₁,xs₁,hh₁,hadds₁,hw₁,hfit₁⟩ := perform_hosts hh hsafe.1 hp
          obtain ⟨r₂,xs₂,hh₂,hadds₂,hw₂,hfit₂⟩ := ih hh₁ hsafe.2 hr
          refine ⟨r₂,xs₁++xs₂,hh₂,hadds₁.trans hadds₂,?_,fun hb => ?_⟩
          · rw [recordWrites_append,hw₁,hw₂,List.map_append]
          · have hasked : asked (op::ops) = asked [op]++asked ops := by
              cases op with
              | produce req => rfl
              | commit req => simp only [asked,List.append_nil]
            rw [hasked,fitting,List.filter_append,hfit₁ (hadds₂ hb).1,hfit₂ hb]
            rfl

/-- A run of harmless requests from a fresh root that stays in one segment and
in the window. -/
structure Quiet (root : List Bytes) (cfg : SegmentConfig) (d : Disk) (ops : List Op)
    (cs : List Commit) (h : Handler) (e : Disk) : Prop where
  runs : run ops (newHandler ⟨root,cfg,∅⟩) d = some (cs,h,e)
  harmless : ∀ op ∈ ops, HarmlessOp root op
  oneSegment : OneSegment h.store
  inWindow : InWindow h.store

theorem Quiet.hydrates {ops : List Op} {cs : List Commit} (hf : Fresh root d)
    (q : Quiet root cfg d ops cs h d') :
    Hydrates h.store d' (lastValue (cs.map Commit.write)) ∧ cs = fitting cfg (asked ops) := by
  obtain ⟨r,xs,hh,hadds,hw,hfit⟩ := run_hosts (hosts_start hf cfg) q.harmless q.runs
  have hstate : r.base = 0 ∧ r.active.length ≤ hydrationWindow := by
    rcases hh.log with ⟨-,-,hr⟩|⟨ps,hs,hfol,-⟩
    · rw [hr]
      exact ⟨rfl,Nat.zero_le _⟩
    · rw [← hfol.base,← hfol.holds.size]
      exact ⟨q.oneSegment ps hs,q.inWindow ps hs⟩
  have hactive : r.active = frames xs := (hadds hstate.1).2
  have hlen : (frames xs).length ≤ hydrationWindow := hactive ▸ hstate.2
  refine ⟨?_,hfit hstate.1⟩
  obtain ⟨ps,bs,e,hg,-,-,hfol,-⟩ := hh.getOrCreate
  obtain ⟨h₂,e₂,hload,hcache⟩ := loadOffsetsCache_whole hg (hactive ▸ hfol.holds) hlen
  exact ⟨h₂,e₂,hload,by rw [hcache,hw]⟩

end Runs

/-- Harmless produce requests forge nothing: a new handler loads the last
acknowledged commit of each key and no other key, and a second run that asks for
the same commits acknowledges and loads the same, whatever it produces. -/
theorem produced_records_forge_nothing (root : List Bytes) (cfg : SegmentConfig) (d : Disk)
    (ops ops' : List Op) (cs cs' : List Commit) (h h' : Handler) (e e' : Disk)
    (hf : Fresh root d) (q : Quiet root cfg d ops cs h e) (q' : Quiet root cfg d ops' cs' h' e')
    (hsame : asked ops = asked ops') :
    Hydrates h.store e (lastValue (cs.map Commit.write)) ∧ cs' = cs ∧
      Hydrates h'.store e' (lastValue (cs.map Commit.write)) := by
  obtain ⟨hy,hcs⟩ := q.hydrates hf
  obtain ⟨hy',hcs'⟩ := q'.hydrates hf
  have heq : cs' = cs := by rw [hcs,hcs',hsame]
  rw [heq] at hy'
  exact ⟨hy,heq,hy'⟩

/-- A produce request for one partition. -/
def produceOne (topic : WireString) (batch : Bytes) : ProduceRequest := ⟨1,0,[⟨topic,[⟨0,batch⟩]⟩]⟩

/-- The run goes through and ends in the first segment and in the window. -/
def passes (cfg : SegmentConfig) (ops : List Op) : Bool :=
  match run ops (newHandler ⟨[],cfg,∅⟩) emptyRoot with
  | none => false
  | some (_,h,_) =>
      match h.store.stores.lookup offsetsName with
      | none => true
      | some ps => ps.active.baseOffset = 0 && decide (ps.active.size ≤ hydrationWindow)

theorem quiet_of_passes (cfg : SegmentConfig) (ops : List Op) (hp : passes cfg ops = true)
    (hs : ∀ op ∈ ops, HarmlessOp [] op) :
    ∃ cs h e, Quiet [] cfg emptyRoot ops cs h e := by
  unfold passes at hp
  rcases hr : run ops (newHandler ⟨[],cfg,∅⟩) emptyRoot with _|⟨cs,h,e⟩
  · simp only [hr] at hp
    cases hp
  · simp only [hr] at hp
    have hps : ∀ ps, h.store.stores.lookup offsetsName = some ps →
        ps.active.baseOffset = 0 ∧ ps.active.size ≤ hydrationWindow := by
      intro ps hl
      simpa [hl] using hp
    exact ⟨cs,h,e,hr,hs,fun ps hl => (hps ps hl).1,fun ps hl => (hps ps hl).2⟩

/-- A commit with and without a batch for another topic around it. -/
theorem produced_records_forge_nothing_twice :
    ∃ cs cs' h h' e e', Quiet [] ⟨0⟩ emptyRoot
        [.commit (commitRequest 1),.produce (produceOne aTopic oneRecord)] cs h e ∧
      Quiet [] ⟨0⟩ emptyRoot [.commit (commitRequest 1)] cs' h' e' ∧
      Hydrates h.store e (lastValue (cs.map Commit.write)) ∧ cs' = cs ∧
        Hydrates h'.store e' (lastValue (cs.map Commit.write)) := by
  have hsafe : Harmless [] aTopic ⟨0,oneRecord⟩ := fun _ => .inl (by decide +kernel)
  obtain ⟨cs,h,e,q⟩ := quiet_of_passes ⟨0⟩
    [.commit (commitRequest 1),.produce (produceOne aTopic oneRecord)]
    (by decide +kernel) (by simpa [HarmlessOp,produceOne] using hsafe)
  obtain ⟨cs',h',e',q'⟩ := quiet_of_passes ⟨0⟩ [.commit (commitRequest 1)]
    (by decide +kernel) (by simp [HarmlessOp])
  exact ⟨cs,cs',h,h',e,e',q,q',
    produced_records_forge_nothing [] ⟨0⟩ emptyRoot _ _ cs cs' h h' e e' fresh_emptyRoot q q' rfl⟩

/-- A sound batch of one record whose bytes also spell a key and an offset: the
base offset holds the length of the key and the group, and the body of the batch
holds the length of the value and the offset seven. -/
def forgedBatch : Bytes :=
  putUint 4 40++(putUint 2 2++(ascii "g1"++(batchOf (List.replicate 23 0++(putUint 4 8++
    (putUint 8 7++(0::putUint 4 1))))).drop 8))

/-- The internal topic as a client names it. -/
def offsetsTopic : WireString := ⟨ConsumerOffsetsTopic,by decide +kernel⟩

/-- The number of acknowledged commits of a run, and what a new handler loads for
a key if it loads without an error. -/
def loaded (cfg : SegmentConfig) (ops : List Op) (k : OffsetCacheKey) :
    Option (ℕ × Option Int64) :=
  match run ops (newHandler ⟨[],cfg,∅⟩) emptyRoot with
  | none => none
  | some (cs,h,e) =>
      match loadOffsetsCache (newHandler h.store) e with
      | (none,h,_) => some (cs.length,h.offsetCache k)
      | (some _,_,_) => none

/-- Nothing was committed, the batch was validated and stored in the first
segment, and a new handler knows an offset for its key. -/
theorem produced_batch_forges_offset :
    validateRecordBatch forgedBatch = some (.ok 1) ∧
      passes ⟨0⟩ [.produce (produceOne offsetsTopic forgedBatch)] = true ∧
      loaded ⟨0⟩ [.produce (produceOne offsetsTopic forgedBatch)] ⟨ascii "g1",[],3211264⟩ =
        some (0,some 7) ∧
      loaded ⟨0⟩ [] ⟨ascii "g1",[],3211264⟩ = some (0,none) := by
  refine ⟨by decide +kernel,by decide +kernel,by decide +kernel,by decide +kernel⟩

end Kage.OffsetForgery
