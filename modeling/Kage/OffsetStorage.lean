import Kage.OffsetHandlers
import Kage.PartitionRuns

/-!
# The log behind the offset handlers

A broker that is started on a fresh root and asked to commit offsets opens one
partition, in the directory named after the internal topic. `Keeps` says that
such a broker is the rolling log of its accepted commits: appending a commit is
appending its frame, and closing and reopening the broker gives a broker that
reads the first file of that log, because a partition is always opened at base
zero.
-/
namespace Kage.OffsetStorage
open ByteStrings LengthPrefixed FaultyDisk SparseIndex SegmentLog PartitionLog RollingLog
open PartitionRuns BrokerStores OffsetRecords OffsetHandlers

/-- The name of the partition's directory. -/
def offsetsName : Bytes := partitionKey ConsumerOffsetsTopic 0

def offsetsDir (root : List Bytes) : List Bytes := root++[offsetsName]

/-- A root directory that no broker has used. -/
structure Fresh (root : List Bytes) (d : Disk) : Prop where
  healthy : d.Healthy
  isDir : root ∈ d.dirs
  bare : d.subdirectories root = []
  vacant : Vacant (offsetsDir root) d

/-- The broker has opened nothing yet, or just the partition of the offsets. -/
inductive Keeps (root : List Bytes) (cfg : SegmentConfig) :
    BrokerStore → Disk → Rolling UInt8 → Prop
  | unopened {d : Disk} : Fresh root d →
      Keeps root cfg ⟨root,cfg,∅⟩ d (Rolling.openAt (fun _ => none) 0)
  | opened {stores : AList fun _ : Bytes => PartitionStore} {ps : PartitionStore} {d : Disk}
      {r : Rolling UInt8} : stores.entries = [⟨offsetsName,ps⟩] → Follows ps d r →
      ps.dir = offsetsDir root → ps.cfg = cfg → root ∈ d.dirs →
      d.subdirectories root = [offsetsName] → Keeps root cfg ⟨root,cfg,stores⟩ d r

theorem joinPath_offsetsName (root : List Bytes) :
    joinPath root offsetsName = offsetsDir root := by
  have hs : offsetsName.splitOn 47 = [offsetsName] := by decide +kernel
  have he : enter root offsetsName = root++[offsetsName] := by
    rw [enter,if_neg (by decide +kernel),if_neg (by decide +kernel)]
  rw [joinPath,hs,List.foldl_cons,List.foldl_nil,he,offsetsDir]

theorem openBrokerStore_fresh {root : List Bytes} {d : Disk} (h : Fresh root d)
    (cfg : SegmentConfig) : openBrokerStore root cfg d = (.ok ⟨root,cfg,∅⟩,d) := by
  simp only [openBrokerStore,readDir,Disk.next_healthy h.healthy,if_pos h.isDir,h.bare,
    List.insertionSort_nil,loadPartitions]

/-- A disk that holds an empty root directory. -/
def emptyRoot : Disk := {Disk.blank with dirs := [[]]}

theorem fresh_emptyRoot : Fresh [] emptyRoot :=
  ⟨rfl,by decide,rfl,vacant_blank _⟩

def aGroup : WireString := ⟨ascii "g",by decide +kernel⟩

def aTopic : WireString := ⟨ascii "t",by decide +kernel⟩

/-- One offset of the group `g` in partition zero of the topic `t`. -/
def commitRequest (offset : Int64) : OffsetCommitRequest := ⟨aGroup,[⟨aTopic,[⟨0,offset⟩]⟩]⟩

section Keeping
variable {root : List Bytes} {cfg : SegmentConfig} {bs : BrokerStore} {d : Disk}
variable {r : Rolling UInt8}

/-- The partition of the offsets is made below a root that holds nothing else. -/
theorem create_offsets (cfg : SegmentConfig) (hd : d.Healthy) (hr : root ∈ d.dirs)
    (hs : d.subdirectories root = []) :
    ∃ ps e, (BrokerStore.mk root cfg ∅).getOrCreatePartition ConsumerOffsetsTopic 0 d =
        (.ok ps,(BrokerStore.mk root cfg ∅).put ConsumerOffsetsTopic 0 ps,e) ∧
      Follows ps e (Rolling.openAt (segments (offsetsDir root) d) 0) ∧
      ps.dir = offsetsDir root ∧ ps.cfg = cfg ∧ root ∈ e.dirs ∧
      e.subdirectories root = [offsetsName] := by
  have hnew : offsetsName ∉ d.subdirectories root := by
    rw [hs]
    exact List.not_mem_nil
  obtain ⟨d₁,hm,hd₁,hr₁,hsub,hfiles⟩ := Disk.mkdirAll_below hd hr hnew
  rw [hs] at hsub
  obtain ⟨ps,e,ho,hdir,hcfg,-,hdirs,hf⟩ := openPartitionStore_follows hd₁ (offsetsDir root) cfg
  have hseg : segments (offsetsDir root) d₁ = segments (offsetsDir root) d := by
    funext b
    rw [segments,segments,hfiles]
  rw [hseg] at hf
  refine ⟨ps,e,?_,hf,hdir,hcfg,?_,(Disk.subdirectories_of_dirs hdirs root).trans hsub⟩
  · have hpd : (BrokerStore.mk root cfg ∅).partitionDir ConsumerOffsetsTopic 0 =
        root++[offsetsName] := joinPath_offsetsName root
    rw [offsetsDir] at ho
    simp only [BrokerStore.getOrCreatePartition,AList.lookup_empty,hpd,hm,ho]
  · rw [hdirs]
    exact hr₁

theorem lookup_of_entries {stores : AList fun _ : Bytes => PartitionStore} {ps : PartitionStore}
    (h : stores.entries = [⟨offsetsName,ps⟩]) : stores.lookup offsetsName = some ps := by
  rw [AList.lookup,h]
  simp

theorem put_entries (bs : BrokerStore) (ps : PartitionStore) {qs : PartitionStore}
    (h : bs.stores.entries = [] ∨ bs.stores.entries = [⟨offsetsName,ps⟩]) :
    (bs.put ConsumerOffsetsTopic 0 qs).stores.entries = [⟨offsetsName,qs⟩] := by
  rw [BrokerStore.put,AList.entries_insert]
  rcases h with h|h <;> simp [h,offsetsName]

/-- Whether or not it was open, the partition is the log. -/
theorem Keeps.getOrCreate (h : Keeps root cfg bs d r) :
    ∃ ps stores e, bs.getOrCreatePartition ConsumerOffsetsTopic 0 d =
        (.ok ps,⟨root,cfg,stores⟩,e) ∧ stores.entries = [⟨offsetsName,ps⟩] ∧ Follows ps e r ∧
      ps.dir = offsetsDir root ∧ ps.cfg = cfg ∧ root ∈ e.dirs ∧
      e.subdirectories root = [offsetsName] := by
  cases h with
  | opened hs hf hdir hcfg hr hsub =>
      refine ⟨_,_,d,getOrCreatePartition_of_lookup (lookup_of_entries hs),hs,hf,hdir,hcfg,hr,hsub⟩
  | unopened hfresh =>
      obtain ⟨ps,e,hg,hf,hrest⟩ := create_offsets cfg hfresh.healthy hfresh.isDir hfresh.bare
      rw [hfresh.vacant.segments] at hf
      exact ⟨ps,_,e,hg,put_entries ⟨root,cfg,∅⟩ ps (.inl rfl),hf,hrest⟩

/-- Appending a commit is appending its frame to the log. -/
theorem Keeps.appendCommit (h : Keeps root cfg bs d r) (c : Commit) :
    ∃ err bs' e, OffsetHandlers.appendCommit c bs d = (err,bs',e) ∧
      (err = none ↔ (r.append (capacity cfg) (frame c.record)).1.isSome) ∧
      Keeps root cfg bs' e (r.append (capacity cfg) (frame c.record)).2 := by
  obtain ⟨ps,stores,e,hg,hs,hf,hdir,hcfg,hroot,hsub⟩ := h.getOrCreate
  obtain ⟨qs,e',ha,hdir',hcfg',hdirs,hf'⟩ := hf.append c.record
  rw [hcfg] at ha hf'
  have hk : Keeps root cfg ((BrokerStore.mk root cfg stores).put ConsumerOffsetsTopic 0 qs) e'
      (r.append (capacity cfg) (frame c.record)).2 := by
    refine .opened (put_entries _ _ (.inr hs)) hf' (hdir'.trans hdir) (hcfg'.trans hcfg) ?_ ?_
    · rw [hdirs]
      exact hroot
    · exact (Disk.subdirectories_of_dirs hdirs root).trans hsub
  cases hx : (r.append (capacity cfg) (frame c.record)).1 with
  | none =>
      rw [hx,answer] at ha
      refine ⟨some refusal,_,e',?_,by simp,hk⟩
      simp only [OffsetHandlers.appendCommit,hg,ha]
  | some o =>
      rw [hx,answer] at ha
      refine ⟨none,_,e',?_,by simp,hk⟩
      simp only [OffsetHandlers.appendCommit,hg,ha]

theorem loadPartitions_offsets (d : Disk) {ps : PartitionStore} {e : Disk}
    (h : openPartitionStore (offsetsDir root) cfg d = (.ok ps,e)) :
    loadPartitions ⟨root,cfg,∅⟩ [offsetsName] d =
      (.ok ((BrokerStore.mk root cfg ∅).put ConsumerOffsetsTopic 0 ps),e) := by
  have hre : partitionDirRe offsetsName = some (ConsumerOffsetsTopic,[48]) := by decide +kernel
  have hnum : parseInt32 [48] = some 0 := by decide +kernel
  simp only [loadPartitions,hre,hnum,joinPath_offsetsName,h]

/-- A broker that starts over a root with at most the partition of the offsets
gets that partition as the disk has it. -/
theorem start_offsets (cfg : SegmentConfig) (hd : d.Healthy) (hr : root ∈ d.dirs)
    (hs : d.subdirectories root = [] ∨ d.subdirectories root = [offsetsName]) :
    ∃ bs₂ d₂ ps bs₃ d₃ r', openBrokerStore root cfg d = (.ok bs₂,d₂) ∧
      bs₂.getOrCreatePartition ConsumerOffsetsTopic 0 d₂ = (.ok ps,bs₃,d₃) ∧
      Follows ps d₃ r' ∧ r'.active = d.content (logPath (offsetsDir root) 0) := by
  rcases hs with hs|hs
  · obtain ⟨ps,e,hg,hf,-⟩ := create_offsets cfg hd hr hs
    refine ⟨⟨root,cfg,∅⟩,d,ps,_,e,_,?_,hg,hf,Rolling.openAt_part _ _ _⟩
    simp only [openBrokerStore,readDir,Disk.next_healthy hd,if_pos hr,hs,
      List.insertionSort_nil,loadPartitions]
  · obtain ⟨ps,e,ho,-,-,-,-,hf⟩ := openPartitionStore_follows hd (offsetsDir root) cfg
    refine ⟨_,e,ps,_,e,_,?_,getOrCreatePartition_of_lookup (put_lookup ⟨root,cfg,∅⟩ _ _ _),hf,
      Rolling.openAt_part _ _ _⟩
    simp only [openBrokerStore,readDir,Disk.next_healthy hd,if_pos hr,hs]
    exact loadPartitions_offsets d ho

/-- A broker that is closed and opened again reads the first file of the log. -/
theorem Keeps.reopen (h : Keeps root cfg bs d r) :
    ∃ d₁ bs₂ d₂ ps bs₃ d₃ r', bs.close d = (none,d₁) ∧
      openBrokerStore root cfg d₁ = (.ok bs₂,d₂) ∧
      bs₂.getOrCreatePartition ConsumerOffsetsTopic 0 d₂ = (.ok ps,bs₃,d₃) ∧
      Follows ps d₃ r' ∧ r'.active = r.part 0 := by
  cases h with
  | unopened hfresh =>
      obtain ⟨bs₂,d₂,ps,bs₃,d₃,r',ho,hg,hf,ha⟩ :=
        start_offsets cfg hfresh.healthy hfresh.isDir (.inl hfresh.bare)
      refine ⟨d,bs₂,d₂,ps,bs₃,d₃,r',rfl,ho,hg,hf,ha.trans ?_⟩
      rw [Rolling.openAt_part]
      exact congrArg (·.getD []) (congrFun hfresh.vacant.segments 0)
  | @opened stores ps _ _ hs hf hdir hcfg hroot hsub =>
      obtain ⟨s,d₁,hc,hd₁,hdirs,hseg⟩ := hf.close
      rw [hdir] at hseg
      obtain ⟨bs₂,d₂,qs,bs₃,d₃,r',ho,hg,hq,ha⟩ := start_offsets cfg hd₁ (hdirs ▸ hroot)
        (.inr ((Disk.subdirectories_of_dirs hdirs root).trans hsub))
      refine ⟨d₁,bs₂,d₂,qs,bs₃,d₃,r',?_,ho,hg,hq,ha.trans ?_⟩
      · simp only [BrokerStore.close,hs,closeAll,PartitionStore.close,hc]
        rfl
      · rw [Rolling.part,← hseg]
        rfl

end Keeping

end Kage.OffsetStorage
