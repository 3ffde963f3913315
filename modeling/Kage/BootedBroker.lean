import Kage.LedgerJournal
import Kage.OffsetCrash

/-!
# Stopping and starting a broker

A broker that was stopped or has crashed leaves its files. One that is started
over them opens the first file of every partition whose directory has a name that
can be read, and fills its cache of offsets from the log. It represents a ledger
with the contents that the files have, all of them out of the buffers. If the log of
offsets is made of whole records, it knows offsets that these records say, and no
others.

Below the root there have to be the directories of partitions and no others,
which is what a broker leaves there. A name that was printed from a negative
number is read as that of another partition, and under the same key.
-/
namespace Kage.BootedBroker
open ByteStrings LengthPrefixed DecimalText FaultyDisk SparseIndex SegmentLog PartitionLog
open RollingLog BrokerStores PartitionNames DirectoryFrames DirectoryNames OffsetRecords
open LastWrite OffsetHandlers OffsetStorage AtomicPrograms BrokerPrograms BrokerLedger
open LedgerJournal
open OffsetCrash (boot)

/-! ## Directories -/

/-- The root holds the directories of partitions and no others. -/
structure Shelved (root : List Bytes) (d : Disk) : Prop where
  isDir : root ∈ d.dirs
  nodup : (d.subdirectories root).Nodup
  named : ∀ name ∈ d.subdirectories root,
    ∃ topic partition, Single topic ∧ name = partitionKey topic partition

/-- The files are short enough to be opened again. -/
def Short (root : List Bytes) (d : Disk) : Prop :=
  ∀ k base bytes, segments (root++[k]) d base = some bytes → bytes.length < 2^63

section Directories
variable {root : List Bytes} {d e : Disk} {topic : Bytes} {partition : Int32}

theorem Shelved.of_dirs (h : Shelved root d) (hd : e.dirs = d.dirs) : Shelved root e := by
  have hs := Disk.subdirectories_of_dirs hd root
  exact ⟨hd ▸ h.isDir,hs ▸ h.nodup,hs ▸ h.named⟩

/-- A name that was printed and can be read is the key of what is read. -/
theorem decodeName_printed {tp : TopicPartition} (ht : Single topic)
    (h : decodeName (partitionKey topic partition) = some tp) :
    keyOf tp = partitionKey topic partition ∧ Plain tp := by
  have hdash : isDigit 45 = false := by decide
  obtain ⟨front,n,hk,hf⟩ : ∃ front n, partitionKey topic partition = front++45::decimal n ∧
      47 ∉ front := by
    by_cases hp : partition.toInt < 0
    · exact ⟨_,_,partitionKey_of_neg hp,by rw [List.mem_append,not_or]; exact ⟨ht,by decide⟩⟩
    · exact ⟨_,_,partitionKey_of_nonneg (by omega),ht⟩
  rw [hk] at h ⊢
  rw [decodeName,partitionDirRe,dropWhile_digits hdash (isDigit_decimal n),
    takeWhile_digits hdash (isDigit_decimal n)] at h
  simp only [List.reverse_reverse] at h
  split at h
  · cases h
  · rename_i hx
    split at hx
    · cases hx
    · rename_i hfront
      cases hx
      rw [parseInt32,spell_decimal] at h
      split at h
      · cases h
      · rename_i hn
        split at hn
        · rename_i hlt
          cases hn
          cases h
          have hval : (Int32.ofNat n).toInt = n := Int32.toInt_ofNat_of_lt (by omega)
          have hnn : 0 ≤ (Int32.ofNat n).toInt := hval ▸ Int.natCast_nonneg n
          simp only [not_or] at hfront
          refine ⟨?_,hfront.2.1,hf,hfront.2.2,hnn⟩
          rw [keyOf]
          simp only [partitionKey_of_nonneg hnn,hval,Int.natAbs_natCast]
        · cases hn

/-- Making the directory of a partition lists it once. -/
theorem mkdirAll_listed {c : Bytes} (hd : d.Healthy) (hr : root ∈ d.dirs) :
    ∃ e, d.mkdirAll (root++[c]) = (none,e) ∧ e.Healthy ∧ root ∈ e.dirs ∧ e.files = d.files ∧
      e.subdirectories root =
        if c ∈ d.subdirectories root then d.subdirectories root
        else d.subdirectories root++[c] := by
  by_cases hc : c ∈ d.subdirectories root
  · rw [if_pos hc]
    obtain ⟨q,hq,hqc⟩ := List.mem_filterMap.mp hc
    have hmem : root++[c] ∈ d.dirs := by
      split at hqc
      · rename_i hl
        rw [← List.dropLast_append_getLast? c hqc,hl] at hq
        exact hq
      · cases hqc
    have hup : ∀ q ∈ (root++[c]).inits.filter (fun q => decide (q ∉ d.dirs)),
        (if q.dropLast = root then q.getLast? else none) = none := by
      intro q hq
      obtain ⟨hq,hnew⟩ := List.mem_filter.mp hq
      split
      · rename_i hl
        cases hg : q.getLast? with
        | none => rfl
        | some x =>
            have hqx := List.dropLast_append_getLast? x hg
            rw [hl] at hqx
            rw [← hqx] at hq hnew
            obtain rfl : x = c := by
              have hp := (List.mem_inits _ _).mp hq
              have he := hp.eq_of_length (by simp)
              exact (List.append_inj' he rfl).2 |> List.singleton_inj.mp
            simp [hmem] at hnew
      · rfl
    refine ⟨{d with dirs := d.dirs++(root++[c]).inits.filter fun q => q ∉ d.dirs},
      by rw [Disk.mkdirAll,Disk.next_healthy hd],hd,List.mem_append_left _ hr,rfl,?_⟩
    rw [Disk.subdirectories,List.filterMap_append,List.filterMap_eq_nil_iff.mpr hup,
      List.append_nil]
    rfl
  · rw [if_neg hc]
    obtain ⟨e,hm,he,hr',hs,hf⟩ := Disk.mkdirAll_below hd hr hc
    exact ⟨e,hm,he,hr',hf,hs⟩

theorem Shelved.mkdir (h : Shelved root d) (hd : d.Healthy) (ht : Single topic)
    (hm : d.mkdirAll (root++[partitionKey topic partition]) = (none,e)) :
    Shelved root e ∧ partitionKey topic partition ∈ e.subdirectories root ∧
      ∀ k ∈ d.subdirectories root, k ∈ e.subdirectories root := by
  obtain ⟨e',hm',-,hr,-,hs⟩ := mkdirAll_listed (c := partitionKey topic partition) hd h.isDir
  cases hm.symm.trans hm'
  by_cases hc : partitionKey topic partition ∈ d.subdirectories root
  · rw [if_pos hc] at hs
    rw [hs]
    exact ⟨⟨hr,hs ▸ h.nodup,hs ▸ h.named⟩,hc,fun k hk => hk⟩
  · rw [if_neg hc] at hs
    rw [hs]
    refine ⟨⟨hr,?_,fun name hn => ?_⟩,by simp,fun k hk => List.mem_append_left _ hk⟩
    · rw [hs]
      exact List.nodup_append.mpr ⟨h.nodup,List.nodup_singleton _,by
        intro a ha b hb
        rw [List.mem_singleton.mp hb]
        rintro rfl
        exact hc ha⟩
    · rw [hs,List.mem_append,List.mem_singleton] at hn
      rcases hn with hn|rfl
      · exact h.named name hn
      · exact ⟨topic,partition,ht,rfl⟩

end Directories

/-- A disk with an empty root. -/
def bare : Disk := {Disk.blank with dirs := [[]]}

theorem healthy_bare : bare.Healthy := rfl

theorem shelved_bare : Shelved [] bare where
  isDir := by decide
  nodup := by decide
  named := fun name hn => by
    rw [show bare.subdirectories [] = [] from rfl] at hn
    cases hn

theorem short_bare : Short [] bare := fun _ _ _ h => by cases h

/-! ## The directories of a broker at work -/

/-- The broker represents a ledger, and its partitions have their directories. -/
structure Kept (root : List Bytes) (cfg : SegmentConfig) (b : Shared) (s : Ledger) : Prop where
  represents : Represents root cfg b s
  shelved : Shelved root b.disk
  listed : ∀ k, (s.active k).isSome → k ∈ b.disk.subdirectories root

section Calls
variable {root : List Bytes} {cfg : SegmentConfig} {b : Shared} {s t : Ledger}

/-- No other call makes a directory. -/
theorem respond_dirs (h : Represents root cfg b s) {o : Op}
    (ho : ∀ topic partition, o ≠ .create topic partition) :
    (respond o b).2.disk.dirs = b.disk.dirs := by
  have hhoused {topic : Bytes} {partition : Int32} {ps : PartitionStore}
      (hl : b.store topic partition = some ps) : Housed ps.dir ps.active := by
    obtain ⟨_,_,_,_,_,hf,_⟩ := h.log_of_lookup hl
    exact housed_of_follows hf
  cases o with
  | create topic partition => exact (ho topic partition rfl).elim
  | append topic partition data =>
      cases hl : b.store topic partition with
      | none => simp only [respond,hl]
      | some ps =>
          have hw := (storeAppend_within (hhoused hl) data b.disk).1
          simp only [respond,hl]
          exact hw.dirs
  | read topic partition o n =>
      cases hl : b.store topic partition with
      | none => simp only [respond,hl]
      | some ps =>
          have hw := (storeRead_within (hhoused hl) o n b.disk).1.dirs
          simp only [respond,hl]
          rcases hx : ps.read o n b.disk with ⟨x,qs,e⟩
          rw [hx] at hw
          cases x <;> exact hw
  | readFull r n => rw [(h.readFull r n).2]
  | size topic partition =>
      rw [respond]
      split <;> rfl
  | find | topics | cache | offsets => rfl

theorem Kept.create (h : Kept root cfg b s) {topic : Bytes} (ht : Single topic)
    (partition : Int32) :
    (respond (.create topic partition) b).1 = none ∧
      Kept root cfg (respond (.create topic partition) b).2
        (s.create (partitionKey topic partition)) := by
  obtain ⟨b',hb,hs⟩ := h.represents.create ht partition
  rw [hb]
  refine ⟨rfl,?_⟩
  cases hl : b.handler.store.stores.lookup (partitionKey topic partition) with
  | some ps =>
      obtain ⟨base,ha,-⟩ := h.represents.log_of_lookup hl
      have hcreate : s.create (partitionKey topic partition) = s := by
        rw [Ledger.create,ha]
        rfl
      simp only [respond,getOrCreatePartition_of_lookup hl] at hb
      cases hb
      rw [hcreate]
      exact h
  | none =>
      have hdir : b.handler.store.partitionDir topic partition =
          root++[partitionKey topic partition] := by
        rw [BrokerStore.partitionDir,h.represents.rooted]
        exact partitionDir_single ht root partition
      obtain ⟨d,hm,hd,hfiles⟩ := mkdirAll_healthy h.represents.healthy
        (root++[partitionKey topic partition])
      obtain ⟨hshelf,hmem,hkeep⟩ := h.shelved.mkdir h.represents.healthy ht hm
      obtain ⟨ps,e,ho,hdirs,-⟩ := h.represents.opens hd hfiles hl
      simp only [respond,BrokerStore.getOrCreatePartition,hl,hdir,hm,h.represents.config,ho] at hb
      cases hb
      refine ⟨hs,hshelf.of_dirs hdirs,fun k hk => ?_⟩
      rw [Shared.withStore_disk,Disk.subdirectories_of_dirs hdirs]
      rcases (create_isSome s _ k).mp hk with rfl|hk
      · exact hmem
      · exact hkeep k (h.listed k hk)

/-- The directories keep up with the partitions. -/
theorem kept_simulates (root : List Bytes) (cfg : SegmentConfig) :
    Simulates (Kept root cfg) Allowed respond (Ledger.Step cfg) := by
  intro b s o h ha
  by_cases hc : ∃ topic partition, o = .create topic partition
  · obtain ⟨topic,partition,rfl⟩ := hc
    obtain ⟨hreply,hk⟩ := h.create ha partition
    exact ⟨_,⟨hreply,rfl⟩,hk⟩
  · have hno : ∀ topic partition, o ≠ .create topic partition := fun topic partition he =>
      hc ⟨topic,partition,he⟩
    obtain ⟨t,hs,ht⟩ := represents_simulates root cfg b s o h.represents ha
    have hdirs := respond_dirs h.represents hno
    refine ⟨t,hs,ht,h.shelved.of_dirs hdirs,fun k hk => ?_⟩
    rw [Disk.subdirectories_of_dirs hdirs]
    rcases (step_isSome hs k).mp hk with hk|⟨topic,partition,rfl,-⟩
    · exact h.listed k hk
    · exact (hno topic partition rfl).elim

end Calls

/-! ## Starting -/

/-- Nothing is in a buffer only. -/
def Settled (s : Ledger) : Prop :=
  ∀ k base, s.active k = some base → s.written k = (s.content k base).length

/-- The log of offsets is made of these records. -/
def Logs (P : Bytes → Prop) (s : Ledger) : Prop := ∀ base, Framed P (s.content offsetsName base)

/-- Every offset of the map is what one of these records says. -/
def Spelled (P : Bytes → Prop) (cache : OffsetCache) : Prop :=
  ∀ key offset, cache key = some offset → ∃ x, P x ∧ decodeOffsetRecord x = .ok (key,offset)

/-- The files of a disk, with no partition open. -/
def onDisk (root : List Bytes) (d : Disk) : Ledger :=
  {Ledger.blank with files := fun k => segments (root++[k]) d}

section Starting
variable {root : List Bytes} {cfg : SegmentConfig} {d e : Disk} {s : Ledger}

theorem create_settled (h : Settled s) (k : Bytes) : Settled (s.create k) := by
  intro k' base ha
  rw [create_content]
  unfold Ledger.create at ha ⊢
  split
  · rw [if_pos (by assumption)] at ha
    exact h k' base ha
  · rw [if_neg (by assumption)] at ha
    by_cases hk : k' = k
    · subst hk
      simp only [Function.update_self,Option.some.injEq] at ha ⊢
      rw [← ha]
      rfl
    · simp only [Function.update_of_ne hk] at ha ⊢
      exact h k' base ha

theorem create_offsets (s : Ledger) (k : Bytes) : (s.create k).offsets = s.offsets := by
  unfold Ledger.create
  split <;> rfl

theorem Settled.durable (h : Settled s) {k : Bytes} {base n : ℕ}
    (hn : n ≤ (s.content k base).length) : Durable s k base n :=
  ⟨hn,fun ha => (h k base ha).symm ▸ hn⟩

theorem onDisk_kept (cfg : SegmentConfig) (hd : d.Healthy) (hs : Shelved root d)
    (hshort : Short root d) :
    Kept root cfg ⟨newHandler ⟨root,cfg,∅⟩,d,fun _ => 0⟩ (onDisk root d) where
  represents := ⟨hd,rfl,rfl,fun _ => .shut rfl,hshort,rfl,rfl⟩
  shelved := hs
  listed := fun _ h => by cases h

theorem loadPartitions_cons (bs : BrokerStore) (name : Bytes) (names : List Bytes) (d : Disk) :
    loadPartitions bs (name::names) d =
      match decodeName name with
      | none => loadPartitions bs names d
      | some tp =>
          match openPartitionStore (joinPath bs.rootDir name) bs.cfg d with
          | (.error e,d) => (.error (.wrap "storage: broker store load %q" e),d)
          | (.ok ps,d) => loadPartitions (bs.put tp.topic tp.partition ps) names d := by
  rw [loadPartitions,decodeName]
  cases partitionDirRe name with
  | none => rfl
  | some x =>
      simp only
      cases parseInt32 x.2 <;> rfl

/-- Loading opens the listed partitions one after another. -/
theorem loadPartitions_kept {names : List Bytes} {bs : BrokerStore} {cache : OffsetCache}
    {opened : Bytes → ℕ} (h : Kept root cfg ⟨⟨cache,bs⟩,d,opened⟩ s) (hn : names.Nodup)
    (hlist : ∀ k ∈ names, k ∈ d.subdirectories root)
    (hnew : ∀ k ∈ names, bs.stores.lookup k = none) (hs : Settled s) :
    ∃ bs' e t, loadPartitions bs names d = (.ok bs',e) ∧
      Kept root cfg ⟨⟨cache,bs'⟩,e,opened⟩ t ∧ Settled t ∧ t.offsets = s.offsets ∧
      (∀ k b, t.content k b = s.content k b) ∧ (∀ k, (s.active k).isSome → (t.active k).isSome) ∧
      ∀ k ∈ names, (decodeName k).isSome → (t.active k).isSome := by
  induction names generalizing bs d s with
  | nil =>
      exact ⟨bs,d,s,rfl,h,hs,rfl,fun _ _ => rfl,fun _ hk => hk,fun k hk => by cases hk⟩
  | cons name names ih =>
      obtain ⟨hnot,hnd⟩ := List.nodup_cons.mp hn
      obtain ⟨hl,hlists⟩ := List.forall_mem_cons.mp hlist
      obtain ⟨hname,hnews⟩ := List.forall_mem_cons.mp hnew
      obtain ⟨topic,partition,ht,rfl⟩ := h.shelved.named name hl
      rw [loadPartitions_cons]
      cases hdec : decodeName (partitionKey topic partition) with
      | none =>
          obtain ⟨bs',e,t,hload,hk,hset,ho,hc,hmono,hopen⟩ := ih h hnd hlists hnews hs
          refine ⟨bs',e,t,hload,hk,hset,ho,hc,hmono,List.forall_mem_cons.mpr ⟨?_,hopen⟩⟩
          intro hx
          rw [hdec] at hx
          cases hx
      | some tp =>
          have hkey : partitionKey tp.topic tp.partition = partitionKey topic partition :=
            (decodeName_printed ht hdec).1
          have hdir : joinPath bs.rootDir (partitionKey topic partition) =
              root++[partitionKey topic partition] := by
            rw [show bs.rootDir = root from h.represents.rooted]
            exact partitionDir_single ht root partition
          have hcfg : bs.cfg = cfg := h.represents.config
          have hshut : bs.stores.lookup (partitionKey tp.topic tp.partition) = none := by
            rw [hkey]
            exact hname
          obtain ⟨ps,d₁,ho₁,hdirs,hr₁⟩ := h.represents.opens h.represents.healthy rfl hshut
          rw [hkey] at ho₁ hr₁
          have hk₁ : Kept root cfg ⟨⟨cache,bs.put tp.topic tp.partition ps⟩,d₁,opened⟩
              (s.create (partitionKey topic partition)) := by
            refine ⟨hr₁,h.shelved.of_dirs hdirs,fun k hk => ?_⟩
            rw [Disk.subdirectories_of_dirs hdirs]
            rcases (create_isSome s _ k).mp hk with rfl|hk
            · exact hl
            · exact h.listed k hk
          obtain ⟨bs',e,t,hload,hk,hset,ho,hc,hmono,hopen⟩ := ih hk₁ hnd
            (fun k hk => by rw [Disk.subdirectories_of_dirs hdirs]; exact hlists k hk)
            (fun k hk => by
              rw [put_lookup_ne _ (by rw [hkey]; rintro rfl; exact hnot hk)]
              exact hnews k hk)
            (create_settled hs _)
          refine ⟨bs',e,t,?_,hk,hset,ho.trans (create_offsets s _),
            fun k b => by rw [hc,create_content],fun k hx => hmono k ?_,
            List.forall_mem_cons.mpr ⟨fun _ => hmono _ ?_,hopen⟩⟩
          · simp only [hdir,hcfg,ho₁,hload]
          · exact (create_isSome s _ k).mpr (.inr hx)
          · exact (create_isSome s _ _).mpr (.inl rfl)

/-- A broker opens the partitions that it finds, with what their files hold. -/
theorem openBrokerStore_kept (cfg : SegmentConfig) (hd : d.Healthy) (hs : Shelved root d)
    (hshort : Short root d) :
    ∃ bs e s, openBrokerStore root cfg d = (.ok bs,e) ∧
      Kept root cfg ⟨newHandler bs,e,fun _ => 0⟩ s ∧ Settled s ∧ s.offsets = (fun _ => none) ∧
      (∀ k b, s.content k b = (segments (root++[k]) d b).getD []) ∧
      ∀ k ∈ d.subdirectories root, (decodeName k).isSome → (s.active k).isSome := by
  have hperm := List.perm_insertionSort (·≤·) (d.subdirectories root)
  obtain ⟨bs,e,s,hload,hk,hset,ho,hc,-,hopen⟩ := loadPartitions_kept
    (onDisk_kept cfg hd hs hshort) (hperm.nodup_iff.mpr hs.nodup)
    (fun k hk => hperm.mem_iff.mp hk) (fun k _ => rfl) (fun k base hx => by cases hx)
  refine ⟨bs,e,s,?_,hk,hset,ho,hc,fun k hk => hopen k (hperm.mem_iff.mpr hk)⟩
  simp only [openBrokerStore,readDir,Disk.next_healthy hd,if_pos hs.isDir]
  exact hload

theorem hydrate_disk (hd : d.Healthy) (fuel : ℕ) (r : SectionReader) (cache : OffsetCache) :
    (hydrate fuel r cache d).2.2 = d := by
  induction fuel generalizing r cache with
  | zero => rfl
  | succ fuel ih =>
      have hidle := (r.readFull_idle 4 d).eq_of_healthy hd
      rw [hydrate]
      rcases hr : r.readFull 4 d with ⟨x,r₁,d₁⟩
      rw [hr] at hidle
      obtain rfl : d₁ = d := hidle
      cases x with
      | error e =>
          simp only
          split <;> rfl
      | ok lenBuf =>
          have hidle₂ := (r₁.readFull_idle (uint lenBuf) d₁).eq_of_healthy hd
          simp only
          rcases hb : r₁.readFull (uint lenBuf) d₁ with ⟨y,r₂,d₂⟩
          rw [hb] at hidle₂
          obtain rfl : d₂ = d₁ := hidle₂
          cases y with
          | error e => rfl
          | ok record =>
              simp only
              split <;> exact ih _ _

/-- What is replayed from whole records they say. -/
theorem replay_spelled {P : Bytes → Prop} {xs : List Bytes} (h : ∀ x ∈ xs, P x) :
    Spelled P (replay (fun _ => none) (recordWrites xs)) := by
  intro key offset hk
  rw [replay_eq_lastValue] at hk
  obtain ⟨x,hx,hw⟩ := List.mem_filterMap.mp (mem_of_lastValue hk)
  refine ⟨x,h x hx,?_⟩
  unfold recordWrite at hw
  split at hw
  · rename_i hdec
    rw [hdec,Option.some.inj hw]
  · cases hw

theorem single_offsets : Single ConsumerOffsetsTopic := by
  rw [Single]
  decide +kernel

/-- Replaying what was read of the log of offsets. -/
theorem hydrate_kept {bs : BrokerStore} {opened : Bytes → ℕ} {ps qs : PartitionStore} {m n : Int32}
    {r : SectionReader} {cache : OffsetCache} (hk : Kept root cfg ⟨⟨cache,bs⟩,d,opened⟩ s)
    (hs : Settled s) (hl : bs.stores.lookup offsetsName = some ps)
    (hread : ps.read 0 m d = (.ok (r,n),qs,e)) (fuel : ℕ) :
    ∃ t, Kept root cfg ⟨⟨(hydrate fuel r cache e).2.1,bs.put ConsumerOffsetsTopic 0 qs⟩,
        (hydrate fuel r cache e).2.2,opened⟩ t ∧ Settled t ∧ t.files = s.files ∧
      t.active = s.active := by
  obtain ⟨base,hact,-,hdir,hcfg,hf,-⟩ := hk.represents.log_of_lookup hl
  have heq := PartitionStore.read_eq ps 0 m d
  rw [hf.size] at heq
  cases hrange : readRange (Int64.ofNat
      (⟨s.files offsetsName,base⟩ : Rolling UInt8).active.length) 0 m with
  | error x =>
      rw [hrange,hread] at heq
      cases heq
  | ok k =>
      obtain ⟨qs',e',hread',hqd,hqc,hq,hcontent,hw⟩ := read_of_follows hf hrange
      cases hread.symm.trans hread'
      have hact' : s.active (partitionKey ConsumerOffsetsTopic 0) = some base := hact
      have hk₁ := hk.represents.keep hact' (hqd.trans hdir) (hqc.trans hcfg) hq (hdir ▸ hw.files)
      have hpath : qs.active.file.path = ps.active.file.path := by rw [hq.path,hf.path,hqd]
      rw [hpath] at hcontent
      have he : e.Healthy := hk₁.healthy
      rw [hydrate_disk he]
      refine ⟨{s with
        written := Function.update s.written offsetsName (e.content qs.active.file.path).length
        offsets := (hydrate fuel ⟨ps.active.file,(UInt64.toInt64 0).toInt,
          (UInt64.toInt64 0).toInt+n.toInt⟩ cache e).2.1},
        ⟨⟨hk₁.healthy,hk₁.rooted,hk₁.config,hk₁.stored,hk₁.small,hk₁.opened,rfl⟩,
          hk.shelved.of_dirs hw.dirs,fun k hx => ?_⟩,fun k b ha => ?_,rfl,rfl⟩
      · rw [Disk.subdirectories_of_dirs hw.dirs]
        exact hk.listed k hx
      · have ha : s.active k = some b := ha
        by_cases hko : k = offsetsName
        · subst hko
          obtain rfl := Option.some.inj (hact.symm.trans ha)
          simp only [Function.update_self,hpath,hcontent]
          rfl
        · simp only [Function.update_of_ne hko]
          exact hs k b ha

/-- Loading the cache keeps the log, and finds what its records say. -/
theorem loadOffsetsCache_kept {bs : BrokerStore} {h : Handler} {opened : Bytes → ℕ}
    (hk : Kept root cfg ⟨newHandler bs,d,opened⟩ s) (hs : Settled s)
    (hload : loadOffsetsCache (newHandler bs) d = (none,h,e)) :
    ∃ t, Kept root cfg ⟨h,e,opened⟩ t ∧ Settled t ∧ (∀ P, Logs P t → Spelled P t.offsets) ∧
      (∀ k b, t.content k b = s.content k b) ∧
      ∀ k, (s.active k).isSome → (t.active k).isSome := by
  obtain ⟨-,hk₁⟩ := hk.create single_offsets 0
  have hset₁ := create_settled hs offsetsName
  have hmono (k : Bytes) (hx : (s.active k).isSome) : ((s.create offsetsName).active k).isSome :=
    (create_isSome s _ k).mpr (.inr hx)
  rw [respond] at hk₁
  rcases hg : (newHandler bs).store.getOrCreatePartition ConsumerOffsetsTopic 0 d with ⟨x,bs',d₁⟩
  simp only [hg] at hk₁
  have hloaded := hload
  unfold loadOffsetsCache at hload
  simp only [hg] at hload
  cases x with
  | error x => cases hload
  | ok ps =>
      have hl : bs'.stores.lookup offsetsName = some ps := lookup_of_ok hg
      -- the offsets depend on the records of the first file only
      have hspelled (P : Bytes → Prop) (hlogs : Logs P s) : Spelled P h.offsetCache := by
        obtain ⟨base,-,-,-,-,hf,-⟩ := hk₁.represents.log_of_lookup hl
        obtain ⟨xs,hxs,hP⟩ := hlogs base
        rw [← create_content s offsetsName offsetsName base] at hxs
        obtain ⟨err,h',e',hload',hcache,-⟩ := loadOffsetsCache_records
          (fun x hx => (hP x hx).1) hg hf.holds hxs (hk₁.represents.small _ _ _ hf.present)
        cases hloaded.symm.trans hload'
        rw [hcache]
        exact replay_spelled fun x hx => (hP x ((Rolling.fitting_sublist _ _ _ _).subset hx)).2
      simp only at hload hk₁
      split at hload
      · cases hload
        refine ⟨_,hk₁,hset₁,fun P hP => ?_,create_content s _,hmono⟩
        rw [← hk₁.represents.offsets]
        exact hspelled P fun base => by rw [← create_content s offsetsName]; exact hP base
      · generalize (if ps.Size > 2147483647 then 2147483647 else ps.Size.toInt32) = m at hload
        rcases hread : ps.read 0 m d₁ with ⟨x,qs,d₂⟩
        rw [hread] at hload
        cases x with
        | error x => cases hload
        | ok x =>
            obtain ⟨t,ht,hset,hfiles,hactive⟩ := hydrate_kept hk₁ hset₁ hl hread
              ((x.1.limit-x.1.pos).toNat+1)
            have hcontent (k : Bytes) (b : ℕ) : t.content k b = s.content k b := by
              rw [Ledger.content,hfiles]
              exact create_content s _ k b
            simp only at hload
            obtain ⟨-,hload⟩ := Prod.mk.inj hload
            obtain ⟨rfl,rfl⟩ := Prod.mk.inj hload
            refine ⟨t,ht,hset,fun P hP => ?_,hcontent,fun k hx => ?_⟩
            · rw [← ht.represents.offsets]
              exact hspelled P fun base => by rw [← hcontent]; exact hP base
            · rw [hactive]
              exact hmono k hx

/-- A broker that starts over files has what they hold. -/
theorem boot_kept (hd : d.Healthy) (hs : Shelved root d) (hshort : Short root d)
    {h : Handler} (hboot : boot root cfg d = .ok (h,e)) :
    ∃ s, Kept root cfg ⟨h,e,fun _ => 0⟩ s ∧ Settled s ∧ (∀ P, Logs P s → Spelled P s.offsets) ∧
      (∀ k b, s.content k b = (segments (root++[k]) d b).getD []) ∧
      ∀ k ∈ d.subdirectories root, (decodeName k).isSome → (s.active k).isSome := by
  obtain ⟨bs,d₁,s,ho,hk,hset,-,hc,hopen⟩ := openBrokerStore_kept cfg hd hs hshort
  unfold boot at hboot
  rw [ho] at hboot
  rcases hload : loadOffsetsCache (newHandler bs) d₁ with ⟨x,h',d₂⟩
  simp only [hload] at hboot
  cases x with
  | some x => cases hboot
  | none =>
      cases hboot
      obtain ⟨t,ht,hset',hspelled,hc',hmono⟩ := loadOffsetsCache_kept hk hset hload
      exact ⟨t,ht,hset',hspelled,fun k b => (hc' k b).trans (hc k b),
        fun k hk hx => hmono k (hopen k hk hx)⟩

end Starting

/-! ## Stopping -/

/-- The broker was closed. -/
def Stopped (b : Shared) (d : Disk) : Prop := b.handler.store.close b.disk = (none,d)

/-- The broker is gone without having been closed. Of every active segment its
file has at least what it had, and maybe more of what was in the buffer; its
index may hold anything. -/
structure Crashed (b : Shared) (d : Disk) : Prop where
  healthy : d.Healthy
  dirs : d.dirs = b.disk.dirs
  cut : ∀ k ps, b.handler.store.stores.lookup k = some ps →
    ∃ n, (b.disk.content ps.active.file.path).length ≤ n ∧
      d.files.lookup ps.active.file.path = some ((ps.active.bytes b.disk).take n)
  rest : ∀ p : Path, (∀ k ps, b.handler.store.stores.lookup k = some ps →
    p ≠ ps.active.file.path ∧ p ≠ ps.active.idx.file.path) →
      d.files.lookup p = b.disk.files.lookup p

section Stopping
variable {root : List Bytes} {cfg : SegmentConfig} {b : Shared} {d e : Disk} {s : Ledger}

/-- Closing leaves every log on the disk. -/
theorem closeAll_segments (root : List Bytes) (files : Bytes → ℕ → Option Bytes)
    {l : List (Sigma fun _ : Bytes => PartitionStore)} (hd : d.Healthy)
    (hk : (l.map Sigma.fst).Nodup)
    (h : ∀ x ∈ l, x.2.dir = root++[x.1] ∧ ∃ base, Follows x.2 d ⟨files x.1,base⟩)
    (hs : ∀ k, k ∉ l.map Sigma.fst → segments (root++[k]) d = files k) :
    ∃ e, closeAll l d = (none,e) ∧ e.Healthy ∧ e.dirs = d.dirs ∧
      ∀ k, segments (root++[k]) e = files k := by
  induction l generalizing d with
  | nil => exact ⟨d,rfl,hd,rfl,fun k => hs k (List.not_mem_nil)⟩
  | cons x l ih =>
      obtain ⟨⟨hdir,base,hf⟩,hl⟩ := List.forall_mem_cons.mp h
      obtain ⟨hnot,hnd⟩ := List.nodup_cons.mp hk
      obtain ⟨u,d₁,hc,hd₁,hdirs,hseg⟩ := hf.close
      have hw := (segmentClose_within (housed_of_follows hf) d).1
      rw [hc,hdir] at hw
      have hstep : ∀ y ∈ l, y.2.dir = root++[y.1] ∧ ∃ base, Follows y.2 d₁ ⟨files y.1,base⟩ := by
        intro y hy
        obtain ⟨hyd,base',hy'⟩ := hl y hy
        refine ⟨hyd,base',hw.files.follows hy' ?_⟩
        rw [hyd]
        exact dir_ne root fun heq => hnot (heq ▸ List.mem_map_of_mem hy)
      have hrest : ∀ k, k ∉ l.map Sigma.fst → segments (root++[k]) d₁ = files k := by
        intro k hkl
        by_cases hkx : k = x.1
        · subst hkx
          rw [← hdir]
          exact hseg
        · rw [← hs k (by simp only [List.map_cons,List.mem_cons,not_or]; exact ⟨hkx,hkl⟩)]
          funext c
          exact hw.lookup (logPath (root++[k]) c) (dir_ne root hkx)
      obtain ⟨e,hclose,he,hed,hall⟩ := ih hd₁ hnd hstep hrest
      refine ⟨e,?_,he,hed.trans hdirs,hall⟩
      simp only [closeAll,PartitionStore.close,hc,hclose]
      rfl

theorem Kept.stopped (h : Kept root cfg b s) (hd : Stopped b d) :
    d.Healthy ∧ Shelved root d ∧ d.subdirectories root = b.disk.subdirectories root ∧
      ∀ k, segments (root++[k]) d = s.files k := by
  obtain ⟨e,hc,he,hdirs,hseg⟩ := closeAll_segments root s.files
    h.represents.healthy b.handler.store.stores.keys_nodup
    (fun x hx => by
      obtain ⟨base,-,-,hdir,-,hf,-⟩ := h.represents.log_of_lookup (AList.mem_lookup_iff.mpr hx)
      exact ⟨hdir,base,hf⟩)
    (fun k hk => (h.represents.log_of_none (AList.lookup_eq_none.mpr hk)).2.2)
  cases hd.symm.trans hc
  exact ⟨he,h.shelved.of_dirs hdirs,Disk.subdirectories_of_dirs hdirs root,hseg⟩

/-- A file that is not active is not touched by a crash. -/
theorem Kept.crashed_shut (h : Kept root cfg b s) (hd : Crashed b d) {k : Bytes} {base : ℕ}
    (ha : s.active k ≠ some base) : segments (root++[k]) d base = s.files k base := by
  have hrest : d.files.lookup (logPath (root++[k]) base) =
      b.disk.files.lookup (logPath (root++[k]) base) := by
    refine hd.rest _ fun k' ps hl => ?_
    obtain ⟨base',hact,-,hdir,-,hf,-⟩ := h.represents.log_of_lookup hl
    rw [hf.path,hf.idxPath,hdir]
    refine ⟨fun heq => ?_,logPath_ne_indexPath _ _ _ _⟩
    have hk : k = k' := by simpa [logPath] using congrArg Path.dir heq
    subst hk
    rw [logPath_injective _ heq] at ha
    exact ha hact
  rw [segments,hrest]
  cases hl : b.handler.store.stores.lookup k with
  | none => exact congrFun (h.represents.log_of_none hl).2.2 base
  | some ps =>
      obtain ⟨base',hact,-,hdir,-,hf,-⟩ := h.represents.log_of_lookup hl
      have ho := hf.others base fun heq => ha (by rw [heq]; exact hact)
      rw [hdir] at ho
      exact ho

/-- A crash may cut the active file of a partition, and only behind what is
durable. -/
theorem Kept.crashed (h : Kept root cfg b s) (hd : Crashed b d) (k : Bytes) :
    ∃ n, s.written k ≤ n ∧ ∀ base, segments (root++[k]) d base =
      if s.active k = some base then some ((s.content k base).take n) else s.files k base := by
  cases hl : b.handler.store.stores.lookup k with
  | none =>
      obtain ⟨ha,-,-⟩ := h.represents.log_of_none hl
      refine ⟨s.written k,le_rfl,fun base => ?_⟩
      have hne : s.active k ≠ some base := by rw [ha]; nofun
      rw [if_neg hne]
      exact h.crashed_shut hd hne
  | some ps =>
      obtain ⟨base',hact,-,hdir,-,hf,hw⟩ := h.represents.log_of_lookup hl
      obtain ⟨n,hn,hcut⟩ := hd.cut k ps hl
      rw [hf.holds.bytes,hf.path,hdir] at hcut
      refine ⟨n,hw ▸ hn,fun base => ?_⟩
      by_cases hb : s.active k = some base
      · obtain rfl := Option.some.inj (hact.symm.trans hb)
        rw [if_pos hb]
        exact hcut
      · rw [if_neg hb]
        exact h.crashed_shut hd hb

end Stopping

end Kage.BootedBroker
