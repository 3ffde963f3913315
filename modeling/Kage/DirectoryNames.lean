import Kage.DirectoryFrames
import Kage.PartitionNames

/-!
# Directory names spell the partitions

A directory is named by printing a topic and a number, and read back by a
pattern and a number parser. For topics without a separator or a line feed and
numbers that are not negative the name is decoded to the pair it was printed
from, whatever dashes and digits the topic holds.

`Created` describes a broker after some partitions were created on an empty
root. From it follow the list of topics, the lookup by printed key, and what
opening the same root again finds.
-/
namespace Kage.DirectoryNames
open ByteStrings DecimalText FaultyDisk SegmentLog PartitionLog BrokerStores PartitionNames
open DirectoryFrames

/-- A topic that names a single component, and a partition that exists. -/
structure Plain (tp : TopicPartition) : Prop where
  nonempty : tp.topic ≠ []
  separator : 47 ∉ tp.topic
  lineFeed : 10 ∉ tp.topic
  number : 0 ≤ tp.partition.toInt

/-- The pair that a directory name spells. -/
def decodeName (name : Bytes) : Option TopicPartition :=
  match partitionDirRe name with
  | none => none
  | some (topic,digits) =>
      match parseInt32 digits with
      | none => none
      | some partition => some ⟨topic,partition⟩

/-- Create the partitions one after another. -/
def createAll (bs : BrokerStore) (d : Disk) :
    List TopicPartition → Except Err (List PartitionStore) × BrokerStore × Disk
  | [] => (.ok [],bs,d)
  | tp::tps =>
      match bs.getOrCreatePartition tp.topic tp.partition d with
      | (.error e,bs,d) => (.error e,bs,d)
      | (.ok ps,bs,d) =>
          match createAll bs d tps with
          | (.error e,bs,d) => (.error e,bs,d)
          | (.ok stores,bs,d) => (.ok (ps::stores),bs,d)

section Names
variable {tp : TopicPartition}

theorem partitionDirRe_keyOf (h : Plain tp) :
    partitionDirRe (keyOf tp) = some (tp.topic,decimal tp.partition.toInt.natAbs) := by
  have hdash : isDigit 45 = false := by decide
  rw [partitionDirRe,keyOf,partitionKey_of_nonneg h.number,
    dropWhile_digits hdash (isDigit_decimal _),takeWhile_digits hdash (isDigit_decimal _)]
  simp only [List.reverse_reverse]
  rw [if_neg (by simp [decimal_ne_nil,h.nonempty,h.lineFeed])]

theorem parseInt32_decimal (h : Plain tp) :
    parseInt32 (decimal tp.partition.toInt.natAbs) = some tp.partition := by
  have hlt := tp.partition.toInt_lt
  have hn := h.number
  rw [parseInt32,spell_decimal,if_pos (by omega)]
  congr 1
  apply Int32.toInt_inj.mp
  rw [Int32.toInt_ofNat_of_lt (by omega)]
  omega

theorem decodeName_keyOf (h : Plain tp) : decodeName (keyOf tp) = some tp := by
  rw [decodeName,partitionDirRe_keyOf h]
  simp only [parseInt32_decimal h]

theorem decodeName_keys {tps : List TopicPartition} (h : ∀ tp ∈ tps, Plain tp) :
    (tps.map keyOf).filterMap decodeName = tps := by
  induction tps with
  | nil => rfl
  | cons tp tps ih =>
      rw [List.map_cons,List.filterMap_cons_some (decodeName_keyOf (h tp (by simp))),
        ih fun a ha => h a (by simp [ha])]

theorem keyOf_inj {a b : TopicPartition} (ha : Plain a) (hb : Plain b) (h : keyOf a = keyOf b) :
    a = b := by
  have hd := decodeName_keyOf ha
  rw [h,decodeName_keyOf hb] at hd
  exact (Option.some_inj.mp hd).symm

theorem joinPath_keyOf (root : List Bytes) (h : Plain tp) :
    joinPath root (keyOf tp) = root++[keyOf tp] := by
  rw [keyOf,joinPath_partitionKey,lead_of_not_mem h.separator,leaf_of_not_mem h.separator]
  rfl

/-- A new key comes first. -/
theorem put_keys (bs : BrokerStore) (ps : PartitionStore) (h : keyOf tp ∉ bs.stores.keys) :
    (bs.put tp.topic tp.partition ps).stores.keys = keyOf tp::bs.stores.keys := by
  have hm : partitionKey tp.topic tp.partition ∉ bs.stores := h
  rw [BrokerStore.put,AList.keys,AList.entries_insert_of_notMem hm]
  rfl

end Names

/-- A broker whose partitions were created on this root, and nothing else. -/
structure Created (root : List Bytes) (cfg : SegmentConfig) (bs : BrokerStore) (d : Disk)
    (tps : List TopicPartition) : Prop where
  healthy : d.Healthy
  isDir : root ∈ d.dirs
  rooted : bs.rootDir = root
  config : bs.cfg = cfg
  plain : ∀ tp ∈ tps, Plain tp
  keys : bs.stores.keys = tps.map keyOf
  listed : (d.subdirectories root).Perm (tps.map keyOf)
  stores : ∀ k ps, bs.stores.lookup k = some ps → ps.dir = root++[k] ∧ ∃ r, Follows ps d r

section Creation
variable {root : List Bytes} {cfg : SegmentConfig} {bs : BrokerStore} {d : Disk}
variable {tps : List TopicPartition} {tp : TopicPartition}

theorem Created.start (hd : d.Healthy) (hr : root ∈ d.dirs) (hs : d.subdirectories root = []) :
    Created root cfg ⟨root,cfg,∅⟩ d [] where
  healthy := hd
  isDir := hr
  rooted := rfl
  config := rfl
  plain := by simp
  keys := rfl
  listed := by
    rw [hs]
    exact .nil
  stores := fun k ps h => by cases h

theorem Created.lookup_isSome (h : Created root cfg bs d tps) (htp : Plain tp) :
    (bs.stores.lookup (keyOf tp)).isSome ↔ tp ∈ tps := by
  rw [AList.lookup_isSome,AList.mem_keys,h.keys,List.mem_map]
  constructor
  · rintro ⟨a,ha,hk⟩
    rwa [← keyOf_inj (h.plain a ha) htp hk]
  · exact fun hm => ⟨tp,hm,rfl⟩

/-- A partition that is not there yet is created beside the others. -/
theorem Created.fresh (h : Created root cfg bs d tps) (htp : Plain tp) (hnew : tp ∉ tps) :
    ∃ ps e, bs.getOrCreatePartition tp.topic tp.partition d =
        (.ok ps,bs.put tp.topic tp.partition ps,e) ∧
      Created root cfg (bs.put tp.topic tp.partition ps) e (tp::tps) := by
  have hnone : bs.stores.lookup (keyOf tp) = none := by
    rw [← Option.not_isSome_iff_eq_none,h.lookup_isSome htp]
    exact hnew
  have hkey : keyOf tp ∉ bs.stores.keys := by
    rw [← AList.mem_keys,← AList.lookup_isSome,hnone]
    exact Bool.false_ne_true
  have hsub : keyOf tp ∉ d.subdirectories root := by
    rw [h.listed.mem_iff,← h.keys]
    exact hkey
  have hdir : bs.partitionDir tp.topic tp.partition = root++[keyOf tp] := by
    rw [BrokerStore.partitionDir,h.rooted]
    exact joinPath_keyOf root htp
  obtain ⟨d₁,hm,hd₁,hr₁,hs₁,hf₁⟩ := Disk.mkdirAll_below h.healthy h.isDir hsub
  obtain ⟨ps,e,ho,hpd,-,-,hdirs,hf⟩ := openPartitionStore_follows hd₁ (root++[keyOf tp]) cfg
  have hw : FilesWithin (root++[keyOf tp]) d e := by
    have hfm := mkdirAll_files (root++[keyOf tp]) (root++[keyOf tp]) d
    have hfo := (openPartitionStore_within (root++[keyOf tp]) cfg d₁).1
    rw [hm] at hfm
    rw [ho] at hfo
    exact hfm.trans hfo.files
  refine ⟨ps,e,?_,hf.holds.healthy,?_,h.rooted,h.config,?_,?_,?_,?_⟩
  · rw [keyOf] at hnone
    simp only [BrokerStore.getOrCreatePartition,hnone,hdir,hm,h.config,ho]
  · rw [hdirs]
    exact hr₁
  · exact List.forall_mem_cons.mpr ⟨htp,h.plain⟩
  · rw [put_keys bs ps hkey,h.keys]
    rfl
  · rw [Disk.subdirectories_of_dirs hdirs,hs₁]
    exact (List.perm_append_singleton _ _).trans (h.listed.cons _)
  · intro k qs hk
    by_cases hkt : k = keyOf tp
    · subst hkt
      rw [keyOf,put_lookup] at hk
      obtain rfl := Option.some_inj.mp hk
      exact ⟨hpd,_,hf⟩
    · rw [put_lookup_ne bs hkt] at hk
      obtain ⟨hq,r,hr⟩ := h.stores k qs hk
      refine ⟨hq,r,hw.follows hr ?_⟩
      rw [hq]
      simpa using hkt

/-- Asking for a partition finds or creates its store and moves no other. -/
theorem Created.get (h : Created root cfg bs d tps) (htp : Plain tp) :
    ∃ ps bs' e, bs.getOrCreatePartition tp.topic tp.partition d = (.ok ps,bs',e) ∧
      Created root cfg bs' e (tps.insert tp) ∧ bs'.stores.lookup (keyOf tp) = some ps ∧
      ∀ k qs, bs.stores.lookup k = some qs → bs'.stores.lookup k = some qs := by
  by_cases hm : tp ∈ tps
  · obtain ⟨ps,hps⟩ := Option.isSome_iff_exists.mp ((h.lookup_isSome htp).mpr hm)
    rw [List.insert_of_mem hm]
    exact ⟨ps,bs,d,getOrCreatePartition_of_lookup hps,h,hps,fun _ _ hq => hq⟩
  · obtain ⟨ps,e,hg,hc⟩ := h.fresh htp hm
    rw [List.insert_of_not_mem hm]
    refine ⟨ps,_,e,hg,hc,put_lookup bs _ _ ps,fun k qs hq => ?_⟩
    rwa [put_lookup_ne bs]
    rintro rfl
    rw [← h.lookup_isSome htp,keyOf,hq] at hm
    exact hm rfl

theorem Created.createAll (h : Created root cfg bs d tps) {pairs : List TopicPartition}
    (hp : ∀ tp ∈ pairs, Plain tp) :
    ∃ stores bs' e tps', DirectoryNames.createAll bs d pairs = (.ok stores,bs',e) ∧
      Created root cfg bs' e tps' ∧ (∀ tp, tp ∈ tps' ↔ tp ∈ tps ∨ tp ∈ pairs) ∧
      List.Forall₂ (fun tp ps => bs'.stores.lookup (keyOf tp) = some ps) pairs stores ∧
      ∀ k qs, bs.stores.lookup k = some qs → bs'.stores.lookup k = some qs := by
  induction pairs generalizing bs d tps with
  | nil => exact ⟨[],bs,d,tps,rfl,h,by simp,.nil,fun _ _ hq => hq⟩
  | cons tp pairs ih =>
      obtain ⟨htp,hrest⟩ := List.forall_mem_cons.mp hp
      obtain ⟨ps,bs₁,d₁,hg,hc,hl,hk⟩ := h.get htp
      obtain ⟨stores,bs₂,d₂,tps₂,ha,hc₂,hm,hf,hk₂⟩ := ih hc hrest
      refine ⟨ps::stores,bs₂,d₂,tps₂,?_,hc₂,fun a => ?_,.cons (hk₂ _ _ hl) hf,?_⟩
      · simp only [DirectoryNames.createAll,hg,ha]
      · rw [hm,List.mem_insert_iff,List.mem_cons]
        tauto
      · exact fun k qs hq => hk₂ k qs (hk k qs hq)

end Creation

section Listing
variable {root : List Bytes} {cfg : SegmentConfig} {bs : BrokerStore} {d : Disk}
variable {tps : List TopicPartition}

/-- When each store lies directly below the root under its key, the listing
decodes the keys. -/
theorem topics_of_dirs (h : ∀ k ps, bs.stores.lookup k = some ps → ps.dir = root++[k]) :
    bs.topics = bs.stores.keys.filterMap decodeName := by
  rw [BrokerStore.topics,AList.keys,List.keys,List.filterMap_map]
  apply List.filterMap_congr
  rintro ⟨k,ps⟩ hm
  have hd := h k ps (AList.mem_lookup_iff.mpr hm)
  have hb : baseName ps.dir = k := by
    rw [hd,baseName,List.getLastD_concat]
  change decodeName (baseName ps.dir) = decodeName k
  rw [hb]

theorem Created.topics (h : Created root cfg bs d tps) : bs.topics = tps := by
  rw [topics_of_dirs fun k ps hk => (h.stores k ps hk).1,h.keys,decodeName_keys h.plain]

theorem Created.nodup (h : Created root cfg bs d tps) : tps.Nodup := by
  apply List.Nodup.of_map keyOf
  rw [← h.keys]
  exact bs.stores.keys_nodup

end Listing

section Reopening
variable {root : List Bytes} {cfg : SegmentConfig} {bs : BrokerStore} {d : Disk}
variable {tps : List TopicPartition}

/-- Stores in directories of their own are closed without disturbing each other. -/
theorem closeAll_follows {l : List (Sigma fun _ : Bytes => PartitionStore)} (hd : d.Healthy)
    (hk : (l.map Sigma.fst).Nodup)
    (h : ∀ x ∈ l, x.2.dir = root++[x.1] ∧ ∃ r, Follows x.2 d r) :
    ∃ e, closeAll l d = (none,e) ∧ e.Healthy ∧ e.dirs = d.dirs := by
  induction l generalizing d with
  | nil => exact ⟨d,rfl,hd,rfl⟩
  | cons x l ih =>
      obtain ⟨hx,hl⟩ := List.forall_mem_cons.mp h
      obtain ⟨hdir,r,hf⟩ := hx
      obtain ⟨hnot,hnd⟩ := List.nodup_cons.mp hk
      obtain ⟨s,e,hc,he,hdirs,-⟩ := hf.close
      have hw : Within x.2.dir d e := by
        have hh : Housed x.2.dir x.2.active := ⟨by rw [hf.path]; rfl,by rw [hf.idxPath]; rfl⟩
        have hw := (segmentClose_within hh d).1
        rwa [hc] at hw
      have hstep : ∀ y ∈ l, y.2.dir = root++[y.1] ∧ ∃ r, Follows y.2 e r := by
        intro y hy
        obtain ⟨hyd,r,hr⟩ := hl y hy
        refine ⟨hyd,r,hw.files.follows hr ?_⟩
        rw [hyd,hdir]
        intro heq
        apply hnot
        rw [← (List.append_inj' heq rfl).2 |> List.singleton_inj.mp]
        exact List.mem_map_of_mem hy
      obtain ⟨e₁,hc₁,he₁,hd₁⟩ := ih he hnd hstep
      refine ⟨e₁,?_,he₁,hd₁.trans hdirs⟩
      simp only [closeAll,PartitionStore.close,hc,hc₁]
      rfl

/-- Directories that were named after partitions are all opened. -/
theorem loadPartitions_names {names : List Bytes} (hd : d.Healthy) (hr : bs.rootDir = root)
    (hn : names.Nodup) (hk : ∀ k ∈ names, k ∉ bs.stores.keys)
    (hp : ∀ k ∈ names, ∃ tp, Plain tp ∧ k = keyOf tp)
    (hs : ∀ k ps, bs.stores.lookup k = some ps → ps.dir = root++[k]) :
    ∃ bs' e, loadPartitions bs names d = (.ok bs',e) ∧
      bs'.stores.keys = names.reverse++bs.stores.keys ∧
      ∀ k ps, bs'.stores.lookup k = some ps → ps.dir = root++[k] := by
  induction names generalizing bs d with
  | nil => exact ⟨bs,d,rfl,rfl,hs⟩
  | cons k names ih =>
      obtain ⟨hknot,hnd⟩ := List.nodup_cons.mp hn
      obtain ⟨hknew,hknews⟩ := List.forall_mem_cons.mp hk
      obtain ⟨⟨tp,htp,rfl⟩,hrest⟩ := List.forall_mem_cons.mp hp
      obtain ⟨ps,e,ho,hpd,-,-,-,hf⟩ := openPartitionStore_follows hd (root++[keyOf tp]) bs.cfg
      have hkeys := put_keys bs ps hknew
      have hdirs : ∀ k qs, (bs.put tp.topic tp.partition ps).stores.lookup k = some qs →
          qs.dir = root++[k] := by
        intro k qs hq
        by_cases hkt : k = keyOf tp
        · subst hkt
          rw [keyOf,put_lookup] at hq
          rw [← Option.some_inj.mp hq]
          exact hpd
        · rw [put_lookup_ne bs hkt] at hq
          exact hs k qs hq
      have hnews : ∀ k ∈ names, k ∉ (bs.put tp.topic tp.partition ps).stores.keys := by
        intro k hm
        rw [hkeys,List.mem_cons,not_or]
        refine ⟨?_,hknews k hm⟩
        rintro rfl
        exact hknot hm
      have hroot : (bs.put tp.topic tp.partition ps).rootDir = root := hr
      obtain ⟨bs',e',hl,hk',hd'⟩ := ih hf.holds.healthy hroot hnd hnews hrest hdirs
      refine ⟨bs',e',?_,?_,hd'⟩
      · simp only [loadPartitions,partitionDirRe_keyOf htp,parseInt32_decimal htp,hr,
          joinPath_keyOf root htp,ho,hl]
      · rw [hk',hkeys,List.reverse_cons,List.append_assoc]
        rfl

theorem dirs_congr {bs' : BrokerStore} (hk : bs'.stores.keys.Perm bs.stores.keys)
    (h : ∀ k ps, bs.stores.lookup k = some ps → ps.dir = root++[k])
    (h' : ∀ k ps, bs'.stores.lookup k = some ps → ps.dir = root++[k]) (k : Bytes) :
    (bs'.stores.lookup k).map PartitionStore.dir = (bs.stores.lookup k).map PartitionStore.dir := by
  have hm : (bs'.stores.lookup k).isSome = (bs.stores.lookup k).isSome := by
    rw [Bool.eq_iff_iff,AList.lookup_isSome,AList.lookup_isSome,AList.mem_keys,AList.mem_keys]
    exact hk.mem_iff
  cases hb : bs.stores.lookup k with
  | none =>
      rw [hb,Option.isSome_none,Option.isSome_eq_false_iff,Option.isNone_iff_eq_none] at hm
      rw [hm]
  | some ps =>
      rw [hb] at hm
      obtain ⟨qs,hq⟩ := Option.isSome_iff_exists.mp hm
      rw [hq,Option.map_some,Option.map_some,h k ps hb,h' k qs hq]

theorem Created.reopen (h : Created root cfg bs d tps) :
    ∃ d₁ bs' d₂, bs.close d = (none,d₁) ∧ openBrokerStore root cfg d₁ = (.ok bs',d₂) ∧
      bs'.topics.Perm bs.topics ∧ ∀ k, (bs'.stores.lookup k).map PartitionStore.dir =
        (bs.stores.lookup k).map PartitionStore.dir := by
  have hdir : ∀ k ps, bs.stores.lookup k = some ps → ps.dir = root++[k] :=
    fun k ps hk => (h.stores k ps hk).1
  obtain ⟨d₁,hc,hd₁,hdirs⟩ := closeAll_follows h.healthy bs.stores.keys_nodup fun x hx =>
    h.stores x.1 x.2 (AList.mem_lookup_iff.mpr hx)
  have hlist := h.listed
  rw [← h.keys,← Disk.subdirectories_of_dirs hdirs] at hlist
  have hsort := (List.perm_insertionSort (·≤·) (d₁.subdirectories root)).trans hlist
  have hnames : ∀ k ∈ (d₁.subdirectories root).insertionSort (·≤·),
      ∃ tp, Plain tp ∧ k = keyOf tp := by
    intro k hm
    rw [hsort.mem_iff,h.keys,List.mem_map] at hm
    obtain ⟨tp,htp,rfl⟩ := hm
    exact ⟨tp,h.plain tp htp,rfl⟩
  have hroot : (BrokerStore.mk root cfg ∅).rootDir = root := rfl
  obtain ⟨bs',d₂,hl,hk,hd'⟩ := loadPartitions_names hd₁ hroot
    (hsort.nodup_iff.mpr bs.stores.keys_nodup) (by simp) hnames (by simp)
  have hperm : bs'.stores.keys.Perm bs.stores.keys := by
    rw [hk,show (BrokerStore.mk root cfg ∅).stores.keys = [] from rfl,List.append_nil]
    exact (List.reverse_perm _).trans hsort
  refine ⟨d₁,bs',d₂,hc,?_,?_,dirs_congr hperm hdir hd'⟩
  · simp only [openBrokerStore,readDir,Disk.next_healthy hd₁,hdirs,if_pos h.isDir,hl]
  · rw [topics_of_dirs hdir,topics_of_dirs hd']
    exact hperm.filterMap _

end Reopening

/-- Partitions created on an empty root are listed once each, are found under
their keys, and are found again in the same directories by a new broker. -/
theorem names_round_trip {root : List Bytes} (cfg : SegmentConfig) {d : Disk}
    {pairs : List TopicPartition} (hd : d.Healthy) (hr : root ∈ d.dirs)
    (hs : d.subdirectories root = []) (hp : ∀ tp ∈ pairs, Plain tp) :
    ∃ stores bs d₁, createAll ⟨root,cfg,∅⟩ d pairs = (.ok stores,bs,d₁) ∧
      bs.topics.Nodup ∧ (∀ tp, tp ∈ bs.topics ↔ tp ∈ pairs) ∧
      List.Forall₂ (fun tp ps => bs.stores.lookup (partitionKey tp.topic tp.partition) = some ps ∧
        ps.dir = root++[partitionKey tp.topic tp.partition]) pairs stores ∧
      ∃ d₂ bs' d₃, bs.close d₁ = (none,d₂) ∧ openBrokerStore root cfg d₂ = (.ok bs',d₃) ∧
        bs'.topics.Perm bs.topics ∧ ∀ k, (bs'.stores.lookup k).map PartitionStore.dir =
          (bs.stores.lookup k).map PartitionStore.dir := by
  have hstart : Created root cfg ⟨root,cfg,∅⟩ d [] := Created.start hd hr hs
  obtain ⟨stores,bs,d₁,tps,ha,hc,hm,hf,-⟩ := hstart.createAll hp
  refine ⟨stores,bs,d₁,ha,?_,?_,?_,hc.reopen⟩
  · rw [hc.topics]
    exact hc.nodup
  · intro tp
    rw [hc.topics,hm]
    simp
  · exact hf.imp fun tp ps hl => ⟨hl,(hc.stores _ ps hl).1⟩

/-- Topics that end in dashes and digits. -/
theorem names_round_trip_dashes :
    ∃ stores bs d₁, createAll ⟨[],⟨0⟩,∅⟩ {Disk.blank with dirs := [[]]}
        [⟨ascii "a-1",0⟩,⟨ascii "a",1⟩,⟨ascii "a-",1⟩,⟨ascii "7-07",7⟩] = (.ok stores,bs,d₁) ∧
      bs.topics.Nodup ∧ ⟨ascii "a-",1⟩ ∈ bs.topics := by
  have hplain : ∀ tp ∈ [⟨ascii "a-1",0⟩,⟨ascii "a",1⟩,⟨ascii "a-",1⟩,⟨ascii "7-07",7⟩],
      Plain tp := by
    intro tp htp
    simp only [List.mem_cons,List.not_mem_nil,or_false] at htp
    rcases htp with rfl|rfl|rfl|rfl <;> constructor <;> decide +kernel
  have hroot : [] ∈ ({Disk.blank with dirs := [[]]} : Disk).dirs := by decide
  obtain ⟨stores,bs,d₁,ha,hn,hm,-,-⟩ := names_round_trip ⟨0⟩
    (d := {Disk.blank with dirs := [[]]}) rfl hroot rfl hplain
  exact ⟨stores,bs,d₁,ha,hn,(hm _).mpr (by simp)⟩

end Kage.DirectoryNames
