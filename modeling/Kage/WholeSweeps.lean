import Kage.RetainedRecords
import Kage.ListedTopics

/-!
# A sweep that nobody interrupts

When the cleaner has woken up and only it takes steps, it comes to the end of its
sweep. In every open partition whose name can be read it has then removed the files
with the names of logs that were not modified within the retention time, the one
that is extended excepted, and with each of them the file that has the name of its
index. Every other file, and everything else, is as it was.

The sweep is followed from the inside: over the names of a directory, over the
call for a partition, and over the partitions that were listed. At each level
`Swept` says which names have been looked at.
-/
namespace Kage.WholeSweeps
open ByteStrings FaultyDisk SparseIndex SegmentLog PartitionLog BrokerStores PartitionNames
open DirectoryNames AtomicPrograms BrokerPrograms BrokerLedger LogCleaner
open ListedTopics (Printed)
open RetainedRecords (narrow represents_narrow threeBatches ordinary_threeBatches)
open ConcurrentClients (connections)
open SegmentCleaner (logName indexName suffix_ne indexName_eq)

/-- The cleaner takes some steps. -/
def Sweeps {ι : Type*} (retention : ℤ) (w v : World ι) : Prop :=
  ∃ n, (World.sweep retention)^[n] w = v

section Definitions
variable {ι : Type*}

/-- A file with the name of a log, not of the one that is extended, that was not
modified within the retention time. -/
structure Expired (root : List Bytes) (retention : ℤ) (w : World ι) (t : Ledger)
    (k name : Bytes) : Prop where
  log : ascii ".log" <:+ name
  closed : ∃ base, t.active k = some base ∧ name ≠ logName base
  mem : (⟨root++[k],name⟩ : Path) ∈ w.disk.files
  old : w.modified ⟨root++[k],name⟩+retention ≤ w.clock

/-- The files of the expired names among those that were looked at, and the files
with the names of their indexes. -/
def Gone (root : List Bytes) (retention : ℤ) (w : World ι) (t : Ledger)
    (seen : Bytes → Bytes → Prop) (p : Path) : Prop :=
  ∃ k name, seen k name ∧ Expired root retention w t k name ∧
    (p = ⟨root++[k],name⟩ ∨ p = ⟨root++[k],indexName name⟩)

/-- The cleaner has looked at these names: the files that go with them are gone, and
nothing else has changed. -/
structure Swept (root : List Bytes) (cfg : SegmentConfig) (retention : ℤ) (w v : World ι)
    (t t' : Ledger) (seen : Bytes → Bytes → Prop) : Prop where
  represents : Represents root cfg v.broker.state t'
  active : t'.active = t.active
  same : v = {w.withDisk v.disk with cleaner := v.cleaner, since := v.since}
  dirs : v.disk.dirs = w.disk.dirs
  removed : ∀ p, Gone root retention w t seen p → p ∉ v.disk.files
  kept : ∀ p, ¬Gone root retention w t seen p → v.disk.files.lookup p = w.disk.files.lookup p

end Definitions

section
variable {ι : Type*} {root : List Bytes} {cfg : SegmentConfig} {retention : ℤ}
variable {w u v : World ι} {t t' t'' : Ledger} {seen seen' : Bytes → Bytes → Prop}
variable {k key name : Bytes} {base deleted : ℕ} {c : ℤ} {names : List Bytes}
variable {tps : List TopicPartition}

theorem Sweeps.refl (retention : ℤ) (w : World ι) : Sweeps retention w w := ⟨0,rfl⟩

theorem Sweeps.head (h : Sweeps retention (w.sweep retention) v) : Sweeps retention w v := by
  obtain ⟨n,hn⟩ := h
  exact ⟨n+1,hn⟩

theorem Sweeps.trans (h : Sweeps retention w u) (k : Sweeps retention u v) :
    Sweeps retention w v := by
  obtain ⟨n,rfl⟩ := h
  obtain ⟨m,rfl⟩ := k
  exact ⟨m+n,Function.iterate_add_apply _ m n w⟩

theorem not_log_indexName (h : ascii ".log" <:+ name) : ¬ascii ".log" <:+ indexName name := by
  obtain ⟨stem,hstem⟩ := h
  rw [indexName_eq hstem]
  rintro ⟨front,hfront⟩
  exact suffix_ne hfront

theorem Expired.ne (h : Expired root retention w t k name) (ha : t.active k = some base) :
    name ≠ logName base := by
  obtain ⟨base',ha',hne⟩ := h.closed
  obtain rfl := Option.some.inj (ha.symm.trans ha')
  exact hne

section Sweeping
variable (h : Swept root cfg retention w u t t' seen)
include h

theorem Swept.modified : u.modified = w.modified := by
  rw [h.same]
  rfl

theorem Swept.clock : u.clock = w.clock := by
  rw [h.same]
  rfl

theorem Swept.shrinks {p : Path} (hp : p ∉ w.disk.files) : p ∉ u.disk.files := by
  by_cases hg : Gone root retention w t seen p
  · exact h.removed p hg
  · rw [← Finmap.lookup_eq_none,h.kept p hg,Finmap.lookup_eq_none]
    exact hp

/-- What is left to be removed. -/
theorem Swept.expired_iff : Expired root retention u t' k name ↔
    Expired root retention w t k name ∧ (⟨root++[k],name⟩ : Path) ∈ u.disk.files := by
  constructor
  · rintro ⟨hlog,hclosed,hm,hold⟩
    rw [h.active] at hclosed
    rw [h.modified,h.clock] at hold
    exact ⟨⟨hlog,hclosed,not_imp_not.mp h.shrinks hm,hold⟩,hm⟩
  · rintro ⟨⟨hlog,hclosed,-,hold⟩,hm⟩
    rw [← h.active] at hclosed
    rw [← h.modified,← h.clock] at hold
    exact ⟨hlog,hclosed,hm,hold⟩

/-- A file of an expired name that is missing was removed with that name. -/
theorem Swept.removed_before (hx : Expired root retention w t k name)
    (hm : (⟨root++[k],name⟩ : Path) ∉ u.disk.files) : seen k name := by
  have hg : Gone root retention w t seen ⟨root++[k],name⟩ := by
    by_contra hg
    rw [← Finmap.lookup_eq_none,h.kept _ hg,Finmap.lookup_eq_none] at hm
    exact hm hx.mem
  obtain ⟨k₁,name₁,hseen,hx₁,hp|hp⟩ := hg
  · obtain rfl : name = name₁ := congrArg FaultyDisk.Path.name hp
    obtain rfl : k = k₁ := by simpa using congrArg FaultyDisk.Path.dir hp
    exact hseen
  · obtain rfl : name = indexName name₁ := congrArg FaultyDisk.Path.name hp
    exact (not_log_indexName hx₁.log hx.log).elim

theorem Swept.trans (h' : Swept root cfg retention u v t' t'' seen') :
    Swept root cfg retention w v t t'' fun k name => seen k name ∨ seen' k name where
  represents := h'.represents
  active := h'.active.trans h.active
  same := by
    refine h'.same.trans ?_
    conv_lhs => rw [h.same]
    rfl
  dirs := h'.dirs.trans h.dirs
  removed := by
    rintro p ⟨k,name,hseen,hx,hp⟩
    by_cases hm : (⟨root++[k],name⟩ : Path) ∈ u.disk.files
    · by_cases hfirst : seen k name
      · exact h'.shrinks (h.removed p ⟨k,name,hfirst,hx,hp⟩)
      · exact h'.removed p
          ⟨k,name,hseen.resolve_left hfirst,h.expired_iff.mpr ⟨hx,hm⟩,hp⟩
    · exact h'.shrinks (h.removed p ⟨k,name,h.removed_before hx hm,hx,hp⟩)
  kept := by
    intro p hg
    have hfirst : ¬Gone root retention w t seen p := by
      rintro ⟨k,name,hseen,hx,hp⟩
      exact hg ⟨k,name,.inl hseen,hx,hp⟩
    have hsecond : ¬Gone root retention u t' seen' p := by
      rintro ⟨k,name,hseen,hx,hp⟩
      exact hg ⟨k,name,.inr hseen,(h.expired_iff.mp hx).1,hp⟩
    rw [h'.kept p hsecond,h.kept p hfirst]

/-- Only the expired ones among the names matter. -/
theorem Swept.congr
    (hs : ∀ k name, Expired root retention w t k name → (seen' k name ↔ seen k name)) :
    Swept root cfg retention w u t t' seen' := by
  have hgone (p : Path) : Gone root retention w t seen' p ↔ Gone root retention w t seen p := by
    constructor
    · rintro ⟨k,name,hseen,hx,hp⟩
      exact ⟨k,name,(hs k name hx).mp hseen,hx,hp⟩
    · rintro ⟨k,name,hseen,hx,hp⟩
      exact ⟨k,name,(hs k name hx).mpr hseen,hx,hp⟩
  exact ⟨h.represents,h.active,h.same,h.dirs,fun p hp => h.removed p ((hgone p).mp hp),
    fun p hp => h.kept p fun hx => hp ((hgone p).mpr hx)⟩

end Sweeping

/-- A step that removes nothing. -/
theorem Swept.still (h : Represents root cfg w.broker.state t) {cl : Cleaner} {n : ℤ}
    (hs : u = {w with cleaner := cl, since := n}) :
    Swept root cfg retention w u t t fun _ _ => False := by
  subst hs
  refine ⟨h,rfl,rfl,rfl,fun p hp => ?_,fun _ _ => rfl⟩
  obtain ⟨k,name,hseen,-⟩ := hp
  exact hseen.elim

theorem mem_fileNames (d : Disk) (dir : List Bytes) (name : Bytes) :
    name ∈ d.fileNames dir ↔ (⟨dir,name⟩ : Path) ∈ d.files := by
  unfold Disk.fileNames
  induction d.files using Finmap.induction_on with
  | H l =>
      rw [Finmap.liftOn_toFinmap,List.mem_insertionSort]
      simp only [List.mem_map,List.mem_filter,decide_eq_true_eq]
      rw [Finmap.mem_def]
      constructor
      · rintro ⟨q,⟨hq,rfl⟩,rfl⟩
        exact hq
      · intro hq
        exact ⟨_,⟨hq,rfl⟩,rfl⟩

/-! ## One name -/

/-- A log that is going to be removed is removed, and then its index. -/
theorem remove_expired (h : Represents root cfg w.broker.state t) (ha : t.active key = some base)
    (hc : w.cleaner = .sweeping key (.removingLog base c name names) deleted tps)
    (hx : Expired root retention w t key name) :
    ∃ v t' deleted', Sweeps retention w v ∧
      v.cleaner = .sweeping key (.scanning base c names) deleted' tps ∧
      Swept root cfg retention w v t t' fun k n => k = key ∧ n = name := by
  have hindex : logName base ≠ indexName name := fun heq =>
    not_log_indexName hx.log (heq ▸ List.suffix_append _ _)
  obtain ⟨ps,removed,phase,d₁,-,-,hcl,hs₁⟩ := sweep_step retention h ha hc (by simp)
  cases hcl
  generalize hw₁ : w.sweep retention = w₁ at hs₁
  have h₁ : Represents root cfg w₁.broker.state (forget t key name) := by
    rw [hs₁]
    exact represents_forget h ha (hx.ne ha).symm
  obtain ⟨qs,removed,phase,d₂,-,-,hcl,hs₂⟩ := sweep_step retention h₁ ha (by rw [hs₁]) (by simp)
  cases hcl
  have h₂ : Represents root cfg (w₁.sweep retention).broker.state
      (forget (forget t key name) key (indexName name)) := by
    rw [hs₂]
    exact represents_forget h₁ ha hindex
  have hdisk : (w₁.sweep retention).disk =
      (w.disk.remove ⟨root++[key],name⟩).remove ⟨root++[key],indexName name⟩ := by
    rw [hs₂,hs₁]
    rfl
  refine ⟨w₁.sweep retention,_,d₂,.head (by rw [hw₁]; exact .head (.refl _ _)),by rw [hs₂],
    ⟨h₂,rfl,by rw [hs₂,hs₁]; rfl,by rw [hdisk]; rfl,fun p hp => ?_,fun p hp => ?_⟩⟩
  · rw [hdisk]
    obtain ⟨k,n,⟨rfl,rfl⟩,-,rfl|rfl⟩ := hp
    · exact fun hm => Finmap.notMem_erase_self (Finmap.mem_erase.mp hm).2
    · exact Finmap.notMem_erase_self
  · have hlog : p ≠ ⟨root++[key],name⟩ := fun heq => hp ⟨key,name,⟨rfl,rfl⟩,hx,.inl heq⟩
    have hidx : p ≠ ⟨root++[key],indexName name⟩ := fun heq =>
      hp ⟨key,name,⟨rfl,rfl⟩,hx,.inr heq⟩
    rw [hdisk]
    exact (Finmap.lookup_erase_ne hidx).trans (Finmap.lookup_erase_ne hlog)

theorem scan_name (h : Represents root cfg w.broker.state t) (ha : t.active key = some base)
    (hc : w.cleaner = .sweeping key (.scanning base c (name::names)) deleted tps)
    (hcut : c+retention = w.clock) :
    ∃ v t' deleted', Sweeps retention w v ∧
      v.cleaner = .sweeping key (.scanning base c names) deleted' tps ∧
      Swept root cfg retention w v t t' fun k n => k = key ∧ n = name := by
  obtain ⟨ps,removed,phase,d₁,-,hdir,hcl,hs₁⟩ := sweep_step retention h ha hc (by simp)
  have hstore : (w.part ps (.scanning base c (name::names)) deleted).store.dir = root++[key] := hdir
  cases hcl with
  | skip hx =>
      rw [hstore] at hx
      refine ⟨w.sweep retention,t,d₁,.head (.refl _ _),by rw [hs₁],?_⟩
      refine (Swept.still h hs₁).congr fun k n he => iff_of_false ?_ id
      rintro ⟨rfl,rfl⟩
      rcases hx with hx|hx|hx|hx
      · exact hx he.log
      · exact he.ne ha hx
      · exact hx he.mem
      · have hold := he.old
        have hlt : c < w.modified ⟨root++[k],n⟩ := hx
        omega
  | condemn hlog hne hm hold =>
      rw [hstore] at hm hold
      have h₁ : Swept root cfg retention w _ t t _ := Swept.still h hs₁
      have hle : w.modified ⟨root++[key],name⟩ ≤ c := hold
      have hx : Expired root retention w t key name := ⟨hlog,⟨base,ha,hne⟩,hm,by omega⟩
      obtain ⟨v,t',d',hv,hcv,hsw⟩ := remove_expired h₁.represents ha (by rw [hs₁])
        (h₁.expired_iff.mpr ⟨hx,by rw [hs₁]; exact hm⟩)
      refine ⟨v,t',d',.head hv,hcv,(h₁.trans hsw).congr fun k n _ => ?_⟩
      rw [false_or]

/-! ## The names of a directory -/

variable (retention)

theorem scan_names (h : Represents root cfg w.broker.state t) (ha : t.active key = some base)
    (hc : w.cleaner = .sweeping key (.scanning base c names) deleted tps)
    (hcut : c+retention = w.clock) :
    ∃ v t' deleted', Sweeps retention w v ∧
      v.cleaner = .sweeping key (.scanning base c []) deleted' tps ∧
      Swept root cfg retention w v t t' fun k n => k = key ∧ n ∈ names := by
  induction names generalizing w t deleted with
  | nil =>
      have hw : w = {w with cleaner := w.cleaner, since := w.since} := rfl
      refine ⟨w,t,deleted,.refl _ _,hc,(Swept.still h hw).congr fun k n _ => ?_⟩
      simp
  | cons name names ih =>
      obtain ⟨u,t₁,d₁,hu,hcu,hsu⟩ := scan_name h ha hc hcut
      obtain ⟨v,t₂,d₂,hv,hcv,hsv⟩ := ih hsu.represents (by rw [hsu.active,ha]) hcu
        (by rw [hcut,hsu.clock])
      refine ⟨v,t₂,d₂,hu.trans hv,hcv,(hsu.trans hsv).congr fun k n _ => ?_⟩
      rw [List.mem_cons,and_or_left]

/-! ## A partition -/

/-- The call for a partition reads the base, the clock and the directory. -/
theorem call_lists (h : Represents root cfg w.broker.state t) (ha : t.active key = some base)
    (hc : w.cleaner = .sweeping key .idle deleted tps) :
    ∃ v deleted', Sweeps retention w v ∧ v.cleaner = .sweeping key
        (.scanning base (w.clock-retention) (w.disk.fileNames (root++[key]))) deleted' tps ∧
      Swept root cfg retention w v t t fun _ _ => False := by
  obtain ⟨ps₁,removed,phase,d₁,hf,-,hcl,hs₁⟩ := sweep_step retention h ha hc (by simp)
  cases hcl
  have h₁ : Swept root cfg retention w _ t t _ := Swept.still h hs₁
  have hc₁ : (w.sweep retention).cleaner = .sweeping key (.timing base) d₁ tps := by
    rw [hs₁]
    exact congrArg (fun b => Cleaner.sweeping key (.timing b) d₁ tps) hf.base
  obtain ⟨ps₂,removed,phase,d₂,-,-,hcl,hs₂⟩ := sweep_step retention h₁.represents ha hc₁ (by simp)
  cases hcl
  have h₂ : Swept root cfg retention (w.sweep retention) _ t t _ := Swept.still h₁.represents hs₂
  have hc₂ : ((w.sweep retention).sweep retention).cleaner =
      .sweeping key (.listing base (w.clock-retention)) d₂ tps := by
    rw [hs₂]
    exact congrArg (fun c => Cleaner.sweeping key (.listing base (c-retention)) d₂ tps) h₁.clock
  obtain ⟨ps₃,removed,phase,d₃,-,hdir,hcl,hs₃⟩ :=
    sweep_step retention h₂.represents ha hc₂ (by simp)
  cases hcl
  have h₃ : Swept root cfg retention ((w.sweep retention).sweep retention) _ t t _ :=
    Swept.still h₂.represents hs₃
  refine ⟨_,d₃,.head (.head (.head (.refl _ _))),?_,
    ((h₁.trans h₂).trans h₃).congr fun _ _ _ => by simp⟩
  rw [hs₃]
  have hnames : ((w.sweep retention).sweep retention).disk.fileNames ps₃.dir =
      w.disk.fileNames (root++[key]) := by
    rw [hs₂,hs₁,hdir]
    rfl
  exact congrArg
    (fun l => Cleaner.sweeping key (.scanning base (w.clock-retention) l) d₃ tps) hnames

/-- The call looks at all names of the directory. -/
theorem call_partition (h : Represents root cfg w.broker.state t) (ha : t.active key = some base)
    (hc : w.cleaner = .sweeping key .idle deleted tps) :
    ∃ v t', Sweeps retention w v ∧ v.cleaner = .visiting tps ∧
      Swept root cfg retention w v t t' fun k _ => k = key := by
  obtain ⟨u,d₁,hu,hcu,hsu⟩ := call_lists retention h ha hc
  obtain ⟨v,t',d₂,hv,hcv,hsv⟩ := scan_names retention hsu.represents ha hcu
    (by rw [hsu.clock]; omega)
  obtain ⟨ps,removed,phase,d₃,-,-,hcl,hs₁⟩ :=
    sweep_step retention hsv.represents (by rw [hsv.active,ha]) hcv (by simp)
  cases hcl
  have h₁ : Swept root cfg retention v _ t' t' _ := Swept.still hsv.represents hs₁
  have hs₂ : (v.sweep retention).sweep retention =
      {v.sweep retention with cleaner := .visiting tps, since := (v.sweep retention).since} :=
    sweep_return (by rw [hs₁])
  have h₂ : Swept root cfg retention (v.sweep retention) _ t' t' _ :=
    Swept.still h₁.represents hs₂
  refine ⟨_,t',hu.trans (hv.trans (.head (.head (.refl _ _)))),by rw [hs₂],?_⟩
  refine (((hsu.trans hsv).trans h₁).trans h₂).congr fun k name hx => ?_
  simp only [false_or,or_false]
  refine ⟨fun hk => ⟨hk,?_⟩,And.left⟩
  subst hk
  exact (mem_fileNames _ _ _).mpr hx.mem

/-! ## All partitions -/

theorem visit_partitions (h : Represents root cfg w.broker.state t)
    (hc : w.cleaner = .visiting tps) :
    ∃ v t', Sweeps retention w v ∧ v.cleaner = .waiting ∧
      Swept root cfg retention w v t t' fun k _ => ∃ tp ∈ tps, keyOf tp = k := by
  induction tps generalizing w t with
  | nil =>
      have hs : w.sweep retention = {w with cleaner := .waiting, since := w.since} := sweep_end hc
      refine ⟨_,t,.head (.refl _ _),by rw [hs],(Swept.still h hs).congr fun k name _ => ?_⟩
      simp
  | cons tp tps ih =>
      cases hl : w.lookup (partitionKey tp.topic tp.partition) with
      | none =>
          obtain ⟨hnone,-⟩ := h.log_of_none hl
          have hs : w.sweep retention = {w with cleaner := .visiting tps, since := w.since} :=
            sweep_absent hc hl
          have h₁ : Swept root cfg retention w _ t t _ := Swept.still h hs
          obtain ⟨v,t',hv,hcv,hsv⟩ := ih h₁.represents (by rw [hs])
          refine ⟨v,t',.head hv,hcv,(h₁.trans hsv).congr fun k name hx => ?_⟩
          rw [false_or,List.exists_mem_cons_iff]
          refine or_iff_right ?_
          rintro rfl
          obtain ⟨base,ha,-⟩ := hx.closed
          rw [keyOf,hnone] at ha
          cases ha
      | some ps =>
          obtain ⟨base,ha,-⟩ := h.log_of_lookup hl
          have hs : w.sweep retention = {w with
              cleaner := .sweeping (partitionKey tp.topic tp.partition) .idle 0 tps
              since := w.since} := sweep_enter hc hl
          have h₁ : Swept root cfg retention w _ t t _ := Swept.still h hs
          obtain ⟨u,t₂,hu,hcu,hsu⟩ := call_partition retention h₁.represents ha (by rw [hs])
          obtain ⟨v,t',hv,hcv,hsv⟩ := ih hsu.represents hcu
          refine ⟨v,t',.head (hu.trans hv),hcv,
            ((h₁.trans hsu).trans hsv).congr fun k name _ => ?_⟩
          rw [false_or,List.exists_mem_cons_iff]
          exact or_congr_left eq_comm

/-- The partitions that are listed are those that are open, as far as their names
can be read. -/
theorem mem_topics (h : Represents root cfg w.broker.state t) (hp : Printed t) (k : Bytes) :
    (∃ tp ∈ w.broker.state.handler.store.topics, keyOf tp = k) ↔
      (t.active k).isSome ∧ (decodeName k).isSome := by
  obtain ⟨keys,-,hkeys,htopics⟩ := h.topics
  have hdec {k : Bytes} (hk : (t.active k).isSome) {tp : TopicPartition}
      (ht : decodeName k = some tp) : keyOf tp = k := by
    obtain ⟨topic,partition,hsingle,rfl⟩ := hp k hk
    exact (BootedBroker.decodeName_printed hsingle ht).1
  rw [htopics]
  constructor
  · rintro ⟨tp,htp,rfl⟩
    obtain ⟨k',hk',hx⟩ := List.mem_filterMap.mp htp
    have hopen := (hkeys k').mp hk'
    rw [hdec hopen hx,hx]
    exact ⟨hopen,rfl⟩
  · rintro ⟨hopen,hx⟩
    obtain ⟨tp,htp⟩ := Option.isSome_iff_exists.mp hx
    exact ⟨tp,List.mem_filterMap.mpr ⟨k,(hkeys k).mpr hopen,htp⟩,hdec hopen htp⟩

theorem run_sweeps [DecidableEq ι] (retention : ℤ) (w : World ι) (n : ℕ) :
    w.run retention (List.replicate n .sweep) = some ((World.sweep retention)^[n] w) := by
  induction n generalizing w with
  | zero => rfl
  | succ n ih => exact ih _

end

/-- A cleaner that wakes up and is not interrupted comes to the end of its sweep. Of
the names in the directories of the open partitions whose own names can be read, the
expired ones are gone then, with their indexes, and nothing else has changed. -/
theorem sweep_removes_expired {ι : Type*} [DecidableEq ι] {root : List Bytes} {cfg : SegmentConfig}
    {w : World ι} {t : Ledger} (hw : Represents root cfg w.broker.state t) (hp : Printed t)
    (retention : ℤ) (hc : w.cleaner = .waiting) {tps : List TopicPartition}
    (ht : tps.Perm w.broker.state.handler.store.topics) :
    ∃ n v t', w.run retention (.wake tps::List.replicate n .sweep) = some v ∧
      v.cleaner = .waiting ∧
      Swept root cfg retention w v t t' fun k _ => (decodeName k).isSome := by
  have hwoken : Swept root cfg retention w {w with cleaner := .visiting tps, since := w.since} t t
      fun _ _ => False := .still hw rfl
  obtain ⟨v,t',⟨n,hn⟩,hcv,hsv⟩ := visit_partitions retention hwoken.represents rfl
  refine ⟨n,v,t',?_,hcv,(hwoken.trans hsv).congr fun k name hx => ?_⟩
  · rw [World.run,World.step,if_pos ⟨hc,ht⟩,Option.bind_some,run_sweeps]
    exact congrArg some hn
  · obtain ⟨base,ha,-⟩ := hx.closed
    have hmem : (∃ tp ∈ tps, keyOf tp = k) ↔ (t.active k).isSome ∧ (decodeName k).isSome := by
      rw [← mem_topics hw hp k]
      simp only [ht.mem_iff]
    rw [false_or,hmem,ha]
    exact (and_iff_right rfl).symm

/-- Two segments were filled, each with one batch, and nothing has happened for a
time. -/
def twoFilled : World Bool :=
  .start ((connections [] threeBatches narrow).exec respond [true,true,true,false,false]).2
    (fun _ => 0) 20

theorem kept_twoFilled : ∃ t, BootedBroker.Kept [] ⟨4⟩ twoFilled.broker.state t := by
  have hkept : BootedBroker.Kept [] ⟨4⟩ narrow .blank :=
    ⟨represents_narrow,BootedBroker.shelved_bare,fun k hk => by cases hk⟩
  obtain ⟨t,-,ht⟩ := ConcurrentClients.exec_simulated (BootedBroker.kept_simulates [] ⟨4⟩) []
    hkept ordinary_threeBatches [true,true,true,false,false]
  exact ⟨t,ht⟩

/-- The first of them is removed. -/
theorem sweep_removes_expired_first :
    ∃ t n v t', Represents [] ⟨4⟩ twoFilled.broker.state t ∧
      Expired [] 10 twoFilled t (ascii "t-0") (logName 0) ∧
      twoFilled.run 10 (.wake twoFilled.broker.state.handler.store.topics::
        List.replicate n .sweep) = some v ∧ v.cleaner = .waiting ∧
      Swept [] ⟨4⟩ 10 twoFilled v t t' fun k _ => (decodeName k).isSome := by
  obtain ⟨t,ht⟩ := kept_twoFilled
  have hprinted : Printed t := fun k hk => ht.shelved.named k (ht.listed k hk)
  have hbase : (twoFilled.lookup (ascii "t-0")).map (fun ps => ps.active.baseOffset) = some 4 := by
    decide +kernel
  obtain ⟨ps,hl,hps⟩ := Option.map_eq_some_iff.mp hbase
  obtain ⟨base,ha,-,-,-,hf,-⟩ := ht.represents.log_of_lookup hl
  obtain rfl : base = 4 := hf.base.symm.trans hps
  have hx : Expired [] 10 twoFilled t (ascii "t-0") (logName 0) :=
    ⟨by decide +kernel,⟨4,ha,by decide +kernel⟩,by decide +kernel,by decide⟩
  obtain ⟨n,v,t',hrun,hc,hswept⟩ := sweep_removes_expired ht.represents hprinted 10 rfl (.refl _)
  exact ⟨t,n,v,t',ht.represents,hx,hrun,hc,hswept⟩

end Kage.WholeSweeps
