import Kage.ConcurrentClients
import Kage.SegmentCleaner

/-!
# The cleaner beside the clients

A broker with a retention time has a goroutine that wakes up now and then, lists
the partitions, and lets each of them remove its old segments while clients are
served. It takes its steps between the calls of the clients: the listing, the
lookup of a partition, and every step of the call that removes segments. Files
are modified by the calls of clients, at the time that the clock shows then.

Seen from above the cleaner makes the ledger forget files, and nothing else. The
file that is extended is not among them, because it is either the one that the
cleaner has read, or newer, and then it was modified after the cutoff, as long as
the clock is read before the retention time has passed since the base was read.
-/
namespace Kage.LogCleaner
open ByteStrings FaultyDisk SparseIndex SegmentLog PartitionLog RollingLog BrokerStores
open AtomicPrograms BrokerPrograms BrokerLedger LedgerJournal
open DirectoryFrames (FilesWithin)
open ConcurrentClients (Broker)
open SegmentCleaner (Phase clean stamp logName indexName removeFile ErrNotExist)

/-- Where the goroutine is: between two sweeps, before the next of the partitions
that were listed, or in the call for one of them. -/
inductive Cleaner where
  | waiting
  | visiting (tps : List TopicPartition)
  | sweeping (key : Bytes) (phase : Phase) (deleted : ℕ) (tps : List TopicPartition)
  deriving DecidableEq

/-- The broker, its clients and its cleaner. `since` is when the cleaner has last
read which segment is active, and `log` has the calls of the clients, each with
its time. -/
structure World (ι : Type*) where
  broker : Broker ι
  modified : Path → ℤ
  clock : ℤ
  cleaner : Cleaner
  since : ℤ
  log : List (ℤ × ι × BrokerEvent)

/-- A client takes its next call, time passes, the cleaner wakes up and has listed
the partitions in some order, or the cleaner takes its next step. -/
inductive Move (ι : Type*) where
  | client (i : ι)
  | tick (n : ℕ)
  | wake (tps : List TopicPartition)
  | sweep
  deriving DecidableEq

namespace World
variable {ι : Type*}

def disk (w : World ι) : Disk := w.broker.state.disk

/-- The store of a partition, which is never removed. -/
def lookup (w : World ι) (key : Bytes) : Option PartitionStore :=
  w.broker.state.handler.store.stores.lookup key

def withDisk (w : World ι) (d : Disk) : World ι :=
  {w with broker := {w.broker with state := {w.broker.state with disk := d}}}

/-- What the call for a partition works on. -/
def part (w : World ι) (ps : PartitionStore) (phase : Phase) (deleted : ℕ) :
    SegmentCleaner.State := ⟨ps,w.disk,w.modified,w.clock,phase,deleted⟩

/-- The next step of the goroutine. -/
def sweep (retention : ℤ) (w : World ι) : World ι :=
  match w.cleaner with
  | .waiting => w
  | .visiting [] => {w with cleaner := .waiting}
  | .visiting (tp::tps) =>
      match w.lookup (partitionKey tp.topic tp.partition) with
      | none => {w with cleaner := .visiting tps}
      | some _ => {w with cleaner := .sweeping (partitionKey tp.topic tp.partition) .idle 0 tps}
  | .sweeping _ (.done _) _ tps => {w with cleaner := .visiting tps}
  | .sweeping key phase deleted tps =>
      match w.lookup key with
      | none => w
      | some ps =>
          let σ := clean retention (w.part ps phase deleted)
          {w.withDisk σ.disk with
            cleaner := .sweeping key σ.phase σ.deleted tps
            since := if phase = .idle then w.clock else w.since}

variable [DecidableEq ι]

/-- A move, if it is possible. -/
def step (retention : ℤ) (w : World ι) : Move ι → Option (World ι)
  | .client i =>
      let r := w.broker.step respond i
      some {w with
        broker := r.2
        modified := stamp w.modified w.clock w.disk r.2.state.disk
        log := w.log++r.1.map (w.clock,·)}
  | .tick n => some {w with clock := w.clock+n}
  | .wake tps =>
      if w.cleaner = .waiting ∧ tps.Perm w.broker.state.handler.store.topics then
        some {w with cleaner := .visiting tps}
      else none
  | .sweep => some (w.sweep retention)

def run (retention : ℤ) (w : World ι) : List (Move ι) → Option (World ι)
  | [] => some w
  | m::ms => (w.step retention m).bind fun v => v.run retention ms

/-- Clients about to start, and a cleaner that waits. -/
def start (broker : Broker ι) (modified : Path → ℤ) (clock : ℤ) : World ι :=
  ⟨broker,modified,clock,.waiting,clock,[]⟩

/-- The cleaner reads the clock before the retention time has passed since it has
read which segment is active. -/
def promptStep (retention : ℤ) (w : World ι) : Move ι → Bool
  | .sweep =>
      match w.cleaner with
      | .sweeping _ (.timing _) _ _ => w.clock < w.since+retention
      | _ => true
  | _ => true

def prompt (retention : ℤ) : World ι → List (Move ι) → Bool
  | _,[] => true
  | w,m::ms => w.promptStep retention m && (w.step retention m).all fun v => v.prompt retention ms

end World

/-! ## The steps of a call -/

/-- A step of the call for a partition on a disk without failures: where it is, the
name that it removes, if any, and where it is then. -/
inductive Cleans (retention : ℤ) (σ : SegmentCleaner.State) : Phase → Option Bytes → Phase → Prop
  | read : Cleans retention σ .idle none (.timing σ.store.active.baseOffset)
  | time (b : ℕ) : Cleans retention σ (.timing b) none (.listing b (σ.clock-retention))
  | list (b : ℕ) (c : ℤ) : Cleans retention σ (.listing b c) none
      (.scanning b c (σ.disk.fileNames σ.store.dir))
  | finish (b : ℕ) (c : ℤ) : Cleans retention σ (.scanning b c []) none (.done (.ok σ.deleted))
  | skip {b : ℕ} {c : ℤ} {name : Bytes} {names : List Bytes} :
      ¬ascii ".log" <:+ name ∨ name = logName b ∨ ⟨σ.store.dir,name⟩ ∉ σ.disk.files ∨
        c < σ.modified ⟨σ.store.dir,name⟩ →
      Cleans retention σ (.scanning b c (name::names)) none (.scanning b c names)
  | condemn {b : ℕ} {c : ℤ} {name : Bytes} {names : List Bytes} :
      ascii ".log" <:+ name → name ≠ logName b → ⟨σ.store.dir,name⟩ ∈ σ.disk.files →
      σ.modified ⟨σ.store.dir,name⟩ ≤ c →
      Cleans retention σ (.scanning b c (name::names)) none (.removingLog b c name names)
  | removeLog (b : ℕ) (c : ℤ) (name : Bytes) (names : List Bytes) :
      Cleans retention σ (.removingLog b c name names) (some name)
        (.removingIndex b c name names)
  | removeIndex (b : ℕ) (c : ℤ) (name : Bytes) (names : List Bytes) :
      Cleans retention σ (.removingIndex b c name names) (some (indexName name))
        (.scanning b c names)

section Sweeping
variable {ι : Type*} {w : World ι} {retention : ℤ} {key : Bytes} {phase : Phase} {deleted : ℕ}
variable {tp : TopicPartition} {tps : List TopicPartition}

theorem sweep_waiting (hc : w.cleaner = .waiting) : w.sweep retention = w := by
  unfold World.sweep
  rw [hc]

theorem sweep_end (hc : w.cleaner = .visiting []) :
    w.sweep retention = {w with cleaner := .waiting} := by
  unfold World.sweep
  rw [hc]

theorem sweep_absent (hc : w.cleaner = .visiting (tp::tps))
    (hl : w.lookup (partitionKey tp.topic tp.partition) = none) :
    w.sweep retention = {w with cleaner := .visiting tps} := by
  unfold World.sweep
  simp only [hc,hl]

theorem sweep_enter {ps : PartitionStore} (hc : w.cleaner = .visiting (tp::tps))
    (hl : w.lookup (partitionKey tp.topic tp.partition) = some ps) :
    w.sweep retention =
      {w with cleaner := .sweeping (partitionKey tp.topic tp.partition) .idle 0 tps} := by
  unfold World.sweep
  simp only [hc,hl]

theorem sweep_return {r : Except Err ℕ} (hc : w.cleaner = .sweeping key (.done r) deleted tps) :
    w.sweep retention = {w with cleaner := .visiting tps} := by
  unfold World.sweep
  rw [hc]

theorem sweep_call {ps : PartitionStore} (hc : w.cleaner = .sweeping key phase deleted tps)
    (hp : ∀ r, phase ≠ .done r) (hl : w.lookup key = some ps) :
    w.sweep retention = {w.withDisk (clean retention (w.part ps phase deleted)).disk with
      cleaner := .sweeping key (clean retention (w.part ps phase deleted)).phase
        (clean retention (w.part ps phase deleted)).deleted tps
      since := if phase = .idle then w.clock else w.since} := by
  unfold World.sweep
  rw [hc]
  cases phase with
  | done r => exact (hp r rfl).elim
  | _ => simp only [hl]

end Sweeping

/-- The cleaner changes the disk and nothing else that others see. -/
theorem sweep_eq {ι : Type*} (retention : ℤ) (w : World ι) :
    ∃ d c n, w.sweep retention = {w.withDisk d with cleaner := c, since := n} := by
  unfold World.sweep
  split
  · exact ⟨w.disk,w.cleaner,w.since,rfl⟩
  · exact ⟨w.disk,_,w.since,rfl⟩
  · split <;> exact ⟨w.disk,_,w.since,rfl⟩
  · exact ⟨w.disk,_,w.since,rfl⟩
  · split
    · exact ⟨w.disk,w.cleaner,w.since,rfl⟩
    · exact ⟨_,_,_,rfl⟩

/-- The disk without a file of the directory. -/
def without (d : Disk) (dir : List Bytes) : Option Bytes → Disk
  | none => d
  | some name => d.remove ⟨dir,name⟩

theorem removeFile_healthy {d : Disk} (hd : d.Healthy) (p : Path) :
    removeFile p d = (if p ∈ d.files then none else some ErrNotExist,d.remove p) := by
  rw [removeFile,Disk.next_healthy hd]
  simp only
  split
  · rfl
  · next hp =>
    have hfiles : d.files.erase p = d.files := Finmap.ext_lookup fun q => by
      by_cases hq : q = p
      · subst hq
        rw [Finmap.lookup_erase,Finmap.lookup_eq_none.mpr hp]
      · rw [Finmap.lookup_erase_ne hq]
    rw [Disk.remove,hfiles]

/-- What the next step does. -/
theorem clean_cases (retention : ℤ) (σ : SegmentCleaner.State) (hd : σ.disk.Healthy)
    (hp : ∀ r, σ.phase ≠ .done r) :
    ∃ removed, Cleans retention σ σ.phase removed (clean retention σ).phase ∧
      (clean retention σ).disk = without σ.disk σ.store.dir removed := by
  have hnext := Disk.next_healthy hd
  cases hph : σ.phase with
  | idle =>
      simp only [clean,hph]
      exact ⟨none,.read,rfl⟩
  | timing b =>
      simp only [clean,hph]
      exact ⟨none,.time b,rfl⟩
  | listing b c =>
      simp only [clean,hph,SegmentCleaner.list,hnext]
      exact ⟨none,.list b c,rfl⟩
  | scanning b c names =>
      cases names with
      | nil =>
          simp only [clean,hph]
          exact ⟨none,.finish b c,rfl⟩
      | cons name names =>
          simp only [clean,hph,SegmentCleaner.stat,hnext]
          by_cases hskip : ¬(ascii ".log").isSuffixOf name ∨ name = logName b
          · rw [if_pos hskip]
            refine ⟨none,.skip ?_,rfl⟩
            rw [List.isSuffixOf_iff_suffix] at hskip
            exact hskip.imp_right .inl
          · rw [if_neg hskip]
            rw [List.isSuffixOf_iff_suffix,not_or,not_not] at hskip
            by_cases hm : ⟨σ.store.dir,name⟩ ∈ σ.disk.files
            · rw [if_pos hm]
              simp only
              by_cases hc : c < σ.modified ⟨σ.store.dir,name⟩
              · rw [if_pos hc]
                exact ⟨none,.skip (.inr (.inr (.inr hc))),rfl⟩
              · rw [if_neg hc]
                exact ⟨none,.condemn hskip.1 hskip.2 hm (not_lt.mp hc),rfl⟩
            · rw [if_neg hm]
              exact ⟨none,.skip (.inr (.inr (.inl hm))),rfl⟩
  | removingLog b c name names =>
      simp only [clean,hph,removeFile_healthy hd]
      rw [if_pos (by split <;> simp)]
      exact ⟨some name,.removeLog b c name names,rfl⟩
  | removingIndex b c name names =>
      simp only [clean,hph,removeFile_healthy hd]
      rw [if_pos (by split <;> simp)]
      exact ⟨some (indexName name),.removeIndex b c name names,rfl⟩
  | done r => exact (hp r hph).elim

/-! ## What the ledger forgets -/

/-- The log of this name is gone. -/
def forget (s : Ledger) (k name : Bytes) : Ledger :=
  {s with
    files := Function.update s.files k fun b => if logName b = name then none else s.files k b}

section Forgetting
variable {root : List Bytes} {cfg : SegmentConfig} {b : Shared} {s : Ledger} {d : Disk}
variable {k name : Bytes} {base : ℕ}

theorem forget_files (s : Ledger) (k name k' : Bytes) (c : ℕ) :
    (forget s k name).files k' c = if k' = k ∧ logName c = name then none else s.files k' c := by
  unfold forget
  by_cases hk : k' = k
  · subst hk
    simp
  · simp [hk]

theorem forget_content (s : Ledger) (k name k' : Bytes) (c : ℕ) :
    (forget s k name).content k' c = if k' = k ∧ logName c = name then [] else s.content k' c := by
  rw [Ledger.content,forget_files,Ledger.content]
  split <;> rfl

theorem follows_forget {ps : PartitionStore} {files : ℕ → Option Bytes}
    (h : Follows ps d ⟨files,base⟩) (hn : logName base ≠ name) :
    Follows ps (d.remove ⟨ps.dir,name⟩)
      ⟨fun b => if logName b = name then none else files b,base⟩ := by
  have hp : ps.active.file.path ≠ ⟨ps.dir,name⟩ := by
    rw [h.path]
    exact fun hx => hn (congrArg Path.name hx)
  have hact : (⟨fun b => if logName b = name then none else files b,base⟩ : Rolling UInt8).active =
      (⟨files,base⟩ : Rolling UInt8).active := by
    simp only [Rolling.active,Rolling.part]
    rw [if_neg hn]
  refine ⟨?_,h.path,h.idxPath,h.base,h.next,h.limit,?_,fun b hb => ?_⟩
  · rw [hact]
    refine ⟨h.holds.healthy,h.holds.opened,h.holds.live,h.holds.index,h.holds.apart,
      (Disk.mem_remove_ne hp).mpr h.holds.mem,?_,h.holds.size⟩
    rw [← h.holds.bytes,Segment.bytes,Segment.bytes,Disk.content_remove_ne hp]
  · rw [hact]
    simp only [if_neg hn]
    exact h.present
  · have ho := h.others b hb
    simp only [segments,Disk.remove] at ho ⊢
    split
    · next heq =>
      subst heq
      exact Finmap.lookup_erase _ _
    · next hne =>
      rw [Finmap.lookup_erase_ne fun hx => hne (congrArg Path.name hx)]
      exact ho

/-- Removing a log that is not extended makes the ledger forget it. -/
theorem represents_forget (h : Represents root cfg b s) (ha : s.active k = some base)
    (hn : logName base ≠ name) :
    Represents root cfg {b with disk := b.disk.remove ⟨root++[k],name⟩} (forget s k name) := by
  have hsome := h.isSome_iff k
  rw [ha,Option.isSome_some] at hsome
  obtain ⟨ps,hl⟩ := Option.isSome_iff_exists.mp hsome
  obtain ⟨base',hb,-,hdir,hcfg,hf,hw⟩ := h.log_of_lookup hl
  obtain rfl := Option.some.inj (ha.symm.trans hb)
  have hpath : ps.active.file.path ≠ ⟨root++[k],name⟩ := by
    rw [hf.path]
    exact fun hx => hn (congrArg Path.name hx)
  have hfollows := follows_forget hf hn
  rw [hdir] at hfollows
  have hwithin : FilesWithin (root++[k]) b.disk (b.disk.remove ⟨root++[k],name⟩) :=
    ⟨fun q hq => Finmap.lookup_erase_ne fun hx => hq (congrArg Path.dir hx),List.suffix_rfl⟩
  have hstored : Stored root cfg (b.disk.remove ⟨root++[k],name⟩) k
      (fun b => if logName b = name then none else s.files k b) (s.written k)
      (b.handler.store.stores.lookup k) (some base) := by
    rw [hl]
    exact .opened hdir hcfg hfollows (by rw [Disk.content_remove_ne hpath,hw])
  have hsmall (c : ℕ) (bytes : Bytes)
      (hx : (if logName c = name then none else s.files k c) = some bytes) :
      bytes.length < 2^63 := by
    split at hx
    · cases hx
    · exact h.small k c bytes hx
  have hc := h.change b.handler.store h.rooted h.config (fun _ _ => rfl) hwithin hstored hsmall
    h.opened
  rw [← ha,Function.update_eq_self,Function.update_eq_self] at hc
  exact hc

/-- What is in the file of a log is a part of the log. -/
theorem disk_content_le (h : Represents root cfg b s) (k : Bytes) (c : ℕ) :
    (b.disk.content (logPath (root++[k]) c)).length ≤ (s.content k c).length := by
  cases hl : b.handler.store.stores.lookup k with
  | none =>
      obtain ⟨-,-,hseg⟩ := h.log_of_none hl
      rw [Ledger.content,← hseg]
      exact le_rfl
  | some ps =>
      obtain ⟨base,ha,-,hdir,-,hf,-⟩ := h.log_of_lookup hl
      by_cases hc : c = base
      · subst hc
        have hbytes := congrArg List.length hf.holds.bytes
        rw [Segment.bytes,List.length_append,hf.path,hdir] at hbytes
        simp only at hbytes
        rw [Ledger.content]
        exact (Nat.le_add_right _ _).trans hbytes.le
      · have ho := hf.others c hc
        rw [hdir] at ho
        rw [Ledger.content]
        simp only at ho
        rw [← ho]
        exact le_rfl

/-- The file of a log that is not extended is the log. -/
theorem closed_lookup (h : Represents root cfg b s) (ha : s.active k = some base) {c : ℕ}
    (hc : c ≠ base) : b.disk.files.lookup (logPath (root++[k]) c) = s.files k c := by
  have hsome := h.isSome_iff k
  rw [ha,Option.isSome_some] at hsome
  obtain ⟨ps,hl⟩ := Option.isSome_iff_exists.mp hsome
  obtain ⟨base',hb,-,hdir,-,hf,-⟩ := h.log_of_lookup hl
  obtain rfl := Option.some.inj (ha.symm.trans hb)
  have ho := hf.others c hc
  rw [hdir] at ho
  exact ho

end Forgetting

/-- The call for a partition that is open takes a step. -/
theorem sweep_step {ι : Type*} {root : List Bytes} {cfg : SegmentConfig} {w : World ι} {t : Ledger}
    {key : Bytes} {phase : Phase} {deleted : ℕ} {tps : List TopicPartition} {base : ℕ}
    (retention : ℤ) (h : Represents root cfg w.broker.state t) (ha : t.active key = some base)
    (hc : w.cleaner = .sweeping key phase deleted tps) (hp : ∀ r, phase ≠ .done r) :
    ∃ ps removed phase' deleted', Follows ps w.disk ⟨t.files key,base⟩ ∧ ps.dir = root++[key] ∧
      Cleans retention (w.part ps phase deleted) phase removed phase' ∧
      w.sweep retention = {w.withDisk (without w.disk (root++[key]) removed) with
        cleaner := .sweeping key phase' deleted' tps
        since := if phase = .idle then w.clock else w.since} := by
  have hsome := h.isSome_iff key
  rw [ha,Option.isSome_some] at hsome
  obtain ⟨ps,hl⟩ := Option.isSome_iff_exists.mp hsome
  obtain ⟨base',hb,-,hdir,-,hf,-⟩ := h.log_of_lookup hl
  obtain rfl := Option.some.inj (ha.symm.trans hb)
  obtain ⟨removed,hcl,hdisk⟩ := clean_cases retention (w.part ps phase deleted) h.healthy hp
  refine ⟨ps,removed,_,(clean retention (w.part ps phase deleted)).deleted,hf,hdir,hcl,?_⟩
  rw [sweep_call hc hp hl,hdisk,show (w.part ps phase deleted).store.dir = root++[key] from hdir]
  rfl

/-! ## Files in order -/

/-- No partition has a log beyond the one that is extended, or that it is going to
be opened at. -/
def Newest (s : Ledger) : Prop := ∀ k b, (s.files k b).isSome → b ≤ (s.active k).getD 0

/-- The logs of an open partition before the one that is extended stay, and that
one stays or a new one is extended. -/
def Onward (s t : Ledger) : Prop :=
  ∀ k base, s.active k = some base → ∃ base', t.active k = some base' ∧ base ≤ base' ∧
    (base' = base ∨ s.files k base' = none) ∧ ∀ c < base, t.files k c = s.files k c

section
variable {cfg : SegmentConfig} {s t : Ledger}

theorem Onward.of_same (hf : t.files = s.files) (ha : t.active = s.active) : Onward s t :=
  fun k base hb => ⟨base,by rw [ha,hb],le_rfl,.inl rfl,fun c _ => by rw [hf]⟩

theorem Newest.of_same (h : Newest s) (hf : t.files = s.files) (ha : t.active = s.active) :
    Newest t := by
  intro k b hb
  rw [hf] at hb
  rw [ha]
  exact h k b hb

theorem create_onward (h : Newest s) (k : Bytes) : Newest (s.create k) ∧ Onward s (s.create k) := by
  unfold Ledger.create
  split
  · exact ⟨h,.of_same rfl rfl⟩
  · next hk =>
    have hnone := Option.not_isSome_iff_eq_none.mp hk
    refine ⟨fun k' b hb => ?_,fun k' base hb => ?_⟩
    · by_cases hkk : k' = k
      · subst hkk
        simp only [Function.update_self,Option.getD_some] at hb ⊢
        by_cases h0 : b = 0
        · exact h0.le
        · simp only [Rolling.openAt,Function.update_of_ne h0] at hb
          have hle := h k' b hb
          rwa [hnone] at hle
      · simp only [Function.update_of_ne hkk] at hb ⊢
        exact h k' b hb
    · have hkk : k' ≠ k := by
        rintro rfl
        rw [hnone] at hb
        cases hb
      exact ⟨base,by simpa only [Function.update_of_ne hkk],le_rfl,.inl rfl,
        fun c _ => by simp only [Function.update_of_ne hkk]⟩

theorem append_onward {k data : Bytes} {reply : Except Err UInt64} (h : Newest s)
    (ha : s.Append cfg k data reply t) : Newest t ∧ Onward s t := by
  unfold Ledger.Append at ha
  cases hl : s.log k with
  | none =>
      rw [hl] at ha
      obtain ⟨-,rfl⟩ := ha
      exact ⟨h,.of_same rfl rfl⟩
  | some r =>
      rw [hl] at ha
      obtain ⟨-,written,rfl,-⟩ := ha
      obtain ⟨base,hb,rfl⟩ := Option.map_eq_some_iff.mp hl
      have hr : (⟨s.files k,base⟩ : Rolling UInt8).Newest := by
        intro b hs
        have hle := h k b hs
        rwa [hb] at hle
      have hadv := Rolling.append_advances (capacity cfg) hr (LengthPrefixed.frame data)
      refine ⟨fun k' b hs => ?_,fun k' base' hs => ?_⟩
      · by_cases hk : k' = k
        · subst hk
          simp only [Ledger.extend,Function.update_self,Option.getD_some] at hs ⊢
          exact hadv.newest b hs
        · simp only [Ledger.extend,Function.update_of_ne hk] at hs ⊢
          exact h k' b hs
      · by_cases hk : k' = k
        · subst hk
          obtain rfl := Option.some.inj (hb.symm.trans hs)
          simp only [Ledger.extend,Function.update_self]
          exact ⟨_,rfl,hadv.le,hadv.fresh,hadv.before⟩
        · exact ⟨base',by simpa only [Ledger.extend,Function.update_of_ne hk],le_rfl,.inl rfl,
            fun c _ => by simp only [Ledger.extend,Function.update_of_ne hk]⟩

theorem step_onward {o : Op} {reply : Op.Reply o} (h : Newest s)
    (hs : Ledger.Step cfg s o reply t) : Newest t ∧ Onward s t := by
  cases o with
  | append topic partition data => exact append_onward h hs
  | create topic partition =>
      obtain ⟨-,rfl⟩ := hs
      exact create_onward h _
  | read topic partition o n =>
      obtain ⟨hf,ha⟩ := read_files hs
      exact ⟨h.of_same hf ha,.of_same hf ha⟩
  | cache c =>
      obtain rfl : t = _ := hs
      exact ⟨h.of_same rfl rfl,.of_same rfl rfl⟩
  | find | size | readFull | topics | offsets =>
      obtain ⟨-,rfl⟩ := hs
      exact ⟨h,.of_same rfl rfl⟩

theorem Newest.forget (h : Newest s) (k name : Bytes) : Newest (forget s k name) := by
  intro k' b hb
  rw [forget_files] at hb
  split at hb
  · cases hb
  · exact h k' b hb

end

end Kage.LogCleaner
