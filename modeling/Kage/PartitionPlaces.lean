import Kage.DirectoryFrames
import Kage.PartitionNames
import Kage.OffsetRecords

/-!
# Where partitions live

A broker is asked for partitions by any topics and numbers, appends to them and
reads them, while calls to the disk may fail. Two pairs are kept apart exactly
when their topics do not lead to one directory: a common key puts both in one
store, and a common directory under two keys puts two stores on the same files.
As long as no two pairs of a run clash in this way, an append to one of them
changes nothing that can be read from another.

A topic also decides whether its partition lies directly below the root at all.
It does exactly when the components before its last separator lead back to the
root, and then so does every file that is made for it.
-/
namespace Kage.PartitionPlaces
open ByteStrings FaultyDisk SegmentLog PartitionLog BrokerStores PartitionNames DirectoryFrames
open OffsetRecords

/-- The two pairs lead to the same place. -/
def Clash (root : List Bytes) (a b : TopicPartition) : Prop :=
  walk root (lead a.topic) = walk root (lead b.topic) ∧
    ((leaf a.topic = leaf b.topic ∧ a.partition = b.partition) ∨
      SignShift (leaf a.topic) a.partition (leaf b.topic) b.partition ∨
      SignShift (leaf b.topic) b.partition (leaf a.topic) a.partition)

def dirOf (root : List Bytes) (tp : TopicPartition) : List Bytes := joinPath root (keyOf tp)

structure State where
  store : BrokerStore
  disk : Disk

inductive Op where
  | get (tp : TopicPartition)
  | append (tp : TopicPartition) (data : Bytes)
  | read (tp : TopicPartition) (fetchOffset : UInt64) (maxBytes : Int32)
  | faults (schedule : List (Option ℕ))
  deriving DecidableEq, Repr

/-- Get the partition, then append to it or read it. -/
def step (σ : State) : Op → State
  | .get tp =>
      match σ.store.getOrCreatePartition tp.topic tp.partition σ.disk with
      | (_,bs,d) => ⟨bs,d⟩
  | .append tp data =>
      match σ.store.getOrCreatePartition tp.topic tp.partition σ.disk with
      | (.error _,bs,d) => ⟨bs,d⟩
      | (.ok ps,bs,d) =>
          match ps.append data d with
          | (_,ps,d) => ⟨bs.put tp.topic tp.partition ps,d⟩
  | .read tp o n =>
      match σ.store.getOrCreatePartition tp.topic tp.partition σ.disk with
      | (.error _,bs,d) => ⟨bs,d⟩
      | (.ok ps,bs,d) =>
          match ps.read o n d with
          | (_,ps,d) => ⟨bs.put tp.topic tp.partition ps,d⟩
  | .faults schedule => ⟨σ.store,{σ.disk with faults := schedule}⟩

def run (σ : State) (ops : List Op) : State := ops.foldl step σ

def Op.pair : Op → Option TopicPartition
  | .get tp => some tp
  | .append tp _ => some tp
  | .read tp _ _ => some tp
  | .faults _ => none

/-- The pairs that a run names. -/
def pairs (ops : List Op) : List TopicPartition := ops.filterMap Op.pair

/-- An append to one pair leaves the store of the other and all it serves. -/
def Untouched (σ : State) (a b : TopicPartition) : Prop :=
  ∀ data ps, σ.store.stores.lookup (keyOf b) = some ps →
    (step σ (.append a data)).store.stores.lookup (keyOf b) = some ps ∧
      ∀ o n, ps.fetch o n (step σ (.append a data)).disk.calm = ps.fetch o n σ.disk.calm

/-- Different pairs of the run have stores and directories of their own, and in
every state of the run an append to one of them leaves the other untouched. -/
def Isolated (root : List Bytes) (cfg : SegmentConfig) (d : Disk) (ops : List Op) : Prop :=
  ∀ a ∈ pairs ops, ∀ b ∈ pairs ops, a ≠ b → keyOf a ≠ keyOf b ∧ dirOf root a ≠ dirOf root b ∧
    ∀ before, before <+: ops → Untouched (run ⟨⟨root,cfg,∅⟩,d⟩ before) a b

theorem clash_iff (root : List Bytes) (a b : TopicPartition) :
    Clash root a b ↔ dirOf root a = dirOf root b := by
  rw [dirOf,dirOf,keyOf,keyOf,joinPath_partitionKey_eq_iff,partitionKey_eq_iff,Clash]

section Steps
variable {root : List Bytes} {σ : State}

/-- The state of a broker that was asked for partitions only. -/
def Inv (root : List Bytes) (σ : State) : Prop := σ.store.rootDir = root ∧ Placed σ.store

/-- What a step about a pair changes: files in the directory of the pair, and the
store under its key. -/
structure Confined (root : List Bytes) (tp : TopicPartition) (σ τ : State) : Prop where
  inv : Inv root τ
  files : FilesWithin (dirOf root tp) σ.disk τ.disk
  others : ∀ k, k ≠ keyOf tp → τ.store.stores.lookup k = σ.store.stores.lookup k

section Pair
variable {tp : TopicPartition} {bs : BrokerStore} {d e : Disk}

theorem get_confined (h : Inv root σ) {r : Except Err PartitionStore}
    (hg : σ.store.getOrCreatePartition tp.topic tp.partition σ.disk = (r,bs,d)) :
    Confined root tp σ ⟨bs,d⟩ := by
  obtain ⟨rfl,hp⟩ := h
  have hgets := getOrCreatePartition_gets hp hg
  exact ⟨⟨hgets.root,hgets.placed⟩,hgets.files,hgets.others⟩

/-- A store that was used goes back to where it was. -/
theorem put_confined (h : Inv root σ) {ps qs : PartitionStore}
    (hg : σ.store.getOrCreatePartition tp.topic tp.partition σ.disk = (.ok ps,bs,d))
    (hused : Housed ps.dir ps.active →
      Within ps.dir d e ∧ qs.dir = ps.dir ∧ Housed ps.dir qs.active) :
    Confined root tp σ ⟨bs.put tp.topic tp.partition qs,e⟩ := by
  obtain ⟨rfl,hp⟩ := h
  have hgets := getOrCreatePartition_gets hp hg
  obtain ⟨hd,hh⟩ := hgets.placed _ _ (hgets.got ps rfl)
  obtain ⟨hw,hd',hh'⟩ := hused hh
  have hplaced := put_placed hgets.placed (hd'.trans hd) (by rwa [hd'])
  rw [hd,hgets.root] at hw
  exact ⟨⟨hgets.root,hplaced⟩,hgets.files.trans hw.files,
    fun k hk => (put_lookup_ne bs hk _).trans (hgets.others k hk)⟩

theorem step_confined (h : Inv root σ) (op : Op) (hop : op.pair = some tp) :
    Confined root tp σ (step σ op) := by
  cases op with
  | faults schedule => cases hop
  | get a =>
      cases hop
      exact get_confined h rfl
  | append a data =>
      cases hop
      simp only [PartitionPlaces.step]
      rcases hg : σ.store.getOrCreatePartition tp.topic tp.partition σ.disk with ⟨x|ps,bs,d⟩
      · exact get_confined h hg
      · exact put_confined h hg (storeAppend_within · data d)
  | read a o n =>
      cases hop
      simp only [PartitionPlaces.step]
      rcases hg : σ.store.getOrCreatePartition tp.topic tp.partition σ.disk with ⟨x|ps,bs,d⟩
      · exact get_confined h hg
      · exact put_confined h hg (storeRead_within · o n d)

end Pair

theorem Inv.step (h : Inv root σ) (op : Op) : Inv root (step σ op) := by
  cases op with
  | faults schedule => exact h
  | get a => exact (step_confined h _ rfl).inv
  | append a data => exact (step_confined h _ rfl).inv
  | read a o n => exact (step_confined h _ rfl).inv

theorem Inv.run (h : Inv root σ) (ops : List Op) : Inv root (run σ ops) := by
  induction ops generalizing σ with
  | nil => exact h
  | cons op ops ih => exact ih (h.step op)

theorem start_inv (root : List Bytes) (cfg : SegmentConfig) (d : Disk) :
    Inv root ⟨⟨root,cfg,∅⟩,d⟩ := ⟨rfl,fun k ps hk => by cases hk⟩

theorem Inv.untouched (h : Inv root σ) {a b : TopicPartition}
    (hne : dirOf root a ≠ dirOf root b) : Untouched σ a b := by
  intro data ps hl
  have hkey : keyOf b ≠ keyOf a := fun hk => hne (by rw [dirOf,dirOf,hk])
  obtain ⟨-,hf,ho⟩ := step_confined h (.append a data) rfl
  obtain ⟨hd,hh⟩ := h.2 _ _ hl
  have hdir : ps.dir ≠ dirOf root a := by
    rw [hd,h.1]
    exact hne.symm
  exact ⟨(ho _ hkey).trans hl,hf.fetch hh hdir⟩

end Steps

/-- A run keeps its pairs apart exactly when no two of them clash. -/
theorem isolated_iff_no_clash (root : List Bytes) (cfg : SegmentConfig) (d : Disk)
    (ops : List Op) :
    Isolated root cfg d ops ↔
      ∀ a ∈ pairs ops, ∀ b ∈ pairs ops, a ≠ b → ¬Clash root a b := by
  constructor
  · intro h a ha b hb hne hc
    exact (h a ha b hb hne).2.1 ((clash_iff root a b).mp hc)
  · intro h a ha b hb hne
    have hdir : dirOf root a ≠ dirOf root b :=
      fun hd => h a ha b hb hne ((clash_iff root a b).mpr hd)
    refine ⟨fun hk => hdir (by rw [dirOf,dirOf,hk]),hdir,fun before _ => ?_⟩
    exact ((start_inv root cfg d).run before).untouched hdir

/-- One topic ends in the minus sign of the other's number, and one is another
way to write a topic: both pairs of pairs clash. -/
theorem minus_sign_and_dots_clash :
    ¬Isolated [] ⟨0⟩ Disk.blank [.get ⟨ascii "a",-1⟩,.append ⟨ascii "a-",1⟩ [7]] ∧
      (((run ⟨⟨[],⟨0⟩,∅⟩,Disk.blank⟩ [.get ⟨ascii "a",-1⟩]).store.stores.lookup
          (keyOf ⟨ascii "a",-1⟩)).map PartitionStore.Size = some 0) ∧
      (((run ⟨⟨[],⟨0⟩,∅⟩,Disk.blank⟩
          [.get ⟨ascii "a",-1⟩,.append ⟨ascii "a-",1⟩ [7]]).store.stores.lookup
          (keyOf ⟨ascii "a",-1⟩)).map PartitionStore.Size = some 5) ∧
      keyOf ⟨ascii "b",0⟩ ≠ keyOf ⟨ascii "a/../b",0⟩ ∧
      dirOf [] ⟨ascii "b",0⟩ = dirOf [] ⟨ascii "a/../b",0⟩ := by
  refine ⟨fun h => ?_,by decide +kernel,by decide +kernel,by decide +kernel,by decide +kernel⟩
  have hk : keyOf ⟨ascii "a",-1⟩ = keyOf ⟨ascii "a-",1⟩ := by decide +kernel
  exact (h ⟨ascii "a",-1⟩ (by decide +kernel) ⟨ascii "a-",1⟩ (by decide +kernel)
    (by decide +kernel)).1 hk

section Placement
variable {root : List Bytes} {σ : State} {tp : TopicPartition}

/-- The file lies in a directory directly below the root. -/
def Inside (root : List Bytes) (q : Path) : Prop := ∃ name, q.dir = root++[name]

/-- The directory of the pair is directly below the root, and so is every file
that comes to be while only this pair is used. -/
def KeptInside (root : List Bytes) (cfg : SegmentConfig) (tp : TopicPartition) : Prop :=
  (∃ name, (BrokerStore.mk root cfg ∅).partitionDir tp.topic tp.partition = root++[name]) ∧
    ∀ d ops, (∀ op ∈ ops, ∀ a ∈ op.pair, a = tp) →
      ∀ q ∈ (run ⟨⟨root,cfg,∅⟩,d⟩ ops).disk.files, q ∉ d.files → Inside root q

/-- A step about one pair touches no file elsewhere. -/
theorem step_lookup (h : Inv root σ) {op : Op} (hop : ∀ a ∈ op.pair, a = tp) {q : Path}
    (hq : q.dir ≠ dirOf root tp) : (step σ op).disk.files.lookup q = σ.disk.files.lookup q := by
  cases op with
  | faults schedule => rfl
  | get a => exact (step_confined h (.get a) (congrArg some (hop a rfl))).files.lookup q hq
  | append a data =>
      exact (step_confined h (.append a data) (congrArg some (hop a rfl))).files.lookup q hq
  | read a o n =>
      exact (step_confined h (.read a o n) (congrArg some (hop a rfl))).files.lookup q hq

theorem run_lookup (h : Inv root σ) {ops : List Op}
    (hops : ∀ op ∈ ops, ∀ a ∈ op.pair, a = tp) {q : Path} (hq : q.dir ≠ dirOf root tp) :
    (run σ ops).disk.files.lookup q = σ.disk.files.lookup q := by
  induction ops generalizing σ with
  | nil => rfl
  | cons op ops ih =>
      obtain ⟨hop,hrest⟩ := List.forall_mem_cons.mp hops
      exact (ih (h.step op) hrest).trans (step_lookup h hop hq)

theorem dirOf_eq (root : List Bytes) (tp : TopicPartition) :
    dirOf root tp = walk root (lead tp.topic)++[partitionKey (leaf tp.topic) tp.partition] :=
  joinPath_partitionKey root tp.topic tp.partition

end Placement

/-- A pair from a request is kept inside the root exactly when the components of
its topic before the last separator lead back to the root. -/
theorem partition_inside_iff (root : List Bytes) (cfg : SegmentConfig) (topic : WireString)
    (partition : Int32) :
    KeptInside root cfg ⟨topic.1,partition⟩ ↔ walk root (lead topic.1) = root := by
  have hdir : (BrokerStore.mk root cfg ∅).partitionDir topic.1 partition =
      walk root (lead topic.1)++[partitionKey (leaf topic.1) partition] :=
    dirOf_eq root ⟨topic.1,partition⟩
  constructor
  · rintro ⟨⟨name,hn⟩,-⟩
    rw [hdir] at hn
    exact (List.append_inj' hn (by simp)).1
  · intro hw
    rw [hw] at hdir
    refine ⟨⟨_,hdir⟩,fun d ops hops q hq hnew => ⟨partitionKey (leaf topic.1) partition,?_⟩⟩
    by_contra hne
    have hl := run_lookup (start_inv root cfg d) hops (q := q) (by
      rw [dirOf_eq]
      simp only [hw]
      exact hne)
    apply hnew
    apply Finmap.lookup_isSome.mp
    rw [← hl]
    exact Finmap.lookup_isSome.mpr hq

/-- A topic that begins with a double dot leaves the root, and its files are
made beside it. -/
theorem double_dot_leaves_root :
    ¬KeptInside [ascii "data"] ⟨0⟩ ⟨ascii "../x",0⟩ ∧
      (BrokerStore.mk [ascii "data"] ⟨0⟩ ∅).partitionDir (ascii "../x") 0 = [ascii "x-0"] ∧
      (run ⟨⟨[ascii "data"],⟨0⟩,∅⟩,Disk.blank⟩ [.get ⟨ascii "../x",0⟩]).disk.files.lookup
        ⟨[ascii "x-0"],ascii "00000000000000000000.log"⟩ = some [] := by
  have hd : (BrokerStore.mk [ascii "data"] ⟨0⟩ ∅).partitionDir (ascii "../x") 0 =
      [ascii "x-0"] := by decide +kernel
  refine ⟨?_,hd,by decide +kernel⟩
  rintro ⟨⟨name,hn⟩,-⟩
  rw [hd] at hn
  exact absurd (congrArg List.length hn) (by simp)

end Kage.PartitionPlaces
