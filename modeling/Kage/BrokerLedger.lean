import Kage.BrokerPrograms
import Kage.RollingGrowth
import Kage.DirectoryNames

/-!
# The broker as a ledger

What the connections share is, seen from above, a ledger: for every partition
the files of its log by base offset and which of them is extended, and a map of
committed offsets. The ledger answers the calls of the handlers in its own
terms. Two things are left open: how much of an active file has left the buffer
of its writer, and in which order partitions are listed.

On a disk without failures the stores and the files represent a ledger as long
as no topic holds a separator, and every call is answered by the stores as the
ledger allows. So every interleaving of any programs is a run of the ledger.
-/
namespace Kage.BrokerLedger
open ByteStrings LengthPrefixed FaultyDisk SparseIndex SegmentLog PartitionLog RollingLog
open SegmentFaults SegmentGrowth BrokerStores PartitionNames DirectoryFrames DirectoryNames
open OffsetRecords OffsetHandlers AtomicPrograms BrokerPrograms
open PartitionFaults (Stable Small)
open FailedRollover (Fits)

/-- The files of every partition, the base of the one that is extended while the
partition is open, how many were opened before it, how much of it is in the file
already, and the committed offsets. -/
structure Ledger where
  files : Bytes → ℕ → Option Bytes
  active : Bytes → Option ℕ
  opened : Bytes → ℕ
  written : Bytes → ℕ
  offsets : OffsetCache

/-- What is read from a section of a file; nothing is there when it is closed. -/
def readSection (content : Option Bytes) (pos limit : ℤ) (n : ℕ) : Except Err Bytes :=
  if n = 0 then .ok [] else
  if limit ≤ pos then .error .eof else
  if pos < 0 then .error .negativeOffset else
    match content with
    | none => .error .closed
    | some bytes =>
        let got := window bytes pos.toNat (min n (limit-pos).toNat)
        if got.length = n then .ok got else if got = [] then .error .eof
        else .error .unexpectedEOF

namespace Ledger

/-- What a file of a partition holds. -/
def content (s : Ledger) (k : Bytes) (b : ℕ) : Bytes := (s.files k b).getD []

/-- The log of a partition that is open. -/
def log (s : Ledger) (k : Bytes) : Option (Rolling UInt8) := (s.active k).map (⟨s.files k,·⟩)

/-- The readable bytes of a partition. -/
def size (s : Ledger) (k : Bytes) : ℕ := ((s.log k).map fun r => r.active.length).getD 0

/-- A partition is opened at its first file. -/
def create (s : Ledger) (k : Bytes) : Ledger :=
  if (s.active k).isSome then s else {s with
    files := Function.update s.files k (Rolling.openAt (s.files k) 0).files
    active := Function.update s.active k (some 0)
    written := Function.update s.written k ((s.files k 0).getD []).length}

/-- The log of a partition has become another one. -/
def extend (s : Ledger) (k : Bytes) (r : Rolling UInt8) (rolled : Bool) (written : ℕ) : Ledger :=
  {s with
    files := Function.update s.files k r.files
    active := Function.update s.active k (some r.base)
    opened := if rolled then Function.update s.opened k (s.opened k+1) else s.opened
    written := Function.update s.written k written}

/-- The entry goes behind the others unless it does not fit. What was in the file
stays there, and all of a file that is opened for it is there. -/
def Append (cfg : SegmentConfig) (s : Ledger) (k data : Bytes) (reply : Except Err UInt64)
    (t : Ledger) : Prop :=
  match s.log k with
  | none => reply = .error noStore ∧ t = s
  | some r =>
      let fits : Bool := r.active.length+(frame data).length ≤ capacity cfg
      reply = PartitionLog.answer (r.append (capacity cfg) (frame data)).1 ∧
        ∃ written, t = s.extend k (r.append (capacity cfg) (frame data)).2 (!fits) written ∧
          (if fits then s.written k else r.roll.active.length) ≤ written

/-- A window over the log, all of which is in the file then. -/
def Read (s : Ledger) (topic : Bytes) (partition : Int32) (fetchOffset : UInt64)
    (maxBytes : Int32) (reply : Except Err (Section × Int32)) (t : Ledger) : Prop :=
  let k := partitionKey topic partition
  match s.log k with
  | none => reply = .error noStore ∧ t = s
  | some r =>
      match readRange (Int64.ofNat r.active.length) fetchOffset maxBytes with
      | .error e => reply = .error e ∧ t = s
      | .ok n =>
          reply = .ok (⟨topic,partition,s.opened k,fetchOffset.toInt64.toInt,
              fetchOffset.toInt64.toInt+n.toInt⟩,n) ∧
            t = {s with written := Function.update s.written k r.active.length}

/-- The bytes of a section, unless its file is closed. -/
def sectionOf (s : Ledger) (r : Section) (n : ℕ) : Except Err Bytes :=
  let k := partitionKey r.topic r.partition
  match s.log k with
  | none => .error noStore
  | some l => readSection
      (if r.opened = s.opened k then some (l.active.take (s.written k)) else none) r.pos r.limit n

/-- The partitions that are open, in any order, as far as their names can be
read. -/
def Lists (s : Ledger) (tps : List TopicPartition) : Prop :=
  ∃ keys : List Bytes, keys.Nodup ∧ (∀ k, k ∈ keys ↔ (s.active k).isSome) ∧
    tps = keys.filterMap decodeName

/-- The calls that a ledger allows. -/
def Step (cfg : SegmentConfig) : Machine Op Op.Reply Ledger
  | s,.find topic partition,reply,t =>
      reply = (s.active (partitionKey topic partition)).isSome ∧ t = s
  | s,.create topic partition,reply,t =>
      reply = none ∧ t = s.create (partitionKey topic partition)
  | s,.append topic partition data,reply,t =>
      s.Append cfg (partitionKey topic partition) data reply t
  | s,.size topic partition,reply,t =>
      reply = Int64.ofNat (s.size (partitionKey topic partition)) ∧ t = s
  | s,.read topic partition fetchOffset maxBytes,reply,t =>
      s.Read topic partition fetchOffset maxBytes reply t
  | s,.readFull r n,reply,t => reply = s.sectionOf r n ∧ t = s
  | s,.topics,reply,t => s.Lists reply ∧ t = s
  | s,.cache c,_,t => t = {s with offsets := cacheCommit c s.offsets}
  | s,.offsets req,reply,t => reply = handleOffsetFetch req ⟨s.offsets,⟨[],cfg,∅⟩⟩ ∧ t = s

/-- No partition and no offset. -/
def blank : Ledger := ⟨fun _ _ => none,fun _ => none,fun _ => 0,fun _ => 0,fun _ => none⟩

end Ledger

/-- What stands for a partition: the files of its directory while it is shut,
and the log of its store while it is open. -/
inductive Stored (root : List Bytes) (cfg : SegmentConfig) (d : Disk) (k : Bytes)
    (files : ℕ → Option Bytes) (written : ℕ) : Option PartitionStore → Option ℕ → Prop
  | shut : segments (root++[k]) d = files → Stored root cfg d k files written none none
  | opened {ps : PartitionStore} {base : ℕ} : ps.dir = root++[k] → ps.cfg = cfg →
      Follows ps d ⟨files,base⟩ → (d.content ps.active.file.path).length = written →
      Stored root cfg d k files written (some ps) (some base)

/-- The stores and the disk represent a ledger. -/
structure Represents (root : List Bytes) (cfg : SegmentConfig) (b : Shared) (s : Ledger) :
    Prop where
  healthy : b.disk.Healthy
  rooted : b.handler.store.rootDir = root
  config : b.handler.store.cfg = cfg
  stored : ∀ k, Stored root cfg b.disk k (s.files k) (s.written k)
    (b.handler.store.stores.lookup k) (s.active k)
  small : ∀ k base bytes, s.files k base = some bytes → bytes.length < 2^63
  opened : b.opened = s.opened
  offsets : b.handler.offsetCache = s.offsets

/-- The topic is a single component of a path. -/
def Single (topic : Bytes) : Prop := 47 ∉ topic

/-- Partitions are created directly below the root. -/
def Allowed : Op → Prop
  | .create topic _ => Single topic
  | _ => True

section Representation
variable {root : List Bytes} {cfg : SegmentConfig} {b : Shared} {s : Ledger} {d e : Disk}
variable {k k' topic : Bytes} {partition : Int32} {files : ℕ → Option Bytes} {written : ℕ}
variable {base : Option ℕ} {o : Option PartitionStore} {ps : PartitionStore}

theorem dir_ne (root : List Bytes) (h : k ≠ k') : root++[k] ≠ root++[k'] := by
  simpa using h

/-- A partition does not notice what happens in the directories of others. -/
theorem Stored.frame (h : Stored root cfg d k files written o base)
    (hw : FilesWithin (root++[k']) d e) (hk : k ≠ k') :
    Stored root cfg e k files written o base := by
  have hne := dir_ne root hk
  cases h with
  | shut hs =>
      refine .shut (hs ▸ funext fun b => ?_)
      exact hw.lookup (logPath (root++[k]) b) hne
  | opened hdir hcfg hf hc =>
      have hd : _ ≠ root++[k'] := hdir ▸ hne
      refine .opened hdir hcfg (hw.follows hf hd) ?_
      rw [← hc,content_of_lookup (hw.lookup _ ?_)]
      rw [hf.path]
      exact hd

/-- A call on one partition changes the ledger at its key. -/
theorem Represents.change (h : Represents root cfg b s) (bs : BrokerStore)
    {opened opened' : Bytes → ℕ} (hroot : bs.rootDir = root) (hcfg : bs.cfg = cfg)
    (hothers : ∀ k', k' ≠ k → bs.stores.lookup k' = b.handler.store.stores.lookup k')
    (hw : FilesWithin (root++[k]) b.disk e)
    (hk : Stored root cfg e k files written (bs.stores.lookup k) base)
    (hsmall : ∀ base bytes, files base = some bytes → bytes.length < 2^63)
    (hopened : opened = opened') :
    Represents root cfg ⟨{b.handler with store := bs},e,opened⟩
      ⟨Function.update s.files k files,Function.update s.active k base,opened',
        Function.update s.written k written,s.offsets⟩ where
  healthy := hw.healthy h.healthy
  rooted := hroot
  config := hcfg
  stored := by
    intro k'
    by_cases hkk : k' = k
    · subst hkk
      simpa using hk
    · simp only [Function.update_of_ne hkk]
      rw [hothers k' hkk]
      exact (h.stored k').frame hw hkk
  small := by
    intro k'
    by_cases hkk : k' = k
    · subst hkk
      simpa using hsmall
    · simpa [Function.update_of_ne hkk] using h.small k'
  opened := hopened
  offsets := h.offsets

/-- The store of an open partition is its log. -/
theorem Represents.log_of_lookup (h : Represents root cfg b s)
    (hl : b.handler.store.stores.lookup k = some ps) :
    ∃ base, s.active k = some base ∧ s.log k = some ⟨s.files k,base⟩ ∧ ps.dir = root++[k] ∧
      ps.cfg = cfg ∧ Follows ps b.disk ⟨s.files k,base⟩ ∧
      (b.disk.content ps.active.file.path).length = s.written k := by
  have hs := h.stored k
  rw [hl] at hs
  generalize ha : s.active k = a at hs
  cases hs with
  | opened hdir hcfg hf hc =>
      refine ⟨_,rfl,?_,hdir,hcfg,hf,hc⟩
      rw [Ledger.log,ha]
      rfl

theorem Represents.log_of_none (h : Represents root cfg b s)
    (hl : b.handler.store.stores.lookup k = none) :
    s.active k = none ∧ s.log k = none ∧ segments (root++[k]) b.disk = s.files k := by
  have hs := h.stored k
  rw [hl] at hs
  generalize ha : s.active k = a at hs
  cases hs with
  | shut hseg => exact ⟨rfl,by rw [Ledger.log,ha]; rfl,hseg⟩

theorem Represents.content_small (h : Represents root cfg b s) (k : Bytes) (base : ℕ) :
    (s.content k base).length < 2^63 := by
  rw [Ledger.content]
  cases hf : s.files k base with
  | none => decide
  | some bytes => exact h.small k base bytes hf

theorem Represents.isSome_iff (h : Represents root cfg b s) (k : Bytes) :
    (b.handler.store.stores.lookup k).isSome = (s.active k).isSome := by
  cases hl : b.handler.store.stores.lookup k with
  | none => rw [(h.log_of_none hl).1]; rfl
  | some ps =>
      obtain ⟨base,ha,-⟩ := h.log_of_lookup hl
      rw [ha]
      rfl

theorem partitionDir_single (h : Single topic) (root : List Bytes) (partition : Int32) :
    joinPath root (partitionKey topic partition) = root++[partitionKey topic partition] := by
  rw [joinPath_partitionKey,lead_of_not_mem h,leaf_of_not_mem h]
  rfl

theorem housed_of_follows {r : Rolling UInt8} (h : Follows ps d r) : Housed ps.dir ps.active :=
  ⟨by rw [h.path]; rfl,by rw [h.idxPath]; rfl⟩

/-- A log whose files are short is a stable store. -/
theorem stable_of_follows {r : Rolling UInt8} (h : Follows ps d r)
    (hs : ∀ base bytes, r.files base = some bytes → bytes.length < 2^63) :
    Stable ps.dir ps d := by
  have hact := hs r.base r.active h.present
  have hbytes := congrArg List.length h.holds.bytes
  rw [Segment.bytes,List.length_append] at hbytes
  have hcontent : (d.content ps.active.file.path).length < 2^63 := by omega
  refine ⟨rfl,by rw [h.base]; exact h.path,by rw [h.base]; exact h.idxPath,⟨⟨h.holds.apart,
    h.holds.mem,fun _ => ?_,hcontent⟩,?_⟩,fun _ => by rw [h.base,h.next],fun b => ?_⟩
  · rw [Nat.add_zero,h.holds.size,h.holds.bytes]
  · rw [h.holds.size]
    exact hact
  · by_cases hb : b = r.base
    · subst hb
      rw [← h.path]
      exact hcontent
    · rw [Disk.content]
      have ho : d.files.lookup (logPath ps.dir b) = r.files b := h.others b hb
      rw [ho]
      cases hf : r.files b with
      | none => simp
      | some bytes => simpa using hs b bytes hf

theorem mkdirAll_healthy (hd : d.Healthy) (p : List Bytes) :
    ∃ e, d.mkdirAll p = (none,e) ∧ e.Healthy ∧ e.files = d.files := by
  rw [Disk.mkdirAll,Disk.next_healthy hd]
  exact ⟨_,rfl,hd,rfl⟩

/-- Opening the store of a partition that is shut opens it in the ledger. -/
theorem Represents.opens (h : Represents root cfg b s) (hd : d.Healthy)
    (hfiles : d.files = b.disk.files)
    (hl : b.handler.store.stores.lookup (partitionKey topic partition) = none) :
    ∃ ps e, openPartitionStore (root++[partitionKey topic partition]) cfg d = (.ok ps,e) ∧
      e.dirs = d.dirs ∧
      Represents root cfg (b.withStore (b.handler.store.put topic partition ps) e)
        (s.create (partitionKey topic partition)) := by
  obtain ⟨ha,-,hseg⟩ := h.log_of_none hl
  have hseg₁ : segments (root++[partitionKey topic partition]) d =
      s.files (partitionKey topic partition) := by
    rw [← hseg]
    funext c
    rw [segments,segments,hfiles]
  obtain ⟨ps,e,ho,hpd,hpc,hbuf,hdirs,hf⟩ := openPartitionStore_follows hd
    (root++[partitionKey topic partition]) cfg
  have hw : FilesWithin (root++[partitionKey topic partition]) b.disk e := by
    have hfo := (openPartitionStore_within (root++[partitionKey topic partition]) cfg d).1
    rw [ho] at hfo
    refine ⟨fun q hq => ?_,?_⟩
    · rw [hfo.lookup q hq,hfiles]
    · rw [hfo.healthy hd]
      exact List.nil_suffix
  rw [hseg₁] at hf
  refine ⟨ps,e,ho,hdirs,?_⟩
  rw [Ledger.create,ha,if_neg (by simp)]
  have hsmall := h.small (partitionKey topic partition)
  refine h.change (k := partitionKey topic partition) (b.handler.store.put topic partition ps)
    h.rooted h.config (fun k' hk => put_lookup_ne _ hk ps) hw ?_ ?_ h.opened
  · rw [put_lookup]
    refine .opened hpd hpc hf ?_
    have hbytes := congrArg List.length hf.holds.bytes
    rw [Segment.bytes,hbuf,List.append_nil] at hbytes
    rw [hbytes,Rolling.active,Rolling.openAt_part]
    rfl
  · intro base bytes hx
    by_cases h0 : base = 0
    · subst h0
      simp only [Rolling.openAt,Function.update_self,Option.some.injEq] at hx
      subst hx
      cases hz : s.files (partitionKey topic partition) 0 with
      | none => simp
      | some x => simpa using hsmall 0 x hz
    · simp only [Rolling.openAt,Function.update_of_ne h0] at hx
      exact hsmall base bytes hx

theorem Represents.create (h : Represents root cfg b s) (ht : Single topic)
    (partition : Int32) :
    ∃ b', respond (.create topic partition) b = (none,b') ∧
      Represents root cfg b' (s.create (partitionKey topic partition)) := by
  cases hl : b.handler.store.stores.lookup (partitionKey topic partition) with
  | some ps =>
      obtain ⟨base,ha,-⟩ := h.log_of_lookup hl
      refine ⟨b,?_,?_⟩
      · simp only [respond,getOrCreatePartition_of_lookup hl]
        rfl
      · rw [Ledger.create,ha]
        exact h
  | none =>
      have hdir : b.handler.store.partitionDir topic partition =
          root++[partitionKey topic partition] := by
        rw [BrokerStore.partitionDir,h.rooted]
        exact partitionDir_single ht root partition
      obtain ⟨d,hmk,hd,hfiles⟩ :=
        mkdirAll_healthy h.healthy (root++[partitionKey topic partition])
      obtain ⟨ps,e,ho,-,hs⟩ := h.opens hd hfiles hl
      refine ⟨b.withStore (b.handler.store.put topic partition ps) e,?_,hs⟩
      simp only [respond,BrokerStore.getOrCreatePartition,hl,hdir,hmk,h.config,ho]

/-- The store moves on exactly when the record does not fit. -/
theorem switches_iff {r : Rolling UInt8} (h : Follows ps d r) (data : Bytes) :
    Switches ps data d ↔ ¬r.active.length+(frame data).length ≤ capacity ps.cfg := by
  obtain ⟨qs,e,hr,-⟩ := h.rollover
  rw [Switches,hr,h.fits_iff data]
  exact and_iff_left rfl

/-- A segment that is opened for an append is in its file as a whole. -/
theorem append_rolled {qs : PartitionStore} {r : Rolling UInt8} {data : Bytes}
    {reply : Except Err UInt64} (h : Follows ps d r)
    (hs : ∀ base bytes, r.files base = some bytes → bytes.length < 2^63)
    (hn : ¬r.active.length+(frame data).length ≤ capacity ps.cfg)
    (ha : ps.append data d = (reply,qs,e)) (hq : qs.active.file.closed = false) :
    r.roll.active.length ≤ (e.content qs.active.file.path).length := by
  have hnf : ¬Fits ps data := fun hx => hn ((h.fits_iff data).mpr hx)
  obtain ⟨s,d₁,hc,hd₁,-,hseg⟩ := h.close
  obtain ⟨t,d₂,ho,hbuf,-,hf⟩ := openSegment_follows hd₁ ps.dir (ps.nextBase+ps.active.size) ps.cfg
  rw [hseg,h.next,h.holds.size] at hf
  have hroll : ps.rollover d = (none,⟨ps.dir,ps.cfg,t,ps.nextBase+ps.active.size⟩,d₂) := by
    simp only [PartitionStore.rollover,hc,ho]
  rw [FailedRollover.append_of_not_fits hnf,hroll] at ha
  have hbytes := congrArg List.length hf.holds.bytes
  rw [Segment.bytes,hbuf,List.append_nil] at hbytes
  have hsound := (stable_of_follows hf (fun base bytes hx => Rolling.roll_files_lt
    (by decide) hs base hx)).sound
  rcases hx : t.append data d₂ with ⟨x,u,d₃⟩
  have hg := append_grows hsound hx
  have hgrown (hu : u.file.closed = false) :
      r.roll.active.length ≤ (d₃.content u.file.path).length := by
    rw [hg.path]
    exact hbytes.symm.le.trans (hg.content hu).length_le
  simp only [hx] at ha
  cases x with
  | ok o =>
      cases ha
      exact hgrown hq
  | error x =>
      cases ha
      exact hgrown hq

theorem Represents.append (h : Represents root cfg b s) (topic : Bytes) (partition : Int32)
    (data : Bytes) :
    ∃ s', s.Append cfg (partitionKey topic partition) data
        (respond (.append topic partition data) b).1 s' ∧
      Represents root cfg (respond (.append topic partition data) b).2 s' := by
  cases hl : b.handler.store.stores.lookup (partitionKey topic partition) with
  | none =>
      obtain ⟨-,hlog,-⟩ := h.log_of_none hl
      refine ⟨s,?_,?_⟩
      · rw [Ledger.Append,hlog]
        simp only [respond,Shared.store,hl]
        exact ⟨trivial,trivial⟩
      · simp only [respond,Shared.store,hl]
        exact h
  | some ps =>
      obtain ⟨base,hact,hlog,hdir,hcfg,hf,hc⟩ := h.log_of_lookup hl
      obtain ⟨qs,e,ha,hqd,hqc,-,hq⟩ := hf.append data
      have hw := (storeAppend_within (housed_of_follows hf) data b.disk).1
      rw [ha,hdir] at hw
      rw [hcfg] at ha hq
      have hsw := switches_iff hf data
      rw [hcfg] at hsw
      have hsmall := h.small (partitionKey topic partition)
      generalize hr : (⟨s.files (partitionKey topic partition),base⟩ : Rolling UInt8) = r at *
      refine ⟨s.extend (partitionKey topic partition) (r.append (capacity cfg) (frame data)).2
        (!decide (r.active.length+(frame data).length ≤ capacity cfg))
        (e.content qs.active.file.path).length,?_,?_⟩
      · rw [Ledger.Append,hlog]
        simp only [respond,Shared.store,hl,ha]
        refine ⟨trivial,_,rfl,?_⟩
        have hshort : ∀ base bytes, r.files base = some bytes → bytes.length < 2^63 := by
          rw [← hr]
          exact hsmall
        by_cases hfit : r.active.length+(frame data).length ≤ capacity cfg
        · rw [if_pos (by simpa using hfit)]
          have hg := storeAppend_grows (stable_of_follows hf hshort) (fun hx => hsw.mp hx hfit) ha
          rw [← hc,hg.path]
          exact (hg.content hq.holds.opened).length_le
        · rw [if_neg (by simpa using hfit)]
          exact append_rolled hf hshort (by rw [hcfg]; exact hfit) ha hq.holds.opened
      · simp only [respond,Shared.store,hl,ha]
        refine h.change (b.handler.store.put topic partition qs) h.rooted h.config
          (fun k' hk => put_lookup_ne _ hk qs) hw.files ?_ ?_ ?_
        · rw [put_lookup]
          exact .opened (hqd.trans hdir) (hqc.trans hcfg) hq rfl
        · intro c bytes hx
          refine Rolling.append_files_lt (capacity_lt cfg) ?_ c hx
          rw [← hr]
          exact hsmall
        · by_cases hfit : r.active.length+(frame data).length ≤ capacity cfg
          · rw [if_neg fun hx => hsw.mp hx hfit,decide_eq_true hfit]
            exact h.opened
          · rw [if_pos (hsw.mpr hfit),decide_eq_false hfit,h.opened]
            rfl

/-- A read inside the log leaves all of it in the file. -/
theorem read_of_follows {r : Rolling UInt8} (h : Follows ps d r) {o : UInt64} {n m : Int32}
    (hr : readRange (Int64.ofNat r.active.length) o n = .ok m) :
    ∃ qs e, ps.read o n d =
        (.ok (⟨ps.active.file,o.toInt64.toInt,o.toInt64.toInt+m.toInt⟩,m),qs,e) ∧
      qs.dir = ps.dir ∧ qs.cfg = ps.cfg ∧ Follows qs e r ∧
      e.content qs.active.file.path = r.active ∧ Within ps.dir d e := by
  have hread := PartitionStore.read_eq ps o n d
  simp only [h.size,hr,h.holds.flush_eq] at hread
  have hw := (storeRead_within (housed_of_follows h) o n d).1
  rw [hread] at hw
  exact ⟨_,_,hread,rfl,rfl,h.of_flush,h.flushed,hw⟩

/-- A store that holds the same log goes back into the map. -/
theorem Represents.keep (h : Represents root cfg b s) {base : ℕ} {qs : PartitionStore}
    (hact : s.active (partitionKey topic partition) = some base)
    (hdir : qs.dir = root++[partitionKey topic partition]) (hcfg : qs.cfg = cfg)
    (hf : Follows qs e ⟨s.files (partitionKey topic partition),base⟩)
    (hw : FilesWithin (root++[partitionKey topic partition]) b.disk e) :
    Represents root cfg (b.update topic partition qs e) {s with
      written := Function.update s.written (partitionKey topic partition)
        (e.content qs.active.file.path).length} := by
  have hs := h.change (k := partitionKey topic partition) (b.handler.store.put topic partition qs)
    h.rooted h.config (fun k' hk => put_lookup_ne _ hk qs) hw
    (by rw [put_lookup]; exact .opened hdir hcfg hf rfl) (h.small _) h.opened
  simp only [Function.update_eq_self,← hact] at hs
  exact hs

theorem Represents.read (h : Represents root cfg b s) (topic : Bytes) (partition : Int32)
    (o : UInt64) (n : Int32) :
    ∃ s', s.Read topic partition o n (respond (.read topic partition o n) b).1 s' ∧
      Represents root cfg (respond (.read topic partition o n) b).2 s' := by
  cases hl : b.handler.store.stores.lookup (partitionKey topic partition) with
  | none =>
      obtain ⟨-,hlog,-⟩ := h.log_of_none hl
      refine ⟨s,?_,?_⟩
      · rw [Ledger.Read,hlog]
        simp only [respond,Shared.store,hl]
        exact ⟨trivial,trivial⟩
      · simp only [respond,Shared.store,hl]
        exact h
  | some ps =>
      obtain ⟨base,hact,hlog,hdir,hcfg,hf,hc⟩ := h.log_of_lookup hl
      cases hrange : readRange (Int64.ofNat
          (⟨s.files (partitionKey topic partition),base⟩ : Rolling UInt8).active.length) o n with
      | error x =>
          have hread : ps.read o n b.disk = (.error x,ps,b.disk) := by
            rw [PartitionStore.read_eq,hf.size,hrange]
          refine ⟨s,?_,?_⟩
          · rw [Ledger.Read,hlog]
            simp only [hrange,respond,Shared.store,hl,hread]
            exact ⟨trivial,trivial⟩
          · simp only [respond,Shared.store,hl,hread]
            have hs := h.keep hact hdir hcfg hf (.refl _ _)
            rw [hc,Function.update_eq_self] at hs
            exact hs
      | ok m =>
          obtain ⟨qs,e,hread,hqd,hqc,hq,hall,hw⟩ := read_of_follows hf hrange
          rw [hdir] at hw
          have hs := h.keep hact (hqd.trans hdir) (hqc.trans hcfg) hq hw.files
          refine ⟨_,?_,by simp only [respond,Shared.store,hl,hread]; exact hs⟩
          rw [Ledger.Read,hlog]
          simp only [hrange,respond,Shared.store,hl,hread,hall]
          exact ⟨by rw [h.opened],trivial⟩

/-- Reading a section of a file in order is reading its bytes. -/
theorem readFull_eq (hd : d.Healthy) (f : File) (pos limit : ℤ) (n : ℕ) :
    (SectionReader.readFull ⟨f,pos,limit⟩ n d).1 =
      readSection (if f.closed then none else some (d.content f.path)) pos limit n := by
  by_cases hf : f.closed = true
  · rw [if_pos hf]
    unfold SectionReader.readFull readSection
    simp only [hf,if_true]
    split
    · rfl
    · split
      · rfl
      · split <;> rfl
  · rw [if_neg hf,SectionReader.readFull_healthy hd (by simpa using hf)]
    rfl

theorem Represents.readFull (h : Represents root cfg b s) (r : Section) (n : ℕ) :
    (respond (.readFull r n) b).1 = s.sectionOf r n ∧ (respond (.readFull r n) b).2 = b := by
  cases hl : b.handler.store.stores.lookup (partitionKey r.topic r.partition) with
  | none =>
      obtain ⟨-,hlog,-⟩ := h.log_of_none hl
      rw [Ledger.sectionOf,hlog]
      simp only [respond,Shared.store,hl]
      exact ⟨trivial,trivial⟩
  | some ps =>
      obtain ⟨base,hact,hlog,hdir,hcfg,hf,hc⟩ := h.log_of_lookup hl
      have hbytes : b.disk.content ps.active.file.path =
          (⟨s.files (partitionKey r.topic r.partition),base⟩ : Rolling UInt8).active.take
            (s.written (partitionKey r.topic r.partition)) := by
        rw [← hf.holds.bytes,Segment.bytes,← hc,List.take_left]
      rw [Ledger.sectionOf,hlog]
      simp only [respond,Shared.store,hl]
      refine ⟨?_,?_⟩
      · rw [readFull_eq h.healthy,Shared.fileOf,h.opened]
        split
        · rw [if_neg (by simp [hf.holds.opened]),hbytes]
        · rw [if_pos rfl]
      · have hi := SectionReader.readFull_idle ⟨b.fileOf r ps,r.pos,r.limit⟩ n b.disk
        rw [hi.eq_of_healthy h.healthy]

theorem Represents.topics (h : Represents root cfg b s) : s.Lists b.handler.store.topics := by
  refine ⟨b.handler.store.stores.keys,b.handler.store.stores.keys_nodup,fun k => ?_,?_⟩
  · rw [← h.isSome_iff k,AList.lookup_isSome,AList.mem_keys]
  · have hdirs : ∀ k ps, b.handler.store.stores.lookup k = some ps → ps.dir = root++[k] := by
      intro k ps hk
      obtain ⟨_,_,_,hdir,_⟩ := h.log_of_lookup hk
      exact hdir
    exact topics_of_dirs hdirs

end Representation

/-- A broker without partitions, above directories without logs. -/
theorem represents_blank {root : List Bytes} {d : Disk} (cfg : SegmentConfig) (hd : d.Healthy)
    (h : ∀ k b, d.files.lookup (logPath (root++[k]) b) = none) :
    Represents root cfg ⟨newHandler ⟨root,cfg,∅⟩,d,fun _ => 0⟩ .blank where
  healthy := hd
  rooted := rfl
  config := rfl
  stored := fun k => .shut (funext fun b => h k b)
  small := fun _ _ _ hx => nomatch hx
  opened := rfl
  offsets := rfl

/-- Every call on one component of a path is answered as the ledger allows. -/
theorem represents_simulates (root : List Bytes) (cfg : SegmentConfig) :
    Simulates (Represents root cfg) Allowed respond (Ledger.Step cfg) := by
  intro b s o h ha
  cases o with
  | find topic partition =>
      exact ⟨s,⟨h.isSome_iff _,rfl⟩,h⟩
  | create topic partition =>
      obtain ⟨b',hb,hs⟩ := h.create ha partition
      rw [hb]
      exact ⟨_,⟨rfl,rfl⟩,hs⟩
  | append topic partition data => exact h.append topic partition data
  | size topic partition =>
      refine ⟨s,⟨?_,rfl⟩,?_⟩
      · cases hl : b.handler.store.stores.lookup (partitionKey topic partition) with
        | none =>
            rw [Ledger.size,(h.log_of_none hl).2.1]
            simp only [respond,Shared.store,hl]
            rfl
        | some ps =>
            obtain ⟨base,-,hlog,-,-,hf,-⟩ := h.log_of_lookup hl
            rw [Ledger.size,hlog]
            simp only [respond,Shared.store,hl]
            exact hf.size
      · rw [respond]
        split <;> exact h
  | read topic partition o n => exact h.read topic partition o n
  | readFull r n =>
      obtain ⟨hr,hb⟩ := h.readFull r n
      rw [hb]
      exact ⟨s,⟨hr,rfl⟩,h⟩
  | topics => exact ⟨s,⟨h.topics,rfl⟩,h⟩
  | cache c =>
      refine ⟨_,rfl,⟨h.healthy,h.rooted,h.config,h.stored,h.small,h.opened,?_⟩⟩
      rw [← h.offsets]
      rfl
  | offsets req =>
      refine ⟨s,⟨?_,rfl⟩,h⟩
      rw [← h.offsets]
      rfl

end Kage.BrokerLedger
