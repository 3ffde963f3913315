import Kage.BrokerStores
import Kage.OffsetRecords
import Kage.LastWrite

/-!
# Committing, fetching and reloading consumer offsets

A commit is appended to the first partition of an internal topic and then put
in a cache, from which offsets are fetched. The two halves run under different
locks, so each is a definition of its own. After a restart the cache is filled
from the log of that partition: one read of at most `2^31-1` bytes from offset
zero, split into records, of which malformed ones are skipped.

Parsing requests and writing responses are outside this module. Strings of a
request come as the reader of the protocol delivers them. Fields of the
requests that the handlers do not read are left out, as are the locks.
-/
namespace Kage.OffsetHandlers
open ByteStrings LengthPrefixed FaultyDisk RollingLog PartitionLog BrokerStores OffsetRecords
open LastWrite

def ConsumerOffsetsTopic : Bytes := ascii "__consumer_offsets"
def OffsetUnknown : Int64 := -1

abbrev OffsetCache := OffsetCacheKey → Option Int64

structure Handler where
  offsetCache : OffsetCache
  store : BrokerStore

def newHandler (store : BrokerStore) : Handler := ⟨fun _ => none,store⟩

structure OffsetCommitPartition where
  partition : Int32
  committedOffset : Int64
  deriving DecidableEq

structure OffsetCommitTopic where
  topicName : WireString
  partitions : List OffsetCommitPartition
  deriving DecidableEq

structure OffsetCommitRequest where
  groupID : WireString
  topics : List OffsetCommitTopic
  deriving DecidableEq

structure OffsetCommitPartitionResponse where
  partition : Int32
  errorCode : Int16
  deriving DecidableEq

structure OffsetCommitTopicResponse where
  topicName : WireString
  partitions : List OffsetCommitPartitionResponse
  deriving DecidableEq

/-- The first half of a commit: the record goes to the log. -/
def appendCommit (c : Commit) (bs : BrokerStore) (d : Disk) : Option Err × BrokerStore × Disk :=
  match bs.getOrCreatePartition ConsumerOffsetsTopic 0 d with
  | (.error e,bs,d) => (some e,bs,d)
  | (.ok ps,bs,d) =>
      match ps.append c.record d with
      | (.error e,ps,d) => (some e,bs.put ConsumerOffsetsTopic 0 ps,d)
      | (.ok _,ps,d) => (none,bs.put ConsumerOffsetsTopic 0 ps,d)

/-- The second half: the offset goes to the cache. -/
def cacheCommit (c : Commit) (cache : OffsetCache) : OffsetCache :=
  Function.update cache c.key (some c.offset)

def commitPartition (c : Commit) (h : Handler) (d : Disk) :
    OffsetCommitPartitionResponse × Handler × Disk :=
  match appendCommit c h.store d with
  | (some _,bs,d) => (⟨c.partition,1⟩,{h with store := bs},d)
  | (none,bs,d) => (⟨c.partition,0⟩,⟨cacheCommit c h.offsetCache,bs⟩,d)

def commitPartitions (groupID topicName : WireString) : List OffsetCommitPartition → Handler →
    Disk → List OffsetCommitPartitionResponse × Handler × Disk
  | [],h,d => ([],h,d)
  | part::parts,h,d =>
      match commitPartition ⟨groupID,topicName,part.partition,part.committedOffset⟩ h d with
      | (resp,h,d) =>
          match commitPartitions groupID topicName parts h d with
          | (resps,h,d) => (resp::resps,h,d)

def commitTopics (groupID : WireString) : List OffsetCommitTopic → Handler → Disk →
    List OffsetCommitTopicResponse × Handler × Disk
  | [],h,d => ([],h,d)
  | topic::topics,h,d =>
      match commitPartitions groupID topic.topicName topic.partitions h d with
      | (parts,h,d) =>
          match commitTopics groupID topics h d with
          | (resps,h,d) => (⟨topic.topicName,parts⟩::resps,h,d)

def handleOffsetCommit (req : OffsetCommitRequest) (h : Handler) (d : Disk) :
    List OffsetCommitTopicResponse × Handler × Disk :=
  commitTopics req.groupID req.topics h d

def topicCommits (groupID : WireString) (t : OffsetCommitTopic) : List Commit :=
  t.partitions.map fun p => ⟨groupID,t.topicName,p.partition,p.committedOffset⟩

/-- The offsets that a request commits, in the order in which they are handled. -/
def commits (req : OffsetCommitRequest) : List Commit :=
  req.topics.flatMap (topicCommits req.groupID)

structure OffsetFetchTopic where
  topicName : WireString
  partitions : List Int32

structure OffsetFetchRequest where
  groupID : WireString
  topics : List OffsetFetchTopic

structure OffsetFetchPartitionResponse where
  partition : Int32
  committedOffset : Int64
  committedMetadata : Bytes
  errorCode : Int16
  deriving DecidableEq

structure OffsetFetchTopicResponse where
  topicName : WireString
  partitions : List OffsetFetchPartitionResponse
  deriving DecidableEq

def handleOffsetFetch (req : OffsetFetchRequest) (h : Handler) : List OffsetFetchTopicResponse :=
  req.topics.map fun topic => ⟨topic.topicName,topic.partitions.map fun partition =>
    let cacheKey : OffsetCacheKey := ⟨req.groupID.1,topic.topicName.1,partition⟩
    match h.offsetCache cacheKey with
    | some offset => ⟨partition,offset,[],0⟩
    | none => ⟨partition,OffsetUnknown,[],0⟩⟩

/-- The loop over the records of the log. Every pass takes at least four bytes
of the section, so its length bounds the passes. -/
def hydrate : ℕ → SectionReader → OffsetCache → Disk → Option Err × OffsetCache × Disk
  | 0,_,cache,d => (none,cache,d)
  | fuel+1,r,cache,d =>
      match r.readFull 4 d with
      | (.error e,_,d) =>
          if e.is .eof || e.is .unexpectedEOF then (none,cache,d)
          else (some (.wrap "LoadOffsetsCache: read record length" e),cache,d)
      | (.ok lenBuf,r,d) =>
          let recLen := uint lenBuf
          match r.readFull recLen d with
          | (.error e,_,d) => (some (.wrap "LoadOffsetsCache: read record body" e),cache,d)
          | (.ok record,r,d) =>
              match decodeOffsetRecord record with
              | .error _ => hydrate fuel r cache d
              | .ok (cacheKey,offset) =>
                  hydrate fuel r (Function.update cache cacheKey (some offset)) d

def loadOffsetsCache (h : Handler) (d : Disk) : Option Err × Handler × Disk :=
  match h.store.getOrCreatePartition ConsumerOffsetsTopic 0 d with
  | (.error e,bs,d) => (some (.wrap "LoadOffsetsCache: open partition" e),{h with store := bs},d)
  | (.ok ps,bs,d) =>
      let size := ps.Size
      if size = 0 then (none,{h with store := bs},d) else
        let maxBytes := if size > 2147483647 then 2147483647 else size.toInt32
        match ps.read 0 maxBytes d with
        | (.error e,ps,d) => (some (.wrap "LoadOffsetsCache: read partition" e),
            {h with store := bs.put ConsumerOffsetsTopic 0 ps},d)
        | (.ok (r,_),ps,d) =>
            match hydrate ((r.limit-r.pos).toNat+1) r h.offsetCache d with
            | (e,cache,d) => (e,⟨cache,bs.put ConsumerOffsetsTopic 0 ps⟩,d)

/-- Once the fuel covers the section, more of it changes nothing. -/
theorem hydrate_fuel {fuel : ℕ} {r : SectionReader} {cache : OffsetCache} {d : Disk}
    (h : (r.limit-r.pos).toNat < 4*fuel) :
    hydrate (fuel+1) r cache d = hydrate fuel r cache d := by
  induction fuel generalizing r cache d with
  | zero => omega
  | succ fuel ih =>
      rw [hydrate]
      conv_rhs => rw [hydrate]
      rcases hr : r.readFull 4 d with ⟨x,r₁,d₁⟩
      cases x with
      | error e => rfl
      | ok lenBuf =>
          obtain ⟨hp,hl,hle⟩ := SectionReader.readFull_advance hr
          simp only
          rcases hb : r₁.readFull (uint lenBuf) d₁ with ⟨y,r₂,d₂⟩
          cases y with
          | error e => rfl
          | ok record =>
              obtain ⟨hp₂,hl₂,-⟩ := SectionReader.readFull_advance hb
              have h₂ : (r₂.limit-r₂.pos).toNat < 4*fuel := by
                have := hle (by omega)
                omega
              simp only
              cases decodeOffsetRecord record with
              | error e => exact ih h₂
              | ok kv => exact ih h₂

/-- The bytes that a commit takes in the log. -/
def commitSize (c : Commit) : ℕ := (frame c.record).length

def totalSize (cs : List Commit) : ℕ := (cs.map commitSize).sum

/-- The log of these commits. -/
def commitLog (cs : List Commit) : Bytes := frames (cs.map Commit.record)

theorem commitLog_cons (c : Commit) (cs : List Commit) :
    commitLog (c::cs) = frame c.record++commitLog cs := frames_cons _ _

theorem commitLog_length (cs : List Commit) : (commitLog cs).length = totalSize cs := by
  induction cs with
  | nil => rfl
  | cons c cs ih => rw [commitLog_cons,List.length_append,ih,totalSize,totalSize,List.map_cons,
      List.sum_cons,commitSize]

theorem record_length_lt (c : Commit) : c.record.length < 256^4 := by
  have hg := c.groupID.2
  have ht := c.topic.2
  rw [c.record_length]
  omega

section Hydration
variable {d : Disk} {f : File}

/-- Bytes below the limit are those of the log that the file agrees with. -/
theorem readFull_agreeing (hd : d.Healthy) (hf : f.closed = false) {log : Bytes} {limit : ℕ}
    (hc : (d.content f.path).take limit = log.take limit)
    (hhigh : limit ≤ (d.content f.path).length) {pos n : ℕ} (hl : pos+n ≤ limit) :
    SectionReader.readFull ⟨f,pos,limit⟩ n d =
      (.ok (window log pos n),⟨f,(pos+n : ℕ),limit⟩,d) := by
  have hw : window (d.content f.path) pos n = window log pos n := by
    rw [← window_take _ hl,hc,window_take _ hl]
  rw [SectionReader.readFull_ok hd hf _ _ (by omega) (by omega),hw]
  rfl

/-- The write that a record stands for, if it is the record of an offset. -/
def recordWrite (x : Bytes) : Option (OffsetCacheKey × Int64) :=
  match decodeOffsetRecord x with
  | .ok w => some w
  | .error _ => none

/-- The writes of a log of any records. -/
def recordWrites (xs : List Bytes) : List (OffsetCacheKey × Int64) := xs.filterMap recordWrite

/-- Replaying a file that is a log up to a limit: the records that fit are
applied, those that are no records of offsets are passed over, and the end is
clean unless the limit lies in the body of a record. -/
theorem hydrate_records (hd : d.Healthy) (hf : f.closed = false) {xs : List Bytes}
    (hx : ∀ x ∈ xs, x.length < 256^4) (before : Bytes) (limit : ℕ)
    (hc : (d.content f.path).take limit = (before++frames xs).take limit)
    (hlow : before.length ≤ limit) (hhigh : limit ≤ (d.content f.path).length)
    (cache : OffsetCache) (fuel : ℕ) (hfuel : limit < before.length+4*fuel) :
    ∃ err, hydrate fuel ⟨f,before.length,limit⟩ cache d =
        (err,replay cache
          (recordWrites (Rolling.fitting frameSize limit before.length xs)),d) ∧
      (err = none ↔ limit < before.length+
        ((Rolling.fitting frameSize limit before.length xs).map frameSize).sum+4) := by
  induction xs generalizing before cache fuel with
  | nil =>
      obtain ⟨fuel,rfl⟩ := Nat.exists_eq_succ_of_ne_zero (show fuel ≠ 0 by omega)
      have hl : limit = before.length := by
        have hlen := congrArg List.length hc
        rw [List.length_take_of_le hhigh,frames_nil,List.append_nil,List.length_take] at hlen
        omega
      obtain ⟨e,r,hr,he⟩ := SectionReader.readFull_short hd hf before.length 4 limit
        (by omega) (by omega)
      refine ⟨none,?_,by simp [Rolling.fitting]; omega⟩
      rw [hydrate,hr]
      rcases he with rfl|rfl <;> rfl
  | cons x xs ih =>
      obtain ⟨fuel,rfl⟩ := Nat.exists_eq_succ_of_ne_zero (show fuel ≠ 0 by omega)
      rw [List.forall_mem_cons] at hx
      have hsize := frameSize_eq x
      have hu := uint_putUint_of_lt hx.1
      rw [frames_cons] at hc
      by_cases hfit : before.length+frameSize x ≤ limit
      · have hlen : (before++frame x).length = before.length+frameSize x := by
          rw [List.length_append,frameSize]
        have hheader := readFull_agreeing hd hf hc hhigh
          (show before.length+4 ≤ limit by omega)
        have hbody := readFull_agreeing hd hf hc hhigh
          (show before.length+4+x.length ≤ limit by omega)
        rw [header_at] at hheader
        rw [payload_at] at hbody
        obtain ⟨err,hy,he⟩ := ih hx.2 (before++frame x) (by rw [hc,List.append_assoc]) (by omega)
          (replay cache (recordWrites [x])) fuel (by omega)
        rw [hlen] at hy he
        refine ⟨err,?_,?_⟩
        · rw [hydrate,hheader]
          simp only [hu,hbody]
          rw [Nat.add_assoc,← hsize,Rolling.fitting,if_pos hfit]
          unfold recordWrites at hy ⊢
          unfold recordWrite at hy ⊢
          cases hdec : decodeOffsetRecord x with
          | error e => simpa [hdec,replay] using hy
          | ok w => simpa [hdec,replay] using hy
        · rw [he,Rolling.fitting,if_pos hfit,List.map_cons,List.sum_cons,← Nat.add_assoc]
      · rw [Rolling.fitting,if_neg hfit]
        by_cases h4 : before.length+4 ≤ limit
        · have hheader := readFull_agreeing hd hf hc hhigh h4
          rw [header_at] at hheader
          obtain ⟨e,r,hr,-⟩ := SectionReader.readFull_short hd hf (before.length+4)
            x.length limit (by omega) (by push_cast; omega)
          refine ⟨some (.wrap "LoadOffsetsCache: read record body" e),?_,?_⟩
          · rw [hydrate,hheader]
            simp only [hu,hr]
            rfl
          · simp only [List.map_nil,List.sum_nil]
            constructor
            · intro h
              cases h
            · intro h
              omega
        · obtain ⟨e,r,hr,he⟩ := SectionReader.readFull_short hd hf before.length 4 limit
            (by omega) (by omega)
          refine ⟨none,?_,by simp; omega⟩
          rw [hydrate,hr]
          rcases he with rfl|rfl <;> rfl

/-- The largest number of bytes that one read asks for. -/
def hydrationWindow : ℕ := 2^31-1

/-- The commits that loading the cache applies. -/
def hydrated (cs : List Commit) : List Commit := Rolling.fitting commitSize hydrationWindow 0 cs

/-- The number of bytes of a log that loading asks for. -/
theorem maxBytes_toInt {n : ℕ} (h : n < 2^63) :
    (if Int64.ofNat n > 2147483647 then 2147483647 else (Int64.ofNat n).toInt32).toInt =
      min n hydrationWindow := by
  have hn := Int64.toInt_ofNat_of_lt h
  have hc : (2147483647 : Int64).toInt = 2147483647 := rfl
  rw [hydrationWindow]
  split
  · rename_i hg
    rw [gt_iff_lt,Int64.lt_iff_toInt_lt,hn,hc] at hg
    have hm : (2147483647 : Int32).toInt = 2147483647 := rfl
    omega
  · rename_i hg
    rw [gt_iff_lt,Int64.lt_iff_toInt_lt,hn,hc] at hg
    rw [Int64.toInt_toInt32,hn,Int.bmod_eq_of_le (by omega) (by omega)]
    omega

/-- Loading a file that is the beginning of a log replays the records that lie
whole in what is read of it, and fails when that ends in the body of the next
one. -/
theorem loadOffsetsCache_cut {bs bs' : BrokerStore} {ps : PartitionStore} {e : Disk}
    {log : Bytes} {xs : List Bytes} (hx : ∀ x ∈ xs, x.length < 256^4) (n : ℕ)
    (hg : bs.getOrCreatePartition ConsumerOffsetsTopic 0 d = (.ok ps,bs',e))
    (h : ps.active.Holds e log) (hlog : log = (frames xs).take n) (hl : log.length < 2^63) :
    ∃ err h' e', loadOffsetsCache (newHandler bs) d = (err,h',e') ∧
      h'.offsetCache = replay (fun _ => none) (recordWrites
        (Rolling.fitting frameSize (min log.length hydrationWindow) 0 xs)) ∧
      (err = none ↔ min log.length hydrationWindow <
        ((Rolling.fitting frameSize (min log.length hydrationWindow) 0 xs).map
          frameSize).sum+4) := by
  have hsize : ps.Size = Int64.ofNat log.length := size_of_holds h
  have hS := Int64.toInt_ofNat_of_lt hl
  have hz : (0 : Int64).toInt = 0 := rfl
  by_cases h0 : log.length = 0
  · have hfit : Rolling.fitting frameSize 0 0 xs = [] := by
      cases xs with
      | nil => rfl
      | cons x xs =>
          have := frameSize_eq x
          rw [Rolling.fitting,if_neg (by omega)]
    rw [h0,Nat.zero_min,hfit]
    refine ⟨none,⟨fun _ => none,bs'⟩,e,?_,rfl,by decide⟩
    simp only [loadOffsetsCache,newHandler,hg,hsize,h0]
    rfl
  · have hne : Int64.ofNat log.length ≠ 0 := fun hx => by
      have := congrArg Int64.toInt hx
      omega
    have hmax := maxBytes_toInt hl
    generalize hm : (if Int64.ofNat log.length > 2147483647 then 2147483647
      else (Int64.ofNat log.length).toInt32) = m at hmax
    have hwin : hydrationWindow = 2147483647 := rfl
    obtain ⟨k,hk,hread⟩ := read_of_holds h hl 0 (by omega) m (by omega)
    have hcontent : (e.appendTo ps.active.file.path ps.active.bw.buf).content
        ps.active.file.path = log := h.flushed
    generalize hlim : min log.length hydrationWindow = limit at *
    have hagree : ((e.appendTo ps.active.file.path ps.active.bw.buf).content
        ps.active.file.path).take limit = ([]++frames xs).take limit := by
      have hn : limit ≤ n := by
        have hlen := congrArg List.length hlog
        rw [List.length_take] at hlen
        omega
      rw [hcontent,hlog,List.take_take,Nat.min_eq_left hn,List.nil_append]
    obtain ⟨err,hy,he⟩ := hydrate_records h.of_flush.healthy h.opened hx [] limit
      hagree (Nat.zero_le _) (by rw [hcontent]; omega) (fun _ => none) (limit+1) (by omega)
    have hend : ((0 : ℕ) : ℤ)+k.toInt = (limit : ℕ) := by omega
    have hfuel : (((0 : ℕ) : ℤ)+k.toInt-((0 : ℕ) : ℤ)).toNat+1 = limit+1 := by omega
    rw [List.length_nil] at hy he
    rw [Nat.zero_add] at he
    refine ⟨err,⟨replay (fun _ => none) (recordWrites (Rolling.fitting frameSize limit 0 xs)),
      bs'.put ConsumerOffsetsTopic 0
        {ps with active := {ps.active with bw := {ps.active.bw with buf := []}}}⟩,
      e.appendTo ps.active.file.path ps.active.bw.buf,?_,rfl,he⟩
    have hread' : ps.read 0 m e = _ := hread
    simp only [loadOffsetsCache,newHandler,hg,hsize,if_neg hne,hm,hread']
    rw [hfuel,hend,hy]

/-- Loading replays the records that lie whole in the window, and fails when it
ends in the body of the next one. -/
theorem loadOffsetsCache_records {bs bs' : BrokerStore} {ps : PartitionStore} {e : Disk}
    {log : Bytes} {xs : List Bytes} (hx : ∀ x ∈ xs, x.length < 256^4)
    (hg : bs.getOrCreatePartition ConsumerOffsetsTopic 0 d = (.ok ps,bs',e))
    (h : ps.active.Holds e log) (hlog : log = frames xs) (hl : log.length < 2^63) :
    ∃ err h' e', loadOffsetsCache (newHandler bs) d = (err,h',e') ∧
      h'.offsetCache = replay (fun _ => none)
        (recordWrites (Rolling.fitting frameSize hydrationWindow 0 xs)) ∧
      (err = none ↔ min (frames xs).length hydrationWindow <
        ((Rolling.fitting frameSize hydrationWindow 0 xs).map frameSize).sum+4) := by
  have hseen : Rolling.fitting frameSize (min (frames xs).length hydrationWindow) 0 xs =
      Rolling.fitting frameSize hydrationWindow 0 xs := by
    have hlen := frames_length xs
    rcases le_total (frames xs).length hydrationWindow with hle|hle
    · rw [Nat.min_eq_left hle,Rolling.fitting_eq_self (by omega),
        Rolling.fitting_eq_self (by omega)]
    · rw [Nat.min_eq_right hle]
  have hcut := loadOffsetsCache_cut hx (frames xs).length hg h
    (by rw [hlog,List.take_length]) hl
  rwa [hlog,hseen] at hcut

/-- A log within the window is replayed as a whole. -/
theorem loadOffsetsCache_whole {bs bs' : BrokerStore} {ps : PartitionStore} {e : Disk}
    {xs : List Bytes} (hg : bs.getOrCreatePartition ConsumerOffsetsTopic 0 d = (.ok ps,bs',e))
    (h : ps.active.Holds e (frames xs)) (hl : (frames xs).length ≤ hydrationWindow) :
    ∃ h' e', loadOffsetsCache (newHandler bs) d = (none,h',e') ∧
      h'.offsetCache = lastValue (recordWrites xs) := by
  have hwindow : hydrationWindow = 2147483647 := rfl
  have hx : ∀ x ∈ xs, x.length < 256^4 := by
    intro x hx
    have := length_le_frames hx
    omega
  have hall : Rolling.fitting frameSize hydrationWindow 0 xs = xs :=
    Rolling.fitting_eq_self (by rw [← frames_length]; omega)
  obtain ⟨err,h',e',hload,hcache,herr⟩ := loadOffsetsCache_records hx hg h rfl (by omega)
  rw [hall] at hcache
  rw [hall,← frames_length] at herr
  obtain rfl : err = none := herr.mpr (by omega)
  exact ⟨h',e',hload,hcache.trans (funext fun k => replay_eq_lastValue _ k)⟩

theorem recordWrites_commits (cs : List Commit) :
    recordWrites (cs.map Commit.record) = cs.map Commit.write := by
  induction cs with
  | nil => rfl
  | cons c cs ih =>
      have hc : recordWrite c.record = some c.write := by
        simp only [recordWrite,decodeOffsetRecord_record,Commit.write]
      rw [List.map_cons,recordWrites,List.filterMap_cons_some hc,List.map_cons]
      exact congrArg (c.write::·) ih

/-- Loading replays the commits that lie whole in the window, and fails when it
ends in the body of the next one. -/
theorem loadOffsetsCache_spec {bs bs' : BrokerStore} {ps : PartitionStore} {e : Disk}
    {log : Bytes} {cs : List Commit}
    (hg : bs.getOrCreatePartition ConsumerOffsetsTopic 0 d = (.ok ps,bs',e))
    (h : ps.active.Holds e log) (hlog : log = commitLog cs) (hl : log.length < 2^63) :
    ∃ err h' e', loadOffsetsCache (newHandler bs) d = (err,h',e') ∧
      h'.offsetCache = replay (fun _ => none) ((hydrated cs).map Commit.write) ∧
      (err = none ↔ min (totalSize cs) hydrationWindow < totalSize (hydrated cs)+4) := by
  have hx : ∀ x ∈ cs.map Commit.record, x.length < 256^4 :=
    List.forall_mem_map.mpr fun c _ => record_length_lt c
  have hfit : Rolling.fitting frameSize hydrationWindow 0 (cs.map Commit.record) =
      (hydrated cs).map Commit.record := Rolling.fitting_map _ _ _ _ _
  have hsum (cs : List Commit) : ((cs.map Commit.record).map frameSize).sum = totalSize cs := by
    rw [List.map_map]
    rfl
  obtain ⟨err,h',e',hload,hcache,herr⟩ := loadOffsetsCache_records hx hg h hlog hl
  rw [hfit,recordWrites_commits] at hcache
  rw [hfit,hsum,frames_length,hsum] at herr
  exact ⟨err,h',e',hload,hcache,herr⟩

end Hydration

end Kage.OffsetHandlers
