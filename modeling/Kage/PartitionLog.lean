import Kage.SegmentLog
import Kage.RollingLog

/-!
# The store of one partition

A partition is a directory of segments of which only the active one is written
and read. An append that the active segment refuses closes it, moves the base
past its end and opens the segment with that base, then tries once more. Each
failure leaves the store as the source leaves it: a segment that could not be
closed stays active, and when only the next one could not be opened the base
has already moved and the active segment is closed.

`Follows` relates a store on a healthy disk to the rolling log of its directory
whose entries are the framed payloads. Every operation of the store is the
operation of that log, so what holds of rolling logs holds here. Opening always
takes the segment with base zero, whatever else the directory holds. Base
offsets are natural numbers: no partition stores `2^64` bytes.
-/
namespace Kage.PartitionLog
open ByteStrings LengthPrefixed FaultyDisk SparseIndex SegmentLog RollingLog

structure PartitionStore where
  dir : List Bytes
  cfg : SegmentConfig
  active : Segment
  nextBase : ℕ
  deriving DecidableEq, Repr

def openPartitionStore (dir : List Bytes) (cfg : SegmentConfig) (d : Disk) :
    Except Err PartitionStore × Disk :=
  match openSegment dir 0 cfg d with
  | (.error e,d) => (.error (.wrap "storage: open partition store" e),d)
  | (.ok seg,d) => (.ok ⟨dir,cfg,seg,0⟩,d)

namespace PartitionStore

def rollover (ps : PartitionStore) (d : Disk) : Option Err × PartitionStore × Disk :=
  let size := ps.active.size
  match ps.active.close d with
  | (some e,seg,d) => (some (.wrap "storage: rollover close" e),{ps with active := seg},d)
  | (none,seg,d) =>
      let ps := {ps with active := seg, nextBase := ps.nextBase+size}
      match openSegment ps.dir ps.nextBase ps.cfg d with
      | (.error e,d) => (some (.wrap "storage: rollover open" e),ps,d)
      | (.ok seg,d) => (none,{ps with active := seg},d)

def append (ps : PartitionStore) (data : Bytes) (d : Disk) :
    Except Err UInt64 × PartitionStore × Disk :=
  match ps.active.append data d with
  | (.ok offset,seg,d) => (.ok offset,{ps with active := seg},d)
  | (.error e,seg,d) =>
      let ps := {ps with active := seg}
      if e = ErrSegmentFull then
        match ps.rollover d with
        | (some e,ps,d) => (.error e,ps,d)
        | (none,ps,d) =>
            match ps.active.append data d with
            | (.ok offset,seg,d) => (.ok offset,{ps with active := seg},d)
            | (.error e,seg,d) =>
                (.error (.wrap "storage: partition store append" e),{ps with active := seg},d)
      else (.error (.wrap "storage: partition store append" e),ps,d)

/-- A reader over the window and the number of bytes it covers. -/
def read (ps : PartitionStore) (fetchOffset : UInt64) (maxBytes : Int32) (d : Disk) :
    Except Err (SectionReader × Int32) × PartitionStore × Disk :=
  let segSize := ps.active.Size
  if fetchOffset.toInt64 ≥ segSize then (.error ErrInvalidOffset,ps,d) else
    let available := segSize-fetchOffset.toInt64
    let maxBytes := if maxBytes.toInt64 > available then available.toInt32 else maxBytes
    match ps.active.read fetchOffset maxBytes d with
    | (.error e,seg,d) => (.error e,{ps with active := seg},d)
    | (.ok r,seg,d) => (.ok (r,maxBytes),{ps with active := seg},d)

def Size (ps : PartitionStore) : Int64 := ps.active.Size

def flush (ps : PartitionStore) (d : Disk) : Option Err × PartitionStore × Disk :=
  match ps.active.flush d with
  | (r,seg,d) => (r,{ps with active := seg},d)

def close (ps : PartitionStore) (d : Disk) : Option Err × PartitionStore × Disk :=
  match ps.active.close d with
  | (r,seg,d) => (r,{ps with active := seg},d)

/-- What a caller obtains who reads all that `read` offers. -/
def fetch (ps : PartitionStore) (fetchOffset : UInt64) (maxBytes : Int32) (d : Disk) :
    Except Err Bytes :=
  match ps.read fetchOffset maxBytes d with
  | (.error e,_,_) => .error e
  | (.ok (r,n),_,d) => (r.readFull n.toInt.toNat d).1

end PartitionStore

/-- The range checks of a read: they depend on the size alone. The answer is
the number of bytes to serve. -/
def readRange (segSize : Int64) (fetchOffset : UInt64) (maxBytes : Int32) : Except Err Int32 :=
  if fetchOffset.toInt64 ≥ segSize then .error ErrInvalidOffset else
    let available := segSize-fetchOffset.toInt64
    let maxBytes := if maxBytes.toInt64 > available then available.toInt32 else maxBytes
    if maxBytes ≤ 0 then .error ErrInvalidSize else
    if fetchOffset.toInt64+maxBytes.toInt64 > segSize then .error ErrInvalidSize else
    .ok maxBytes

/-- Reading is the range check, a flush of the buffer and a window. -/
theorem PartitionStore.read_eq (ps : PartitionStore) (o : UInt64) (n : Int32) (d : Disk) :
    ps.read o n d =
      match readRange ps.Size o n with
      | .error e => (.error e,ps,d)
      | .ok k =>
          match ps.active.bw.flush ps.active.file d with
          | (some e,bw,d) => (.error (.wrap "storage: flush before read" e),
              {ps with active := {ps.active with bw := bw}},d)
          | (none,bw,d) => (.ok (⟨ps.active.file,o.toInt64.toInt,o.toInt64.toInt+k.toInt⟩,k),
              {ps with active := {ps.active with bw := bw}},d) := by
  unfold PartitionStore.read Segment.read readRange PartitionStore.Size
  simp only
  by_cases ho : o.toInt64 ≥ ps.active.Size
  · simp only [if_pos ho]
  · simp only [if_neg ho]
    generalize (if n.toInt64 > ps.active.Size-o.toInt64 then
      (ps.active.Size-o.toInt64).toInt32 else n) = m
    by_cases hm : m ≤ 0
    · simp only [if_pos hm]
    · simp only [if_neg hm]
      by_cases hs : o.toInt64+m.toInt64 > ps.active.Size
      · simp only [if_pos hs]
      · simp only [if_neg hs]
        rcases ps.active.bw.flush ps.active.file d with ⟨x,bw,e⟩
        cases x <;> rfl

/-- A read that succeeds has flushed the buffer and hands out a section of the
file. -/
theorem PartitionStore.read_ok {ps qs : PartitionStore} {d e : Disk} {o : UInt64} {m n : Int32}
    {r : SectionReader} (h : ps.read o m d = (.ok (r,n),qs,e)) :
    readRange ps.Size o m = .ok n ∧
      r = ⟨ps.active.file,o.toInt64.toInt,o.toInt64.toInt+n.toInt⟩ ∧
      ∃ bw, ps.active.bw.flush ps.active.file d = (none,bw,e) ∧
        qs = {ps with active := {ps.active with bw := bw}} := by
  rw [PartitionStore.read_eq] at h
  cases hk : readRange ps.Size o m with
  | error x =>
      rw [hk] at h
      cases h
  | ok k =>
      rw [hk] at h
      simp only at h
      rcases hw : ps.active.bw.flush ps.active.file d with ⟨x,bw,d₁⟩
      rw [hw] at h
      cases x with
      | some x => cases h
      | none =>
          cases h
          exact ⟨rfl,rfl,bw,rfl,rfl⟩

theorem PartitionStore.fetch_eq (ps : PartitionStore) (o : UInt64) (n : Int32) (d : Disk) :
    ps.fetch o n d =
      match readRange ps.Size o n with
      | .error e => .error e
      | .ok k =>
          match ps.active.bw.flush ps.active.file d with
          | (some e,_,_) => .error (.wrap "storage: flush before read" e)
          | (none,_,d) => (SectionReader.readFull
              ⟨ps.active.file,o.toInt64.toInt,o.toInt64.toInt+k.toInt⟩ k.toInt.toNat d).1 := by
  rw [PartitionStore.fetch,PartitionStore.read_eq]
  cases readRange ps.Size o n with
  | error e => rfl
  | ok k =>
      simp only
      rcases ps.active.bw.flush ps.active.file d with ⟨x,bw,e⟩
      cases x <;> rfl

theorem readRange_pos {size : Int64} {o : UInt64} {n k : Int32}
    (h : readRange size o n = .ok k) : 0 < k.toInt := by
  unfold readRange at h
  split at h
  · cases h
  · simp only at h
    generalize (if n.toInt64 > size-o.toInt64 then (size-o.toInt64).toInt32 else n) = m at h
    split at h
    · cases h
    · rename_i hk
      split at h
      · cases h
      · obtain rfl := Except.ok.inj h
        rwa [Int32.le_iff_toInt_le,not_le] at hk

/-- What is left of a log behind an offset. -/
theorem available_toInt {len : ℕ} (hlen : len < 2^63) {o : UInt64} (h0 : 0 ≤ o.toInt64.toInt)
    (ho : o.toInt64.toInt < len) : (Int64.ofNat len-o.toInt64).toInt = len-o.toInt64.toInt := by
  rw [Int64.toInt_sub,Int64.toInt_ofNat_of_lt hlen]
  exact Int.bmod_eq_of_le (by omega) (by omega)

/-- A request cut to what is left. -/
theorem capped_toInt {a : Int64} (ha : 0 ≤ a.toInt) (n : Int32) :
    (if n.toInt64 > a then a.toInt32 else n).toInt = min n.toInt a.toInt := by
  have hn := n.toInt_lt
  simp only [gt_iff_lt,Int64.lt_iff_toInt_lt,Int32.toInt_toInt64]
  split
  · rw [Int64.toInt_toInt32,Int.bmod_eq_of_le (by omega) (by omega)]
    omega
  · omega

/-- The range that is served lies inside the log. -/
theorem readRange_ok {len : ℕ} (hlen : len < 2^63) {o : UInt64} {n k : Int32}
    (h : readRange (Int64.ofNat len) o n = .ok k) :
    o.toInt64.toInt < len ∧
      (0 ≤ o.toInt64.toInt → k.toInt = min n.toInt (len-o.toInt64.toInt)) := by
  have hl := Int64.toInt_ofNat_of_lt hlen
  unfold readRange at h
  split at h
  · cases h
  · rename_i ho
    simp only [ge_iff_le,Int64.le_iff_toInt_le,hl,not_le] at ho
    simp only at h
    generalize hm : (if n.toInt64 > Int64.ofNat len-o.toInt64 then
      (Int64.ofNat len-o.toInt64).toInt32 else n) = m at h
    split at h
    · cases h
    · split at h
      · cases h
      · obtain rfl := Except.ok.inj h
        refine ⟨ho,fun h0 => ?_⟩
        have hsub := available_toInt hlen h0 ho
        rw [← hm,capped_toInt (by omega),hsub]

/-- From an offset that is not negative no more is served than was asked for. -/
theorem readRange_le {size : Int64} {o : UInt64} {n k : Int32} (h : readRange size o n = .ok k)
    (h0 : 0 ≤ o.toInt64.toInt) : k.toInt ≤ n.toInt := by
  have hlt : o.toInt64.toInt < size.toInt := by
    unfold readRange at h
    split at h
    · cases h
    · rename_i ho
      rwa [ge_iff_le,Int64.le_iff_toInt_le,not_le] at ho
  have hsize := size.toInt_lt
  have hof : size = Int64.ofNat size.toInt.toNat := by
    rw [← Int64.toInt_inj,Int64.toInt_ofNat_of_lt (by omega)]
    omega
  rw [hof] at h
  have hk := (readRange_ok (by omega) h).2 h0
  omega

theorem toInt64_ofNat {n : ℕ} (h : n < 2^63) : (UInt64.ofNat n).toInt64.toInt = n := by
  rw [UInt64.toInt64_ofNat',Int64.toInt_ofNat_of_lt h]

/-- A positive request inside the log is served, cut at its end. -/
theorem readRange_of_lt {len off : ℕ} (hlen : len < 2^63) (ho : off < len) {n : Int32}
    (hn : 0 < n.toInt) :
    ∃ k, readRange (Int64.ofNat len) (UInt64.ofNat off) n = .ok k ∧
      k.toInt = min n.toInt ((len-off : ℕ) : ℤ) := by
  have hl := Int64.toInt_ofNat_of_lt hlen
  have hoff := toInt64_ofNat (n := off) (by omega)
  have hsub := available_toInt hlen (o := UInt64.ofNat off) (by omega) (by omega)
  obtain ⟨m,hm,hcap⟩ : ∃ m, (if n.toInt64 > Int64.ofNat len-(UInt64.ofNat off).toInt64 then
      (Int64.ofNat len-(UInt64.ofNat off).toInt64).toInt32 else n) = m ∧
      m.toInt = min n.toInt ((len-off : ℕ) : ℤ) := by
    refine ⟨_,rfl,?_⟩
    rw [capped_toInt (by omega),hsub,hoff]
    omega
  refine ⟨m,?_,hcap⟩
  have hsum : ((UInt64.ofNat off).toInt64+m.toInt64).toInt = off+m.toInt := by
    rw [Int64.toInt_add,hoff,Int32.toInt_toInt64,Int.bmod_eq_of_le (by omega) (by omega)]
  unfold readRange
  rw [if_neg (by rw [ge_iff_le,Int64.le_iff_toInt_le,hl,hoff]; omega)]
  simp only [hm]
  have hz : (0 : Int32).toInt = 0 := rfl
  rw [if_neg (by rw [Int32.le_iff_toInt_le,hz]; omega),
    if_neg (by rw [gt_iff_lt,Int64.lt_iff_toInt_lt,hl,hsum]; omega)]

/-- What a log of these bytes serves. -/
def view (log : Bytes) (o : UInt64) (n : Int32) : Except Err Bytes :=
  match readRange (Int64.ofNat log.length) o n with
  | .error e => .error e
  | .ok k =>
      if o.toInt64 < 0 then .error .negativeOffset
      else .ok (window log o.toInt64.toInt.toNat k.toInt.toNat)

/-- A reader over bytes that are all in the file serves them. -/
theorem readFull_view {log : Bytes} {d : Disk} {f : File} {o : UInt64} {n k : Int32}
    (hd : d.Healthy) (hf : f.closed = false) (hc : d.content f.path = log)
    (hl : log.length < 2^63) (hr : readRange (Int64.ofNat log.length) o n = .ok k) :
    (SectionReader.readFull ⟨f,o.toInt64.toInt,o.toInt64.toInt+k.toInt⟩ k.toInt.toNat d).1 =
      view log o n := by
  have hk := readRange_pos hr
  obtain ⟨-,hcap⟩ := readRange_ok hl hr
  have hz : (0 : Int64).toInt = 0 := rfl
  rw [SectionReader.readFull_healthy hd hf,hc,view,hr,if_neg (by omega),if_neg (by omega)]
  simp only [Int64.lt_iff_toInt_lt,hz]
  split
  · rfl
  · rename_i h0
    have hcap := hcap (by omega)
    have hlen : (window log o.toInt64.toInt.toNat
        (min k.toInt.toNat (o.toInt64.toInt+k.toInt-o.toInt64.toInt).toNat)).length =
        k.toInt.toNat := by
      rw [window_length]
      omega
    rw [if_pos hlen,show min k.toInt.toNat (o.toInt64.toInt+k.toInt-o.toInt64.toInt).toNat =
      k.toInt.toNat by omega]

/-- The answer when no segment can take the record. -/
def refusal : Err := .wrap "storage: partition store append" ErrSegmentFull

/-- The limit of every segment of the partition, as a number of bytes. -/
def capacity (cfg : SegmentConfig) : ℕ := cfg.limit.toInt.toNat

/-- The segments a directory holds, by base offset. -/
def segments (dir : List Bytes) (d : Disk) : ℕ → Option Bytes :=
  fun b => d.files.lookup (logPath dir b)

theorem capacity_eq (cfg : SegmentConfig) : (capacity cfg : ℤ) = cfg.limit.toInt :=
  Int.toNat_of_nonneg (limit_pos cfg).le

theorem capacity_lt (cfg : SegmentConfig) : capacity cfg < 2^63 := by
  have h := cfg.limit.toInt_lt
  have hc := capacity_eq cfg
  omega

/-- The store on this disk is the rolling log `r`. -/
structure Follows (ps : PartitionStore) (d : Disk) (r : Rolling UInt8) : Prop where
  holds : ps.active.Holds d r.active
  path : ps.active.file.path = logPath ps.dir r.base
  idxPath : ps.active.idx.file.path = indexPath ps.dir r.base
  base : ps.active.baseOffset = r.base
  next : ps.nextBase = r.base
  limit : ps.active.maxSize = ps.cfg.limit
  present : r.files r.base = some r.active
  others : ∀ b, b ≠ r.base → segments ps.dir d b = r.files b

section Simulation
variable {ps : PartitionStore} {d : Disk} {r : Rolling UInt8}

/-- Another segment of the directory is not touched. -/
theorem segments_of_leaves {s : Segment} {dir : List Bytes} {b c : ℕ} {e : Disk}
    (h : s.Leaves d e) (hp : s.file.path = logPath dir b) (hi : s.idx.file.path = indexPath dir b)
    (hc : c ≠ b) : segments dir e c = segments dir d c := by
  refine h.1 _ ?_ ?_
  · rw [hp]
    exact fun hx => hc (logPath_injective dir hx)
  · rw [hi]
    exact logPath_ne_indexPath dir dir c b

theorem openSegment_follows (hd : d.Healthy) (dir : List Bytes) (b : ℕ) (cfg : SegmentConfig) :
    ∃ s e, openSegment dir b cfg d = (.ok s,e) ∧ s.bw.buf = [] ∧ e.dirs = d.dirs ∧
      Follows ⟨dir,cfg,s,b⟩ e (Rolling.openAt (segments dir d) b) := by
  obtain ⟨s,e,ho,hs,hb,hp,hi,hbase,hm,hl⟩ := openSegment_healthy hd dir b cfg
  have ha : (Rolling.openAt (segments dir d) b).active = d.content (logPath dir b) :=
    Rolling.openAt_part _ _ _
  refine ⟨s,e,ho,hb,hl.2,?_,hp,hi,hbase,rfl,hm,?_,fun c hc => ?_⟩
  · rw [ha]
    exact hs
  · rw [ha]
    simp only [Rolling.openAt,Function.update_self]
    rfl
  · have hc : c ≠ b := hc
    rw [segments_of_leaves hl hp hi hc]
    simp [Rolling.openAt,hc]

theorem openPartitionStore_follows (hd : d.Healthy) (dir : List Bytes) (cfg : SegmentConfig) :
    ∃ ps e, openPartitionStore dir cfg d = (.ok ps,e) ∧ ps.dir = dir ∧ ps.cfg = cfg ∧
      ps.active.bw.buf = [] ∧ e.dirs = d.dirs ∧
      Follows ps e (Rolling.openAt (segments dir d) 0) := by
  obtain ⟨s,e,ho,hb,hr,hf⟩ := openSegment_follows hd dir 0 cfg
  exact ⟨⟨dir,cfg,s,0⟩,e,by simp only [openPartitionStore,ho],rfl,rfl,hb,hr,hf⟩

/-- Closing leaves the rolling log on the disk. -/
theorem Follows.close (h : Follows ps d r) :
    ∃ s e, ps.active.close d = (none,s,e) ∧ e.Healthy ∧ e.dirs = d.dirs ∧
      segments ps.dir e = r.files := by
  obtain ⟨s,e,hc,he,hl,hv⟩ := Segment.close_holds h.holds
  refine ⟨s,e,hc,he,hv.2,funext fun b => ?_⟩
  by_cases hb : b = r.base
  · subst b
    rw [segments,← h.path,hl,h.present]
  · rw [segments_of_leaves hv h.path h.idxPath hb,h.others b hb]

theorem Follows.rollover (h : Follows ps d r) :
    ∃ qs e, ps.rollover d = (none,qs,e) ∧ qs.dir = ps.dir ∧ qs.cfg = ps.cfg ∧
      e.dirs = d.dirs ∧ Follows qs e r.roll := by
  obtain ⟨s,e,hc,he,hr,hs⟩ := h.close
  obtain ⟨t,f,ho,-,hf,hw⟩ := openSegment_follows he ps.dir (ps.nextBase+ps.active.size) ps.cfg
  refine ⟨⟨ps.dir,ps.cfg,t,ps.nextBase+ps.active.size⟩,f,?_,rfl,rfl,hf.trans hr,?_⟩
  · simp only [PartitionStore.rollover,hc,ho]
  · rw [hs,h.next,h.holds.size] at hw
    rw [h.next,h.holds.size]
    exact hw

theorem Follows.fits_iff (h : Follows ps d r) (data : Bytes) :
    r.active.length+(frame data).length ≤ capacity ps.cfg ↔
      ps.active.size+(4+data.length) ≤ ps.active.maxSize.toInt := by
  have hc := capacity_eq ps.cfg
  rw [h.holds.size,h.limit,frame_length]
  omega

/-- A record that fits goes to the end of the active segment. -/
theorem Follows.push (h : Follows ps d r) {data : Bytes}
    (hf : r.active.length+(frame data).length ≤ capacity ps.cfg) :
    ∃ s e, ps.active.append data d = (.ok (UInt64.ofNat r.active.length),s,e) ∧
      e.dirs = d.dirs ∧ Follows {ps with active := s} e (r.push (frame data)) := by
  obtain ⟨s,e,ha,hs,hh,hl⟩ := Segment.append_fits h.holds ((h.fits_iff data).mp hf)
  refine ⟨s,e,by rw [ha,h.holds.size],hl.2,?_,?_,?_,?_,h.next,?_,?_,fun b hb => ?_⟩
  · rw [Rolling.push_active]
    exact hs
  · rw [hh.1]
    exact h.path
  · rw [hh.2.1]
    exact h.idxPath
  · rw [hh.2.2.1]
    exact h.base
  · rw [hh.2.2.2]
    exact h.limit
  · rw [Rolling.push_active]
    simp [Rolling.push]
  · have hb : b ≠ r.base := hb
    rw [segments_of_leaves hl h.path h.idxPath hb,h.others b hb]
    simp [Rolling.push,hb]

theorem Follows.append_full (h : Follows ps d r) {data : Bytes}
    (hf : ¬r.active.length+(frame data).length ≤ capacity ps.cfg) :
    ps.active.append data d = (.error ErrSegmentFull,ps.active,d) :=
  Segment.append_full _ _ (not_le.mp fun hx => hf ((h.fits_iff data).mpr hx))

/-- What the store answers for an outcome of the rolling log. -/
def answer : Option ℕ → Except Err UInt64
  | some o => .ok (UInt64.ofNat o)
  | none => .error refusal

theorem Follows.append (h : Follows ps d r) (data : Bytes) :
    ∃ qs e, ps.append data d = (answer (r.append (capacity ps.cfg) (frame data)).1,qs,e) ∧
      qs.dir = ps.dir ∧ qs.cfg = ps.cfg ∧ e.dirs = d.dirs ∧
      Follows qs e (r.append (capacity ps.cfg) (frame data)).2 := by
  unfold Rolling.append
  split
  · rename_i hf
    obtain ⟨s,e,ha,hr,hs⟩ := h.push hf
    exact ⟨{ps with active := s},e,by simp only [PartitionStore.append,ha,answer],rfl,rfl,hr,hs⟩
  · rename_i hn
    have hfull := h.append_full hn
    obtain ⟨qs,e,hro,hd,hc,hr,hq⟩ := h.rollover
    split
    · rename_i hf
      rw [← hc] at hf
      obtain ⟨s,f,ha,hr',hs⟩ := hq.push hf
      refine ⟨{qs with active := s},f,?_,hd,hc,hr'.trans hr,hs⟩
      simp only [PartitionStore.append,hfull,hro,ha,answer,if_true]
    · rename_i hf
      rw [← hc] at hf
      have ha := hq.append_full hf
      refine ⟨qs,e,?_,hd,hc,hr,hq⟩
      simp only [PartitionStore.append,hfull,hro,ha,answer,if_true,refusal]

/-- Handing the buffer over does not change the log. -/
theorem Follows.of_flush (h : Follows ps d r) :
    Follows {ps with active := {ps.active with bw := {ps.active.bw with buf := []}}}
      (d.appendTo ps.active.file.path ps.active.bw.buf) r where
  holds := h.holds.of_flush
  path := h.path
  idxPath := h.idxPath
  base := h.base
  next := h.next
  limit := h.limit
  present := h.present
  others := fun b hb => by
    rw [segments_of_leaves (Segment.Holds.flush_leaves ps.active d) h.path h.idxPath hb]
    exact h.others b hb

theorem size_of_holds {log : Bytes} (h : ps.active.Holds d log) :
    ps.Size = Int64.ofNat log.length := by
  rw [PartitionStore.Size,Segment.Size,h.size]

theorem Follows.size (h : Follows ps d r) : ps.Size = Int64.ofNat r.active.length :=
  size_of_holds h.holds

/-- What the file holds once the buffer was written out. -/
theorem Follows.flushed (h : Follows ps d r) :
    (d.appendTo ps.active.file.path ps.active.bw.buf).content ps.active.file.path = r.active :=
  h.holds.flushed

/-- Inside the log a read answers with a window over it. -/
theorem read_of_holds {log : Bytes} (h : ps.active.Holds d log) (hl : log.length < 2^63) (off : ℕ)
    (ho : off < log.length) (n : Int32) (hn : 0 < n.toInt) :
    ∃ k, k.toInt = min n.toInt ((log.length-off : ℕ) : ℤ) ∧
      ps.read (UInt64.ofNat off) n d =
        (.ok (⟨ps.active.file,off,off+k.toInt⟩,k),
          {ps with active := {ps.active with bw := {ps.active.bw with buf := []}}},
          d.appendTo ps.active.file.path ps.active.bw.buf) := by
  obtain ⟨k,hr,hk⟩ := readRange_of_lt hl ho hn
  refine ⟨k,hk,?_⟩
  rw [PartitionStore.read_eq,size_of_holds h,hr,h.flush_eq]
  simp only [toInt64_ofNat (show off < 2^63 by omega)]

/-- Records that fit in one segment can be its log. -/
theorem exists_follows (dir : List Bytes) (cfg : SegmentConfig) (payloads : List Bytes)
    (h : (frames payloads).length ≤ capacity cfg) :
    ∃ ps d r, Follows ps d r ∧ ps.cfg = cfg ∧ r.active = frames payloads := by
  induction payloads using List.reverseRecOn with
  | nil =>
      obtain ⟨ps,e,-,-,hcfg,-,-,hf⟩ := openPartitionStore_follows (d := Disk.blank) rfl dir cfg
      exact ⟨ps,e,_,hf,hcfg,Rolling.openAt_part _ _ _⟩
  | append_singleton payloads p ih =>
      have hl : (frames (payloads++[p])).length = (frames payloads).length+(frame p).length := by
        simp
      obtain ⟨ps,d,r,hf,hcfg,hr⟩ := ih (by omega)
      have hfit : r.active.length+(frame p).length ≤ capacity ps.cfg := by
        rw [hr,hcfg]
        omega
      obtain ⟨s,e,-,-,hf'⟩ := hf.push hfit
      exact ⟨_,e,_,hf',hcfg,by rw [Rolling.push_active,hr]; simp⟩

/-- A read sees the active segment and nothing else. -/
theorem Follows.fetch_congr {qs : PartitionStore} {e : Disk} (h : Follows ps d r)
    (k : Follows qs e r) (o : UInt64) (n : Int32) : ps.fetch o n d = qs.fetch o n e := by
  have hs : ps.Size = qs.Size := h.size.trans k.size.symm
  rw [PartitionStore.fetch_eq,PartitionStore.fetch_eq,hs,h.holds.flush_eq,k.holds.flush_eq]
  cases readRange qs.Size o n with
  | error x => rfl
  | ok m =>
      have hr := SectionReader.readFull_healthy h.holds.of_flush.healthy h.holds.opened
        o.toInt64.toInt (o.toInt64.toInt+m.toInt) m.toInt.toNat
      have kr := SectionReader.readFull_healthy k.holds.of_flush.healthy k.holds.opened
        o.toInt64.toInt (o.toInt64.toInt+m.toInt) m.toInt.toNat
      rw [h.flushed] at hr
      rw [k.flushed] at kr
      simp only [hr,kr]

end Simulation

end Kage.PartitionLog
