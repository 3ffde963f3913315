import Kage.BrokerStores

/-!
# What an operation on a partition can touch

Whatever the calls below it answer, an operation on a partition changes no file
outside the directory of the partition, creates no directory, and makes no call
after the ones that the schedule of failures already covers. So it leaves every
other partition as it was, and a disk without failures stays without failures.

The facts are proved call by call from the bottom up. They need nothing from
the state of a store but that its two files lie in its directory, and nothing
from a broker but that each store lies where its key leads.
-/
namespace Kage.DirectoryFrames
open ByteStrings FaultyDisk BufferedWriter SparseIndex SegmentLog PartitionLog RollingLog
open BrokerStores

/-- Nothing outside the directory changes, and outcomes are only consumed. -/
structure Within (dir : List Bytes) (d e : Disk) : Prop where
  lookup : ∀ q : Path, q.dir ≠ dir → e.files.lookup q = d.files.lookup q
  dirs : e.dirs = d.dirs
  faults : e.faults <:+ d.faults

section Primitive
variable {dir : List Bytes} {d e : Disk}

theorem Within.refl (dir : List Bytes) (d : Disk) : Within dir d d :=
  ⟨fun _ _ => rfl,rfl,List.suffix_rfl⟩

theorem Within.trans {d₁ d₂ d₃ : Disk} (h : Within dir d₁ d₂) (k : Within dir d₂ d₃) :
    Within dir d₁ d₃ :=
  ⟨fun q hq => (k.lookup q hq).trans (h.lookup q hq),k.dirs.trans h.dirs,k.faults.trans h.faults⟩

theorem Within.healthy (h : Within dir d e) (hd : d.Healthy) : e.Healthy := by
  have hf := h.faults
  rw [show d.faults = [] from hd] at hf
  exact List.suffix_nil.mp hf

theorem Within.of_idle (dir : List Bytes) (h : d.Idle e) : Within dir d e :=
  ⟨fun q _ => by rw [h.files],h.dirs,h.faults⟩

theorem Within.create (p : Path) (d : Disk) : Within p.dir d (d.create p) := by
  refine ⟨fun q hq => Disk.lookup_create_ne ?_,by simp,by simp⟩
  rintro rfl
  exact hq rfl

theorem Within.appendTo (p : Path) (d : Disk) (b : Bytes) : Within p.dir d (d.appendTo p b) := by
  refine ⟨fun q hq => Disk.lookup_appendTo_ne ?_ b,by simp,by simp⟩
  rintro rfl
  exact hq rfl

theorem openFile_within (p : Path) (d : Disk) : Within p.dir d (openFile p d).2 := by
  unfold openFile
  split
  · rename_i h
    exact .of_idle p.dir (.next h)
  · rename_i h
    exact (Within.of_idle p.dir (.next h)).trans (.create p _)

theorem write_within (f : File) (b : Bytes) (d : Disk) :
    Within f.path.dir d (f.write b d).2.2 := by
  unfold File.write
  split
  · exact .refl f.path.dir d
  · split <;> rename_i h <;>
      exact (Within.of_idle f.path.dir (.next h)).trans (.appendTo f.path _ _)

end Primitive

section Buffered
variable {w : Writer} {f : File} {d : Disk}

theorem flush_within (w : Writer) (f : File) (d : Disk) :
    Within f.path.dir d (w.flush f d).2.2 := by
  unfold Writer.flush
  split
  · exact .refl f.path.dir d
  · split
    · exact .refl f.path.dir d
    · have hw := write_within f w.buf d
      rcases hx : f.write w.buf d with ⟨n,r,e⟩
      rw [hx] at hw
      cases r <;> exact hw

theorem writeThrough_within (w : Writer) (f : File) (p : Bytes) (d : Disk) :
    Within f.path.dir d (w.writeThrough f p d).2.2 := by
  unfold Writer.writeThrough
  have hw := write_within f p d
  rcases hx : f.write p d with ⟨n,r,e⟩
  rw [hx] at hw
  cases r <;> exact hw

theorem bufferedWrite_within (w : Writer) (f : File) (p : Bytes) (d : Disk) :
    Within f.path.dir d (w.write f p d).2.2 := by
  unfold Writer.write
  split
  · exact .refl f.path.dir d
  · split
    · exact .refl f.path.dir d
    · split
      · exact writeThrough_within w f p d
      · have hw := flush_within {w with buf := w.buf++p.take w.available} f d
        rcases hx : Writer.flush {w with buf := w.buf++p.take w.available} f d with ⟨r,v,e⟩
        rw [hx] at hw
        cases r with
        | some x => exact hw
        | none =>
            simp only
            split
            · exact hw
            · exact hw.trans (writeThrough_within v f _ e)

end Buffered

section Indexed
variable {x : Index} {d : Disk}

theorem maybeAppend_within (x : Index) (o : UInt64) (p : UInt32) (n : ℕ) (d : Disk) :
    Within x.file.path.dir d (x.maybeAppend o p n d).2.2 ∧
      (x.maybeAppend o p n d).2.1.file = x.file := by
  have hw := bufferedWrite_within x.bw x.file (putUint 8 o.toNat++putUint 4 p.toNat) d
  rcases hx : x.maybeAppend o p n d with ⟨r,y,e⟩
  cases Index.considering hx with
  | early => exact ⟨.refl _ d,rfl⟩
  | failed _ h₁ =>
      rw [h₁] at hw
      exact ⟨hw,rfl⟩
  | written _ h₁ =>
      rw [h₁] at hw
      exact ⟨hw,rfl⟩

theorem indexClose_within (x : Index) (d : Disk) :
    Within x.file.path.dir d (x.close d).2.2 ∧ (x.close d).2.1.file.path = x.file.path := by
  have hw := flush_within x.bw x.file d
  refine ⟨?_,(x.close_only d).1⟩
  rcases hx : x.close d with ⟨r,y,e⟩
  cases Index.closing hx with
  | flush h₁ =>
      rw [h₁] at hw
      exact hw
  | @file _ _ _ _ d₁ _ h₁ h₂ _ =>
      have hc := x.file.close_idle d₁
      rw [h₁] at hw
      rw [h₂] at hc
      exact hw.trans (.of_idle _ hc)

theorem openIndex_within (dir : List Bytes) (baseOffset : ℕ) (d : Disk) :
    Within dir d (openIndex dir baseOffset d).2 ∧
      ∀ y, (openIndex dir baseOffset d).1 = .ok y → y.file.path.dir = dir := by
  have ho : Within dir d (openFile (indexPath dir baseOffset) d).2 :=
    openFile_within (indexPath dir baseOffset) d
  rcases hx : openIndex dir baseOffset d with ⟨r,e⟩
  cases Index.opening hx with
  | file hf =>
      rw [hf] at ho
      exact ⟨ho,fun y hy => by cases hy⟩
  | @load f _ d₁ d₂ hf hl =>
      have hi := loadEntries_idle f d₁
      rw [hf] at ho
      rw [hl] at hi
      exact ⟨ho.trans (.of_idle dir (hi.trans (f.close_idle d₂))),fun y hy => by cases hy⟩
  | @opened f _ d₁ _ hf hl =>
      have hi := loadEntries_idle f d₁
      have hpath := (openFile_ok hf).1
      rw [hf] at ho
      rw [hl] at hi
      refine ⟨ho.trans (.of_idle dir hi),fun y hy => ?_⟩
      cases hy
      rw [hpath]
      rfl

end Indexed

/-- The log and the index of a segment lie in the directory. -/
def Housed (dir : List Bytes) (s : Segment) : Prop :=
  s.file.path.dir = dir ∧ s.idx.file.path.dir = dir

section Segments
variable {dir : List Bytes} {s : Segment}

theorem append_within (h : Housed dir s) (p : Bytes) (d : Disk) :
    Within dir d (s.append p d).2.2 ∧ Housed dir (s.append p d).2.1 := by
  obtain ⟨rfl,hi⟩ := h
  have hw₁ := bufferedWrite_within s.bw s.file (putUint 4 p.length) d
  rcases ha : s.append p d with ⟨r,t,e⟩
  cases Segment.appending ha with
  | full hf => exact ⟨.refl _ d,rfl,hi⟩
  | header hf h₁ =>
      rw [h₁] at hw₁
      exact ⟨hw₁,rfl,hi⟩
  | @payload x bw₁ bw₂ d₁ e hf h₁ h₂ =>
      have hw₂ := bufferedWrite_within bw₁ s.file p d₁
      rw [h₁] at hw₁
      rw [h₂] at hw₂
      exact ⟨hw₁.trans hw₂,rfl,hi⟩
  | @written x bw₁ bw₂ idx d₁ d₂ e r hf h₁ h₂ h₃ hr =>
      have hw₂ := bufferedWrite_within bw₁ s.file p d₁
      have hw₃ := maybeAppend_within s.idx (UInt64.ofNat s.size) (UInt64.ofNat s.size).toUInt32
        (recordHeaderSize+p.length) d₂
      rw [h₁] at hw₁
      rw [h₂] at hw₂
      rw [h₃,hi] at hw₃
      exact ⟨(hw₁.trans hw₂).trans hw₃.1,rfl,by rw [hw₃.2,hi]⟩

theorem read_within (h : Housed dir s) (o : UInt64) (n : Int32) (d : Disk) :
    Within dir d (s.read o n d).2.2 ∧ Housed dir (s.read o n d).2.1 := by
  obtain ⟨rfl,hi⟩ := h
  rcases hr : s.read o n d with ⟨r,t,e⟩
  rcases Segment.read_looked hr with ⟨rfl,rfl⟩ | ⟨r,bw,d₁,hx,rfl,hidle⟩
  · exact ⟨.refl _ _,rfl,hi⟩
  · have hw := flush_within s.bw s.file d
    rw [hx] at hw
    exact ⟨hw.trans (.of_idle _ hidle),rfl,hi⟩

theorem segmentClose_within (h : Housed dir s) (d : Disk) :
    Within dir d (s.close d).2.2 ∧ Housed dir (s.close d).2.1 := by
  obtain ⟨rfl,hi⟩ := h
  have hw := flush_within s.bw s.file d
  rcases hc : s.close d with ⟨r,t,e⟩
  cases Segment.closing hc with
  | flush h₁ =>
      rw [h₁] at hw
      exact ⟨hw,rfl,hi⟩
  | @file x bw f d₁ e h₁ h₂ =>
      have hs := s.file.close_idle d₁
      have hf := s.file.close_closed d₁
      rw [h₁] at hw
      rw [h₂] at hs hf
      exact ⟨hw.trans (.of_idle _ hs),by rw [show f = _ from hf],hi⟩
  | @index r bw f idx d₁ d₂ e h₁ h₂ h₃ =>
      have hs := s.file.close_idle d₁
      have hf := s.file.close_closed d₁
      have hx := indexClose_within s.idx d₂
      rw [h₁] at hw
      rw [h₂] at hs hf
      rw [h₃,hi] at hx
      exact ⟨(hw.trans (.of_idle _ hs)).trans hx.1,by rw [show f = _ from hf],by rw [hx.2,hi]⟩

theorem openSegment_within (dir : List Bytes) (b : ℕ) (cfg : SegmentConfig) (d : Disk) :
    Within dir d (openSegment dir b cfg d).2 ∧
      ∀ s, (openSegment dir b cfg d).1 = .ok s → Housed dir s := by
  have hw : Within dir d (openFile (logPath dir b) d).2 := openFile_within (logPath dir b) d
  rcases ho : SegmentLog.openSegment dir b cfg d with ⟨r,e⟩
  cases opening ho with
  | file h₁ =>
      rw [h₁] at hw
      exact ⟨hw,fun s hs => by cases hs⟩
  | @stat f x d₁ d₂ h₁ h₂ =>
      have hs := f.stat_idle d₁
      rw [h₁] at hw
      rw [h₂] at hs
      exact ⟨hw.trans (.of_idle dir (hs.trans (f.close_idle d₂))),fun s hs => by cases hs⟩
  | @index f n x d₁ d₂ d₃ h₁ h₂ h₃ =>
      have hs := f.stat_idle d₁
      have hi := (openIndex_within dir b d₂).1
      rw [h₁] at hw
      rw [h₂] at hs
      rw [h₃] at hi
      exact ⟨((hw.trans (.of_idle dir hs)).trans hi).trans (.of_idle dir (f.close_idle d₃)),
        fun s hs => by cases hs⟩
  | @opened f n idx d₁ d₂ e h₁ h₂ h₃ =>
      have hs := f.stat_idle d₁
      obtain ⟨hi,hd⟩ := openIndex_within dir b d₂
      have hf : f.path.dir = dir := by
        rw [(openFile_ok h₁).1]
        rfl
      rw [h₁] at hw
      rw [h₂] at hs
      rw [h₃] at hi hd
      refine ⟨(hw.trans (.of_idle dir hs)).trans hi,fun s hs => ?_⟩
      rw [← Except.ok.inj hs]
      exact ⟨hf,hd idx rfl⟩

end Segments

section Stores
variable {ps : PartitionStore}

theorem rollover_within (h : Housed ps.dir ps.active) (d : Disk) :
    Within ps.dir d (ps.rollover d).2.2 ∧ (ps.rollover d).2.1.dir = ps.dir ∧
      Housed ps.dir (ps.rollover d).2.1.active := by
  unfold PartitionStore.rollover
  have hc := segmentClose_within h d
  rcases hx : ps.active.close d with ⟨r,s,e⟩
  rw [hx] at hc
  cases r with
  | some y => exact ⟨hc.1,rfl,hc.2⟩
  | none =>
      obtain ⟨ho,hh⟩ := openSegment_within ps.dir (ps.nextBase+ps.active.size) ps.cfg e
      simp only
      rcases hy : openSegment ps.dir (ps.nextBase+ps.active.size) ps.cfg e with ⟨r,e₁⟩
      rw [hy] at ho hh
      cases r with
      | error y => exact ⟨hc.1.trans ho,rfl,hc.2⟩
      | ok t => exact ⟨hc.1.trans ho,rfl,hh t rfl⟩

theorem storeAppend_within (h : Housed ps.dir ps.active) (data : Bytes) (d : Disk) :
    Within ps.dir d (ps.append data d).2.2 ∧ (ps.append data d).2.1.dir = ps.dir ∧
      Housed ps.dir (ps.append data d).2.1.active := by
  unfold PartitionStore.append
  have ha := append_within h data d
  rcases hx : ps.active.append data d with ⟨r,s,d₁⟩
  rw [hx] at ha
  cases r with
  | ok o => exact ⟨ha.1,rfl,ha.2⟩
  | error e =>
      simp only
      split
      · have hr := @rollover_within {ps with active := s} ha.2 d₁
        rcases hy : ({ps with active := s} : PartitionStore).rollover d₁ with ⟨r,qs,d₂⟩
        rw [hy] at hr
        cases r with
        | some y => exact ⟨ha.1.trans hr.1,hr.2⟩
        | none =>
            have hb := append_within hr.2.2 data d₂
            simp only
            rcases hz : qs.active.append data d₂ with ⟨r,t,d₃⟩
            rw [hz] at hb
            cases r <;> exact ⟨(ha.1.trans hr.1).trans hb.1,hr.2.1,hb.2⟩
      · exact ⟨ha.1,rfl,ha.2⟩

theorem storeRead_within (h : Housed ps.dir ps.active) (o : UInt64) (n : Int32) (d : Disk) :
    Within ps.dir d (ps.read o n d).2.2 ∧ (ps.read o n d).2.1.dir = ps.dir ∧
      Housed ps.dir (ps.read o n d).2.1.active := by
  unfold PartitionStore.read
  simp only
  split
  · exact ⟨.refl _ d,rfl,h⟩
  · have hr := read_within h o (if n.toInt64 > ps.active.Size-o.toInt64 then
      (ps.active.Size-o.toInt64).toInt32 else n) d
    rcases hx : ps.active.read o (if n.toInt64 > ps.active.Size-o.toInt64 then
      (ps.active.Size-o.toInt64).toInt32 else n) d with ⟨r,s,e⟩
    rw [hx] at hr
    cases r <;> exact ⟨hr.1,rfl,hr.2⟩

theorem openPartitionStore_within (dir : List Bytes) (cfg : SegmentConfig) (d : Disk) :
    Within dir d (openPartitionStore dir cfg d).2 ∧
      ∀ ps, (openPartitionStore dir cfg d).1 = .ok ps → ps.dir = dir ∧ Housed dir ps.active := by
  unfold openPartitionStore
  obtain ⟨ho,hh⟩ := openSegment_within dir 0 cfg d
  rcases hx : openSegment dir 0 cfg d with ⟨r,e⟩
  rw [hx] at ho hh
  cases r with
  | error y => exact ⟨ho,fun ps hs => by cases hs⟩
  | ok s =>
      refine ⟨ho,fun ps hs => ?_⟩
      rw [← Except.ok.inj hs]
      exact ⟨rfl,hh s rfl⟩

end Stores

section Reads
variable {d e : Disk}

theorem content_of_lookup {p : Path} (h : e.files.lookup p = d.files.lookup p) :
    e.content p = d.content p := by
  rw [Disk.content,Disk.content,h]

/-- On disks without failures a reader sees only its file. -/
theorem readFull_congr (hd : d.Healthy) (he : e.Healthy) (r : SectionReader) (n : ℕ)
    (h : e.content r.file.path = d.content r.file.path) :
    (r.readFull n e).1 = (r.readFull n d).1 := by
  unfold SectionReader.readFull
  rw [Disk.next_healthy hd,Disk.next_healthy he]
  simp only [h]
  split
  · rfl
  · split
    · rfl
    · split
      · rfl
      · split
        · rfl
        · split
          · rfl
          · split <;> rfl

theorem flush_congr (hd : d.Healthy) (he : e.Healthy) (w : Writer) (f : File)
    (h : e.files.lookup f.path = d.files.lookup f.path) :
    (w.flush f e).1 = (w.flush f d).1 ∧
      (w.flush f e).2.2.content f.path = (w.flush f d).2.2.content f.path := by
  have hc := content_of_lookup h
  unfold Writer.flush
  split
  · exact ⟨rfl,hc⟩
  · split
    · exact ⟨rfl,hc⟩
    · cases hf : f.closed with
      | true =>
          rw [File.write_closed hf,File.write_closed hf]
          exact ⟨rfl,hc⟩
      | false =>
          rw [File.write_healthy hd hf,File.write_healthy he hf]
          refine ⟨rfl,?_⟩
          have hm : f.path ∈ e.files ↔ f.path ∈ d.files := by
            rw [← Finmap.lookup_isSome,← Finmap.lookup_isSome,h]
          by_cases hp : f.path ∈ d.files
          · simp only
            rw [Disk.content_appendTo_self hp,Disk.content_appendTo_self (hm.mpr hp),hc]
          · simp only [Disk.appendTo,if_neg hp,if_neg (mt hm.mp hp),hc]

/-- What a store serves on a disk without failures depends only on its file. -/
theorem fetch_congr (hd : d.Healthy) (he : e.Healthy) (ps : PartitionStore)
    (h : e.files.lookup ps.active.file.path = d.files.lookup ps.active.file.path)
    (o : UInt64) (n : Int32) : ps.fetch o n e = ps.fetch o n d := by
  rw [PartitionStore.fetch_eq,PartitionStore.fetch_eq]
  cases readRange ps.Size o n with
  | error x => rfl
  | ok k =>
      obtain ⟨hr,hc⟩ := flush_congr hd he ps.active.bw ps.active.file h
      have hd' := (flush_within ps.active.bw ps.active.file d).healthy hd
      have he' := (flush_within ps.active.bw ps.active.file e).healthy he
      simp only
      rcases hx : ps.active.bw.flush ps.active.file d with ⟨x,bw,d₁⟩
      rcases hy : ps.active.bw.flush ps.active.file e with ⟨y,bw',e₁⟩
      rw [hx] at hr hc hd'
      rw [hy] at hr hc he'
      obtain rfl : y = x := hr
      cases y with
      | some y => rfl
      | none => exact readFull_congr hd' he' _ _ hc

end Reads

/-- No file outside the directory changes, whatever directories are made. -/
structure FilesWithin (dir : List Bytes) (d e : Disk) : Prop where
  lookup : ∀ q : Path, q.dir ≠ dir → e.files.lookup q = d.files.lookup q
  faults : e.faults <:+ d.faults

/-- Every store of the broker lies where its key leads. -/
def Placed (bs : BrokerStore) : Prop :=
  ∀ k ps, bs.stores.lookup k = some ps →
    ps.dir = joinPath bs.rootDir k ∧ Housed ps.dir ps.active

section Brokers
variable {dir : List Bytes} {d e : Disk} {bs : BrokerStore} {topic : Bytes} {partition : Int32}
variable {ps : PartitionStore}

theorem Within.files (h : Within dir d e) : FilesWithin dir d e := ⟨h.lookup,h.faults⟩

theorem FilesWithin.refl (dir : List Bytes) (d : Disk) : FilesWithin dir d d :=
  (Within.refl dir d).files

theorem FilesWithin.trans {d₁ d₂ d₃ : Disk} (h : FilesWithin dir d₁ d₂)
    (k : FilesWithin dir d₂ d₃) : FilesWithin dir d₁ d₃ :=
  ⟨fun q hq => (k.lookup q hq).trans (h.lookup q hq),k.faults.trans h.faults⟩

theorem FilesWithin.healthy (h : FilesWithin dir d e) (hd : d.Healthy) : e.Healthy := by
  have hf := h.faults
  rw [show d.faults = [] from hd] at hf
  exact List.suffix_nil.mp hf

/-- A partition in another directory is read as before. -/
theorem FilesWithin.fetch (h : FilesWithin dir d e) (hp : Housed ps.dir ps.active)
    (hne : ps.dir ≠ dir) (o : UInt64) (n : Int32) :
    ps.fetch o n e.calm = ps.fetch o n d.calm := by
  have hl : e.files.lookup ps.active.file.path = d.files.lookup ps.active.file.path :=
    h.lookup _ (by rw [hp.1]; exact hne)
  exact fetch_congr (d := d.calm) (e := e.calm) rfl rfl ps hl o n

/-- A store that no call reached is still the same log. -/
theorem FilesWithin.follows {r : Rolling UInt8} (h : FilesWithin dir d e) (hf : Follows ps d r)
    (hne : ps.dir ≠ dir) : Follows ps e r := by
  have hl : ∀ b, e.files.lookup (logPath ps.dir b) = d.files.lookup (logPath ps.dir b) :=
    fun b => h.lookup (logPath ps.dir b) hne
  have hp : e.files.lookup ps.active.file.path = d.files.lookup ps.active.file.path := by
    rw [hf.path]
    exact hl r.base
  have hmem : ps.active.file.path ∈ e.files := by
    rw [← Finmap.lookup_isSome,hp]
    exact Finmap.lookup_isSome.mpr hf.holds.mem
  have hbytes : ps.active.bytes e = r.active := by
    rw [Segment.bytes,content_of_lookup hp]
    exact hf.holds.bytes
  refine ⟨?_,hf.path,hf.idxPath,hf.base,hf.next,hf.limit,hf.present,fun b hb => ?_⟩
  · exact ⟨h.healthy hf.holds.healthy,hf.holds.opened,hf.holds.live,hf.holds.index,hf.holds.apart,
      hmem,hbytes,hf.holds.size⟩
  · rw [← hf.others b hb]
    exact hl b

theorem mkdirAll_files (dir p : List Bytes) (d : Disk) : FilesWithin dir d (d.mkdirAll p).2 := by
  unfold Disk.mkdirAll
  rcases hn : d.next with ⟨o,e⟩
  have hw := (Within.of_idle dir (.next hn)).files
  cases o <;> exact ⟨hw.lookup,hw.faults⟩

theorem put_placed (h : Placed bs) (hd : ps.dir = bs.partitionDir topic partition)
    (hp : Housed ps.dir ps.active) : Placed (bs.put topic partition ps) := by
  intro k qs hk
  by_cases hkey : k = partitionKey topic partition
  · subst hkey
    rw [put_lookup] at hk
    obtain rfl := Option.some_inj.mp hk
    exact ⟨hd,hp⟩
  · rw [put_lookup_ne bs hkey] at hk
    exact h k qs hk

/-- What getting a partition can change. -/
structure Gets (bs : BrokerStore) (topic : Bytes) (partition : Int32) (d : Disk)
    (r : Except Err PartitionStore) (bs' : BrokerStore) (e : Disk) : Prop where
  files : FilesWithin (bs.partitionDir topic partition) d e
  placed : Placed bs'
  root : bs'.rootDir = bs.rootDir
  cfg : bs'.cfg = bs.cfg
  others : ∀ k, k ≠ partitionKey topic partition → bs'.stores.lookup k = bs.stores.lookup k
  known : ∀ ps, bs.stores.lookup (partitionKey topic partition) = some ps →
    r = .ok ps ∧ bs' = bs ∧ e = d
  got : ∀ ps, r = .ok ps → bs'.stores.lookup (partitionKey topic partition) = some ps
  failed : ∀ x, r = .error x → bs' = bs

theorem getOrCreatePartition_gets (h : Placed bs) {r : Except Err PartitionStore}
    {bs' : BrokerStore} (hg : bs.getOrCreatePartition topic partition d = (r,bs',e)) :
    Gets bs topic partition d r bs' e := by
  unfold BrokerStore.getOrCreatePartition at hg
  cases hl : bs.stores.lookup (partitionKey topic partition) with
  | some ps =>
      simp only [hl,Prod.mk.injEq] at hg
      obtain ⟨rfl,rfl,rfl⟩ := hg
      refine ⟨.refl _ d,h,rfl,rfl,fun _ _ => rfl,fun qs hq => ?_,fun qs hq => ?_,fun x hx => ?_⟩
      · rw [hl] at hq
        exact ⟨by rw [Option.some_inj.mp hq],rfl,rfl⟩
      · rw [hl,Except.ok.inj hq]
      · cases hx
  | none =>
      have hm := mkdirAll_files (bs.partitionDir topic partition)
        (bs.partitionDir topic partition) d
      have hnone : ∀ qs, bs.stores.lookup (partitionKey topic partition) = some qs → False := by
        intro qs hq
        rw [hl] at hq
        cases hq
      simp only [hl] at hg
      rcases hk : d.mkdirAll (bs.partitionDir topic partition) with ⟨x,d₁⟩
      rw [hk] at hm hg
      cases x with
      | some x =>
          simp only [Prod.mk.injEq] at hg
          obtain ⟨rfl,rfl,rfl⟩ := hg
          exact ⟨hm,h,rfl,rfl,fun _ _ => rfl,fun qs hq => (hnone qs hq).elim,
            fun qs hq => (by cases hq),fun _ _ => rfl⟩
      | none =>
          obtain ⟨ho,hh⟩ := openPartitionStore_within (bs.partitionDir topic partition) bs.cfg d₁
          simp only at hg
          rcases hy : openPartitionStore (bs.partitionDir topic partition) bs.cfg d₁ with ⟨y,d₂⟩
          rw [hy] at ho hh hg
          cases y with
          | error y =>
              simp only [Prod.mk.injEq] at hg
              obtain ⟨rfl,rfl,rfl⟩ := hg
              exact ⟨hm.trans ho.files,h,rfl,rfl,fun _ _ => rfl,fun qs hq => (hnone qs hq).elim,
                fun qs hq => (by cases hq),fun _ _ => rfl⟩
          | ok ps =>
              simp only [Prod.mk.injEq] at hg
              obtain ⟨rfl,rfl,rfl⟩ := hg
              obtain ⟨hd,hp⟩ := hh ps rfl
              refine ⟨hm.trans ho.files,put_placed h hd (hd ▸ hp),rfl,rfl,
                fun k hk => put_lookup_ne bs hk ps,fun qs hq => (hnone qs hq).elim,fun qs hq => ?_,
                fun x hx => by cases hx⟩
              rw [put_lookup,Except.ok.inj hq]

end Brokers

end Kage.DirectoryFrames
