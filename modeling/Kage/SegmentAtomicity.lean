import Kage.SegmentFaults

/-!
# What a failed append leaves behind

A record is written in three steps: its header, its payload and, every few
kilobytes, an index entry. A failure of one of the first two is remembered by
the writer of the log, and from then on no read of the segment succeeds. The
record is counted before the index is told, so a failure of the third step
arrives when the record is already stored like any accepted one.

`append_atomic_iff` says that this third failure is the only way in which an
append is not all or nothing, for every segment and every pattern of failures.
-/
namespace Kage.SegmentAtomicity
open ByteStrings LengthPrefixed FaultyDisk BufferedWriter SparseIndex SegmentLog SegmentFaults

inductive Op
  | append (payload : Bytes)
  | flush
  | readAt (offset : UInt64)
  | read (offset : UInt64) (size : Int32)
  | close

inductive Answer
  | offset (r : Except Err UInt64)
  | done (r : Option Err)
  | record (r : Except Err Bytes)
  | window (r : Except Err SectionReader)

/-- The answer of a read that succeeded. -/
def Answer.Reads : Answer → Prop
  | .record (.ok _) => True
  | .window (.ok _) => True
  | _ => False

def step (s : Segment) (d : Disk) : Op → Answer × Segment
  | .append payload =>
      match s.append payload d with
      | (r,s,_) => (.offset r,s)
  | .flush =>
      match s.flush d with
      | (r,s,_) => (.done r,s)
  | .readAt offset =>
      match s.readAt offset d with
      | (r,s,_) => (.record r,s)
  | .read offset size =>
      match s.read offset size d with
      | (r,s,_) => (.window r,s)
  | .close =>
      match s.close d with
      | (r,s,_) => (.done r,s)

/-- The answers to operations on one segment. Each finds a disk of its own, so
that anything may happen to the files in between. -/
def answers (s : Segment) : List (Op × Disk) → List Answer
  | [] => []
  | (op,d)::ops => (step s d op).1::answers (step s d op).2 ops

/-- An append that was refused without a trace, or after which nothing is read
from the segment any more. -/
def Unseen (s : Segment) (d : Disk) (t : Segment) (e : Disk) : Prop :=
  (t = s ∧ e = d) ∨ ∀ ops, ∀ a ∈ answers t ops, ¬a.Reads

/-- The record was added at the end of `s`: the cursor moved over it, and where
the log is a file of its own its bytes follow the earlier ones. -/
def Stored (s : Segment) (p : Bytes) (d : Disk) (t : Segment) (e : Disk) : Prop :=
  t.Size = s.Size+Int64.ofNat (recordHeaderSize+p.length) ∧
    (s.file.path ∈ d.files → s.idx.file.path ≠ s.file.path → t.bytes e = s.bytes d++frame p)

def AllOrNothing (s : Segment) (p : Bytes) (d : Disk) : Prop :=
  match s.append p d with
  | (.error _,t,e) => t.Size = s.Size ∧ Unseen s d t e
  | (.ok offset,t,e) => offset.toInt64 = s.Size ∧ Stored s p d t e

/-- The record fits and both of its parts are written, and then the index entry
that is due is not. -/
def IndexFails (s : Segment) (p : Bytes) (d : Disk) : Prop :=
  ¬s.maxSize.toInt < s.size+((recordHeaderSize+p.length : ℕ) : ℤ) ∧
    ∃ bw₁ d₁ bw₂ d₂ x idx e,
      s.bw.write s.file (putUint 4 p.length) d = (none,bw₁,d₁) ∧
      bw₁.write s.file p d₁ = (none,bw₂,d₂) ∧
      s.idx.maybeAppend (UInt64.ofNat s.size) (UInt64.ofNat s.size).toUInt32
        (recordHeaderSize+p.length) d₂ = (some x,idx,e)

variable {s t : Segment} {p : Bytes} {d e : Disk}

/-- A failed writer answers every operation that needs it. -/
theorem step_broken (h : s.bw.err ≠ none) (op : Op) :
    ¬(step s d op).1.Reads ∧ (step s d op).2.bw.err ≠ none := by
  obtain ⟨x,hx⟩ := Option.ne_none_iff_exists'.mp h
  have hflush (d : Disk) : s.bw.flush s.file d = (some x,s.bw,d) := by
    rw [Writer.flush_err h,hx]
  cases op with
  | append payload =>
      have hwrite : s.bw.write s.file (putUint 4 payload.length) d = (some x,s.bw,d) := by
        rw [Writer.write_err h,hx]
      simp only [step,Segment.append,hwrite]
      split <;> exact ⟨id,h⟩
  | flush =>
      simp only [step,Segment.flush,hflush]
      exact ⟨id,h⟩
  | readAt offset =>
      simp only [step,Segment.readAt,hflush]
      exact ⟨id,h⟩
  | read offset size =>
      simp only [step,Segment.read,hflush]
      split
      · exact ⟨id,h⟩
      · split
        · exact ⟨id,h⟩
        · split <;> exact ⟨id,h⟩
  | close =>
      simp only [step,Segment.close,hflush]
      exact ⟨id,h⟩

theorem answers_broken (ops : List (Op × Disk)) (h : s.bw.err ≠ none) :
    ∀ a ∈ answers s ops, ¬a.Reads := by
  induction ops generalizing s with
  | nil => simp [answers]
  | cons x ops ih =>
      obtain ⟨hr,hs⟩ := step_broken (d := x.2) h x.1
      intro a ha
      rcases List.mem_cons.mp ha with rfl | ha
      · exact hr
      · exact ih hs a ha

theorem Unseen.of_write {f : File} {w v : Writer} {b : Bytes} {d₁ : Disk} {x : Err}
    (hw : w.write f b d₁ = (some x,v,e)) : Unseen s d {t with bw := v} e := by
  apply Or.inr
  intro ops
  apply answers_broken
  rw [(Writer.write_spec hw).2.1]
  exact Option.some_ne_none x

/-- Of a write that succeeded no byte is missing. -/
theorem bytes_of_write {bw : Writer} (hm : s.file.path ∈ d.files)
    (hw : s.bw.write s.file p d = (none,bw,e)) :
    ({s with bw := bw} : Segment).bytes e = s.bytes d++p := by
  obtain ⟨-,-,out,lost,hb,hr,hl⟩ := Writer.write_spec hw
  rw [hl rfl,List.append_nil] at hb
  simp only [Segment.bytes,hr.content hm,List.append_assoc,hb]

theorem stored_of_written {bw₁ bw₂ : Writer} {idx : Index} {d₁ d₂ : Disk} {x : Option Err}
    (hw₁ : s.bw.write s.file (putUint 4 p.length) d = (none,bw₁,d₁))
    (hw₂ : bw₁.write s.file p d₁ = (none,bw₂,d₂))
    (hi : s.idx.maybeAppend (UInt64.ofNat s.size) (UInt64.ofNat s.size).toUInt32
      (recordHeaderSize+p.length) d₂ = (x,idx,e)) :
    Stored s p d {s with bw := bw₂, size := s.size+(recordHeaderSize+p.length), idx := idx} e := by
  refine ⟨Int64.ofNat_add _ _,fun hm ha => ?_⟩
  obtain ⟨-,-,out,-,-,hr,-⟩ := Writer.write_spec hw₁
  have hb₁ := bytes_of_write hm hw₁
  have hb₂ := bytes_of_write (s := {s with bw := bw₁}) ((hr.mem _).mpr hm) hw₂
  have ho := (Index.maybeAppend_only s.idx (UInt64.ofNat s.size) (UInt64.ofNat s.size).toUInt32
    (recordHeaderSize+p.length) d₂).2
  rw [hi] at ho
  simp only [Segment.bytes] at hb₁ hb₂ ⊢
  rw [ho.content ha.symm,hb₂,hb₁,frame,List.append_assoc]

/-- A record within the limit moves the reported size. -/
theorem Stored.size_ne (h : Stored s p d t e)
    (hfit : ¬s.maxSize.toInt < s.size+((recordHeaderSize+p.length : ℕ) : ℤ)) :
    t.Size ≠ s.Size := by
  have hmax := s.maxSize.toInt_lt
  simp only [recordHeaderSize] at hfit
  rw [h.1,Ne,Int64.add_eq_left]
  intro hz
  have hn := congrArg Int64.toInt hz
  rw [Int64.toInt_ofNat_of_lt (by simp only [recordHeaderSize]; omega)] at hn
  simp only [recordHeaderSize,Int64.toInt_zero] at hn
  omega

theorem IndexFails.append (h : IndexFails s p d) :
    ∃ x t e, s.append p d = (.error (.wrap "storage: update index" x),t,e) ∧
      Stored s p d t e ∧ t.Size ≠ s.Size := by
  obtain ⟨hfit,bw₁,d₁,bw₂,d₂,x,idx,e,hw₁,hw₂,hi⟩ := h
  have hst := stored_of_written hw₁ hw₂ hi
  refine ⟨x,_,e,?_,hst,hst.size_ne hfit⟩
  simp only [Segment.append,if_neg hfit,hw₁,hw₂,hi]

/-- An append is all or nothing unless its index entry is not written. Then the
record is stored as if it had been accepted. -/
theorem append_atomic_iff (s : Segment) (p : Bytes) (d : Disk) :
    (AllOrNothing s p d ↔ ¬IndexFails s p d) ∧
      (IndexFails s p d → Stored s p d (s.append p d).2.1 (s.append p d).2.2) := by
  refine ⟨⟨fun hall hfails => ?_,fun hno => ?_⟩,fun hfails => ?_⟩
  · obtain ⟨x,t,e,ha,-,hne⟩ := hfails.append
    rw [AllOrNothing,ha] at hall
    exact hne hall.1
  · unfold AllOrNothing
    rcases ha : s.append p d with ⟨r,t,e⟩
    cases Segment.appending ha with
    | full => exact ⟨rfl,.inl ⟨rfl,rfl⟩⟩
    | header _ hw₁ => exact ⟨rfl,.of_write hw₁⟩
    | payload _ _ hw₂ => exact ⟨rfl,.of_write hw₂⟩
    | @written x _ _ _ _ _ _ _ hfit hw₁ hw₂ hi hr =>
        subst r
        cases x with
        | some x => exact (hno ⟨hfit,_,_,_,_,_,_,_,hw₁,hw₂,hi⟩).elim
        | none => exact ⟨UInt64.toInt64_ofNat',stored_of_written hw₁ hw₂ hi⟩
  · obtain ⟨x,t,e,ha,hst,-⟩ := hfails.append
    rw [ha]
    exact hst

theorem readAt_index (x : Index) (offset : UInt64) :
    (({s with idx := x} : Segment).readAt offset d).1 = (s.readAt offset d).1 := by
  unfold Segment.readAt
  rcases s.bw.flush s.file d with ⟨_|y,bw,d₁⟩
  · simp only
    rcases s.file.readAt offset.toInt64.toInt recordHeaderSize d₁ with ⟨y|hdr,d₂⟩
    · rfl
    · simp only
      split
      · rfl
      · rcases s.file.readAt (offset.toInt64+4).toInt (uint hdr) d₂ with ⟨y|b,d₃⟩ <;> rfl
  · rfl

theorem maybeAppend_broken {x : Index} {n : ℕ} (h : x.bw.err ≠ none) (o : UInt64) (q : UInt32)
    (d : Disk) (hdue : ¬x.bytesWrittenSinceLastEntry+n < IndexIntervalBytes) :
    ∃ c y, x.maybeAppend o q n d = (some c,y,d) := by
  obtain ⟨c,hc⟩ := Option.ne_none_iff_exists'.mp h
  simp only [Index.maybeAppend,if_neg hdue,Writer.write_err h,hc]
  exact ⟨_,_,rfl⟩

/-- Once a write of the index has failed, every record that is due for an entry
is rejected, and read back where it was stored. -/
theorem broken_index_rejects (h : Sound s d) (hd : d.Healthy) (ho : s.file.closed = false)
    (hw : s.bw.err = none) (hi : s.idx.bw.err ≠ none) (hp : p.length < 2^32)
    (hfit : ¬s.maxSize.toInt < s.size+((recordHeaderSize+p.length : ℕ) : ℤ))
    (hdue : ¬s.idx.bytesWrittenSinceLastEntry+(recordHeaderSize+p.length) < IndexIntervalBytes) :
    ∃ x t e, s.append p d = (.error (.wrap "storage: update index" x),t,e) ∧
      t.Size ≠ s.Size ∧ (t.readAt (UInt64.ofNat s.size) e).1 = .ok p := by
  obtain ⟨bw₁,d₁,out₁,hw₁,he₁,hd₁,-,hr₁⟩ :=
    Writer.write_healthy hd ho hw (putUint 4 p.length)
  obtain ⟨bw₂,d₂,out₂,hw₂,he₂,hd₂,-,hr₂⟩ := Writer.write_healthy hd₁ ho he₁ p
  obtain ⟨x,idx,hidx⟩ := maybeAppend_broken hi (UInt64.ofNat s.size)
    (UInt64.ofNat s.size).toUInt32 d₂ hdue
  have hst := stored_of_written hw₁ hw₂ hidx
  have hbytes := hst.2 h.1.mem h.1.apart
  have hsize := h.1.counted (not_stuck ho hw)
  have hmax := s.maxSize.toInt_lt
  refine ⟨x,_,d₂,by simp only [Segment.append,if_neg hfit,hw₁,hw₂,hidx],hst.size_ne hfit,?_⟩
  simp only [recordHeaderSize] at hfit
  -- reading does not look at the index, so a live one may stand in its place
  have hholds : ({s with
      bw := bw₂
      size := s.size+(recordHeaderSize+p.length)
      idx := ⟨⟨s.idx.file.path,false⟩,{capacity := 0},[],0⟩} : Segment).Holds d₂
        (s.bytes d++(frame p++[])) := by
    constructor
    · exact hd₂
    · exact ho
    · exact he₂
    · exact ⟨rfl,rfl⟩
    · exact h.1.apart
    · exact (hr₂.mem _).mpr ((hr₁.mem _).mpr h.1.mem)
    · rw [List.append_nil]
      exact hbytes
    · simp only [List.length_append,frame_length,List.length_nil,recordHeaderSize,← hsize]
      rfl
  have hread := Segment.readAt_record hholds (by
    simp only [List.length_append,frame_length,List.length_nil,← hsize]
    omega) hp
  rw [← hsize] at hread
  rw [← hread]
  exact (readAt_index (s := {s with
    bw := bw₂, size := s.size+(recordHeaderSize+p.length), idx := idx}) _ _).symm

/-- A record long enough for an index entry. -/
def largeRecord : Bytes := List.replicate 4096 7

theorem largeRecord_length : largeRecord.length = 4096 := List.length_replicate

def emptySegment : Segment where
  file := ⟨logPath [] 0,false⟩
  bw := {capacity := writeBufferSize}
  idx := ⟨⟨indexPath [] 0,false⟩,{capacity := indexWriteBufferSize},[],0⟩
  baseOffset := 0
  size := 0
  maxSize := DefaultMaxSegmentSize

/-- One large record in a new segment: it and its index entry are buffered. -/
def oneRecord : Segment :=
  {emptySegment with
    bw := {capacity := writeBufferSize, buf := frame largeRecord}
    idx := ⟨⟨indexPath [] 0,false⟩,
      {capacity := indexWriteBufferSize, buf := putUint 8 0++putUint 4 0},[⟨0,0⟩],0⟩
    size := 4100}

theorem append_emptySegment (d : Disk) :
    emptySegment.append largeRecord d = (.ok 0,oneRecord,d) := by
  simp [Segment.append,emptySegment,oneRecord,frame,Writer.write,Writer.available,
    largeRecord_length,writeBufferSize,indexWriteBufferSize,Index.maybeAppend,recordHeaderSize,
    IndexIntervalBytes,DefaultMaxSegmentSize]

/-- The third call of a flush writes the index. -/
theorem flush_oneRecord (d : Disk) :
    ∃ x s e, oneRecord.flush {d with faults := [none,none,some 0]} = (some x,s,e) ∧
      e.Healthy ∧ s.file.closed = false ∧ s.bw.err = none ∧ s.idx.bw.err ≠ none ∧
      s.size = 4100 ∧ s.maxSize = DefaultMaxSegmentSize ∧
      s.idx.bytesWrittenSinceLastEntry = 0 := by
  have hframe : frame largeRecord ≠ [] := by
    apply List.ne_nil_of_length_pos
    rw [frame_length]
    omega
  have hentry : putUint 8 0 ≠ [] := by decide
  simp [oneRecord,emptySegment,Segment.flush,Writer.flush,hframe,hentry,File.write,Disk.next,
    File.sync,File.control,Index.flush,Disk.Healthy]

/-- A large record is stored in a new segment, and the flush that follows fails
in the index. A second record is then rejected, counted and read back. -/
theorem rejected_record_read :
    ∃ s₀ d₀ s₁ d₁ s d t e x y,
      openSegment [] 0 ⟨0⟩ .blank = (.ok s₀,d₀) ∧
      s₀.append largeRecord d₀ = (.ok 0,s₁,d₁) ∧
      s₁.flush {d₁ with faults := [none,none,some 0]} = (some x,s,d) ∧
      s.append largeRecord d = (.error (.wrap "storage: update index" y),t,e) ∧
      t.Size ≠ s.Size ∧ (t.readAt 4100 e).1 = .ok largeRecord ∧
      ¬AllOrNothing s largeRecord d := by
  obtain ⟨d₀,h₀⟩ : ∃ d₀, openSegment [] 0 ⟨0⟩ .blank = (.ok emptySegment,d₀) := ⟨_,rfl⟩
  have h₁ := append_emptySegment d₀
  obtain ⟨x,s,d,h₂,hd,ho,hw,hi,hsize,hmax,hcount⟩ := flush_oneRecord d₀
  have hsound₀ := (openSegment_sound (by decide) h₀).1
  have hsound₁ := (append_sound hsound₀ h₁).1
  have hsound₂ : Sound oneRecord {d₀ with faults := [none,none,some 0]} :=
    ⟨hsound₁.1.of_files hsound₁.1.mem rfl,hsound₁.2⟩
  have hsound := (flush_sound hsound₂ h₂).1
  obtain ⟨y,t,e,ha,hne,hread⟩ := broken_index_rejects (p := largeRecord) hsound hd ho hw hi
    (by rw [largeRecord_length]; decide)
    (by rw [hsize,hmax,largeRecord_length]; decide)
    (by rw [hcount,largeRecord_length]; decide)
  rw [hsize] at hread
  refine ⟨_,d₀,_,d₀,s,d,t,e,x,y,h₀,h₁,h₂,ha,hne,hread,fun hall => ?_⟩
  rw [AllOrNothing,ha] at hall
  exact hne hall.1

end Kage.SegmentAtomicity
