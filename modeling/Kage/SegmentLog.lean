import Kage.SparseIndex
import Kage.LengthPrefixed

/-!
# Segments: one append-only file of length-prefixed records

The operations below follow the segment source statement by statement. Every
one takes the handle state and the disk and returns both, so that an operation
that fails half-way leaves exactly what the source leaves: the cursor, the two
buffers and the files as they were at the failing call.

The cursor `size` counts the bytes of one file and is kept as a natural number;
it becomes a signed 64-bit value where the source converts it, and its sum with
a record length is taken without wrapping, since no file stores `2^63` bytes.
Offsets and limits that come from callers are fixed-width, with the source's
conversions.

`Holds` is the representation invariant of a usable segment: the file followed
by the buffer is the log, and the cursor is its length. Each operation has one
statement about it. Locking is outside the model: an operation is one step.
-/
namespace Kage.SegmentLog
open ByteStrings LengthPrefixed FaultyDisk BufferedWriter SparseIndex

def DefaultMaxSegmentSize : Int64 := 1073741824
def recordHeaderSize : ℕ := 4
def writeBufferSize : ℕ := 256*1024

def ErrSegmentFull : Err := .sentinel "segment is full"
def ErrInvalidOffset : Err := .sentinel "storage: offset out of range"
def ErrInvalidSize : Err := .sentinel "storage: invalid read size"

structure SegmentConfig where
  maxSize : Int64
  deriving DecidableEq, Repr

/-- The limit a segment is opened with; zero and negative sizes mean the default. -/
def SegmentConfig.limit (cfg : SegmentConfig) : Int64 :=
  if cfg.maxSize ≤ 0 then DefaultMaxSegmentSize else cfg.maxSize

theorem limit_pos (cfg : SegmentConfig) : 0 < cfg.limit.toInt := by
  unfold SegmentConfig.limit
  split
  · decide
  · rename_i h
    rw [Int64.le_iff_toInt_le] at h
    simpa using h

structure Segment where
  file : File
  bw : Writer
  idx : Index
  baseOffset : ℕ
  size : ℕ
  maxSize : Int64
  deriving DecidableEq, Repr

def openSegment (dir : List Bytes) (baseOffset : ℕ) (cfg : SegmentConfig) (d : Disk) :
    Except Err Segment × Disk :=
  match openFile (logPath dir baseOffset) d with
  | (.error e,d) => (.error (.wrap "storage: open segment %q" e),d)
  | (.ok f,d) =>
      match f.stat d with
      | (.error e,d) => (.error (.wrap "storage: stat segment %q" e),(f.close d).2.2)
      | (.ok size,d) =>
          match openIndex dir baseOffset d with
          | (.error e,d) => (.error e,(f.close d).2.2)
          | (.ok idx,d) =>
              (.ok ⟨f,{capacity := writeBufferSize},idx,baseOffset,size,cfg.limit⟩,d)

/-- The ways in which opening ends. -/
inductive Opening (dir : List Bytes) (b : ℕ) (cfg : SegmentConfig) (d : Disk) :
    Except Err Segment → Disk → Prop
  | file {x : Err} {d₁ : Disk} : openFile (logPath dir b) d = (.error x,d₁) →
      Opening dir b cfg d (.error (.wrap "storage: open segment %q" x)) d₁
  | stat {f : File} {x : Err} {d₁ d₂ : Disk} : openFile (logPath dir b) d = (.ok f,d₁) →
      f.stat d₁ = (.error x,d₂) →
      Opening dir b cfg d (.error (.wrap "storage: stat segment %q" x)) (f.close d₂).2.2
  | index {f : File} {n : ℕ} {x : Err} {d₁ d₂ d₃ : Disk} :
      openFile (logPath dir b) d = (.ok f,d₁) → f.stat d₁ = (.ok n,d₂) →
      openIndex dir b d₂ = (.error x,d₃) → Opening dir b cfg d (.error x) (f.close d₃).2.2
  | opened {f : File} {n : ℕ} {idx : Index} {d₁ d₂ d₃ : Disk} :
      openFile (logPath dir b) d = (.ok f,d₁) → f.stat d₁ = (.ok n,d₂) →
      openIndex dir b d₂ = (.ok idx,d₃) →
      Opening dir b cfg d (.ok ⟨f,{capacity := writeBufferSize},idx,b,n,cfg.limit⟩) d₃

theorem opening {dir : List Bytes} {b : ℕ} {cfg : SegmentConfig} {d e : Disk}
    {r : Except Err Segment} (h : openSegment dir b cfg d = (r,e)) : Opening dir b cfg d r e := by
  unfold openSegment at h
  rcases hf : openFile (logPath dir b) d with ⟨x|f,d₁⟩
  · rw [hf] at h
    cases h
    exact .file hf
  · rw [hf] at h
    simp only at h
    rcases hs : f.stat d₁ with ⟨x|n,d₂⟩
    · rw [hs] at h
      cases h
      exact .stat hf hs
    · rw [hs] at h
      simp only at h
      rcases hi : openIndex dir b d₂ with ⟨x|idx,d₃⟩
      · rw [hi] at h
        cases h
        exact .index hf hs hi
      · rw [hi] at h
        cases h
        exact .opened hf hs hi

namespace Segment

def append (s : Segment) (payload : Bytes) (d : Disk) : Except Err UInt64 × Segment × Disk :=
  let recordSize := recordHeaderSize+payload.length
  if s.maxSize.toInt < s.size+recordSize then (.error ErrSegmentFull,s,d) else
    let offset := UInt64.ofNat s.size
    match s.bw.write s.file (putUint 4 payload.length) d with
    | (some e,bw,d) => (.error (.wrap "storage: write record header" e),{s with bw := bw},d)
    | (none,bw,d) =>
        match bw.write s.file payload d with
        | (some e,bw,d) => (.error (.wrap "storage: write record payload" e),{s with bw := bw},d)
        | (none,bw,d) =>
            let s := {s with bw := bw, size := s.size+recordSize}
            match s.idx.maybeAppend offset offset.toUInt32 recordSize d with
            | (some e,idx,d) => (.error (.wrap "storage: update index" e),{s with idx := idx},d)
            | (none,idx,d) => (.ok offset,{s with idx := idx},d)

def flush (s : Segment) (d : Disk) : Option Err × Segment × Disk :=
  match s.bw.flush s.file d with
  | (some e,bw,d) => (some (.wrap "storage: flush segment" e),{s with bw := bw},d)
  | (none,bw,d) =>
      match s.file.sync d with
      | (some e,d) => (some (.wrap "storage: fsync segment" e),{s with bw := bw},d)
      | (none,d) =>
          match s.idx.flush d with
          | (some e,idx,d) => (some e,{s with bw := bw, idx := idx},d)
          | (none,idx,d) => (none,{s with bw := bw, idx := idx},d)

def readAt (s : Segment) (offset : UInt64) (d : Disk) : Except Err Bytes × Segment × Disk :=
  match s.bw.flush s.file d with
  | (some e,bw,d) => (.error (.wrap "storage: flush before read" e),{s with bw := bw},d)
  | (none,bw,d) =>
      let s := {s with bw := bw}
      match s.file.readAt offset.toInt64.toInt recordHeaderSize d with
      | (.error e,d) => (.error (.wrap "storage: read record header at %d" e),s,d)
      | (.ok hdr,d) =>
          let length := uint hdr
          if length = 0 then (.ok [],s,d) else
            match s.file.readAt (offset.toInt64+4).toInt length d with
            | (.error e,d) => (.error (.wrap "storage: read record payload at %d" e),s,d)
            | (.ok payload,d) => (.ok payload,s,d)

/-- Bytes written, as the signed 64-bit value the source reports. -/
def Size (s : Segment) : Int64 := Int64.ofNat s.size

def read (s : Segment) (offset : UInt64) (size : Int32) (d : Disk) :
    Except Err SectionReader × Segment × Disk :=
  if size ≤ 0 then (.error ErrInvalidSize,s,d) else
  if offset.toInt64 ≥ s.Size then (.error ErrInvalidOffset,s,d) else
  if offset.toInt64+size.toInt64 > s.Size then (.error ErrInvalidSize,s,d) else
    match s.bw.flush s.file d with
    | (some e,bw,d) => (.error (.wrap "storage: flush before read" e),{s with bw := bw},d)
    | (none,bw,d) =>
        let off := offset.toInt64.toInt
        (.ok ⟨s.file,off,off+size.toInt⟩,{s with bw := bw},d)

def close (s : Segment) (d : Disk) : Option Err × Segment × Disk :=
  match s.bw.flush s.file d with
  | (some e,bw,d) => (some (.wrap "storage: flush on close" e),{s with bw := bw},d)
  | (none,bw,d) =>
      match s.file.close d with
      | (some e,f,d) =>
          (some (.wrap "storage: close segment file" e),{s with bw := bw, file := f},d)
      | (none,f,d) =>
          match s.idx.close d with
          | (some e,idx,d) => (some e,{s with bw := bw, file := f, idx := idx},d)
          | (none,idx,d) => (none,{s with bw := bw, file := f, idx := idx},d)

/-- The bytes of the log, on disk and buffered. -/
def bytes (s : Segment) (d : Disk) : Bytes := d.content s.file.path++s.bw.buf

/-- A usable segment on a healthy disk holds exactly `log`. -/
structure Holds (s : Segment) (d : Disk) (log : Bytes) : Prop where
  healthy : d.Healthy
  opened : s.file.closed = false
  live : s.bw.err = none
  index : s.idx.Live
  apart : s.idx.file.path ≠ s.file.path
  mem : s.file.path ∈ d.files
  bytes : s.bytes d = log
  size : s.size = log.length

/-- Handles, base and limit are those of `s`. -/
def SameHandles (s t : Segment) : Prop :=
  t.file = s.file ∧ t.idx.file = s.idx.file ∧ t.baseOffset = s.baseOffset ∧ t.maxSize = s.maxSize

/-- Files other than the log and index of `s` are as before. -/
def Leaves (s : Segment) (d e : Disk) : Prop :=
  (∀ q, q ≠ s.file.path → q ≠ s.idx.file.path → e.files.lookup q = d.files.lookup q) ∧
    e.dirs = d.dirs

variable {s : Segment} {d : Disk} {log : Bytes}

/-- The ways in which an append ends: the record does not fit, one of its parts
is not written, or both are and the index is told. -/
inductive Appending (s : Segment) (p : Bytes) (d : Disk) :
    Except Err UInt64 → Segment → Disk → Prop
  | full : s.maxSize.toInt < s.size+((recordHeaderSize+p.length : ℕ) : ℤ) →
      Appending s p d (.error ErrSegmentFull) s d
  | header {x : Err} {bw : Writer} {e : Disk} :
      ¬s.maxSize.toInt < s.size+((recordHeaderSize+p.length : ℕ) : ℤ) →
      s.bw.write s.file (putUint 4 p.length) d = (some x,bw,e) →
      Appending s p d (.error (.wrap "storage: write record header" x)) {s with bw := bw} e
  | payload {x : Err} {bw₁ bw₂ : Writer} {d₁ e : Disk} :
      ¬s.maxSize.toInt < s.size+((recordHeaderSize+p.length : ℕ) : ℤ) →
      s.bw.write s.file (putUint 4 p.length) d = (none,bw₁,d₁) →
      bw₁.write s.file p d₁ = (some x,bw₂,e) →
      Appending s p d (.error (.wrap "storage: write record payload" x)) {s with bw := bw₂} e
  | written {x : Option Err} {bw₁ bw₂ : Writer} {idx : Index} {d₁ d₂ e : Disk}
      {r : Except Err UInt64} :
      ¬s.maxSize.toInt < s.size+((recordHeaderSize+p.length : ℕ) : ℤ) →
      s.bw.write s.file (putUint 4 p.length) d = (none,bw₁,d₁) →
      bw₁.write s.file p d₁ = (none,bw₂,d₂) →
      s.idx.maybeAppend (UInt64.ofNat s.size) (UInt64.ofNat s.size).toUInt32
        (recordHeaderSize+p.length) d₂ = (x,idx,e) →
      r = (match x with
        | some y => .error (.wrap "storage: update index" y)
        | none => .ok (UInt64.ofNat s.size)) →
      Appending s p d r
        {s with bw := bw₂, size := s.size+(recordHeaderSize+p.length), idx := idx} e

theorem appending {t : Segment} {p : Bytes} {e : Disk} {r : Except Err UInt64}
    (h : s.append p d = (r,t,e)) : Appending s p d r t e := by
  unfold append at h
  simp only at h
  split at h
  · rename_i hfull
    cases h
    exact .full hfull
  · rename_i hfit
    rcases hw₁ : s.bw.write s.file (putUint 4 p.length) d with ⟨_|x,bw₁,d₁⟩
    · rw [hw₁] at h
      simp only at h
      rcases hw₂ : bw₁.write s.file p d₁ with ⟨_|x,bw₂,d₂⟩
      · rw [hw₂] at h
        simp only at h
        rcases hi : s.idx.maybeAppend (UInt64.ofNat s.size) (UInt64.ofNat s.size).toUInt32
          (recordHeaderSize+p.length) d₂ with ⟨x,idx,d₃⟩
        rw [hi] at h
        cases x <;> cases h <;> exact .written hfit hw₁ hw₂ hi rfl
      · rw [hw₂] at h
        cases h
        exact .payload hfit hw₁ hw₂
    · rw [hw₁] at h
      cases h
      exact .header hfit hw₁

/-- The ways in which closing ends. -/
inductive Closing (s : Segment) (d : Disk) : Option Err → Segment → Disk → Prop
  | flush {x : Err} {bw : Writer} {e : Disk} : s.bw.flush s.file d = (some x,bw,e) →
      Closing s d (some (.wrap "storage: flush on close" x)) {s with bw := bw} e
  | file {x : Err} {bw : Writer} {f : File} {d₁ e : Disk} :
      s.bw.flush s.file d = (none,bw,d₁) → s.file.close d₁ = (some x,f,e) →
      Closing s d (some (.wrap "storage: close segment file" x)) {s with bw := bw, file := f} e
  | index {r : Option Err} {bw : Writer} {f : File} {idx : Index} {d₁ d₂ e : Disk} :
      s.bw.flush s.file d = (none,bw,d₁) → s.file.close d₁ = (none,f,d₂) →
      s.idx.close d₂ = (r,idx,e) →
      Closing s d r {s with bw := bw, file := f, idx := idx} e

theorem closing {t : Segment} {e : Disk} {r : Option Err} (h : s.close d = (r,t,e)) :
    Closing s d r t e := by
  unfold close at h
  rcases hw : s.bw.flush s.file d with ⟨_|x,bw,d₁⟩
  · rw [hw] at h
    simp only at h
    rcases hf : s.file.close d₁ with ⟨_|x,f,d₂⟩
    · rw [hf] at h
      simp only at h
      rcases hi : s.idx.close d₂ with ⟨_|x,idx,d₃⟩ <;> rw [hi] at h <;> cases h <;>
        exact .index hw hf hi
    · rw [hf] at h
      cases h
      exact .file hw hf
  · rw [hw] at h
    cases h
    exact .flush hw

/-- The ways in which flushing ends. -/
inductive Flushing (s : Segment) (d : Disk) : Option Err → Segment → Disk → Prop
  | log {x : Err} {bw : Writer} {e : Disk} : s.bw.flush s.file d = (some x,bw,e) →
      Flushing s d (some (.wrap "storage: flush segment" x)) {s with bw := bw} e
  | sync {x : Err} {bw : Writer} {d₁ e : Disk} : s.bw.flush s.file d = (none,bw,d₁) →
      s.file.sync d₁ = (some x,e) →
      Flushing s d (some (.wrap "storage: fsync segment" x)) {s with bw := bw} e
  | index {r : Option Err} {bw : Writer} {idx : Index} {d₁ d₂ e : Disk} :
      s.bw.flush s.file d = (none,bw,d₁) → s.file.sync d₁ = (none,d₂) →
      s.idx.flush d₂ = (r,idx,e) → Flushing s d r {s with bw := bw, idx := idx} e

theorem flushing {t : Segment} {e : Disk} {r : Option Err} (h : s.flush d = (r,t,e)) :
    Flushing s d r t e := by
  unfold flush at h
  rcases hw : s.bw.flush s.file d with ⟨_|x,bw,d₁⟩
  · rw [hw] at h
    simp only at h
    rcases hs : s.file.sync d₁ with ⟨_|x,d₂⟩
    · rw [hs] at h
      simp only at h
      rcases hi : s.idx.flush d₂ with ⟨_|x,idx,d₃⟩ <;> rw [hi] at h <;> cases h <;>
        exact .index hw hs hi
    · rw [hs] at h
      cases h
      exact .sync hw hs
  · rw [hw] at h
    cases h
    exact .log hw

/-- The buffer of the log was flushed, and nothing was written since. -/
def Looked (s : Segment) (d : Disk) (t : Segment) (e : Disk) : Prop :=
  ∃ r bw d₁, s.bw.flush s.file d = (r,bw,d₁) ∧ t = {s with bw := bw} ∧ d₁.Idle e

theorem readAt_looked {t : Segment} {e : Disk} {offset : UInt64} {r : Except Err Bytes}
    (h : s.readAt offset d = (r,t,e)) : s.Looked d t e := by
  unfold readAt at h
  rcases hw : s.bw.flush s.file d with ⟨_|x,bw,d₁⟩
  · rw [hw] at h
    simp only at h
    have h₁ := s.file.readAt_idle offset.toInt64.toInt recordHeaderSize d₁
    rcases hhdr : s.file.readAt offset.toInt64.toInt recordHeaderSize d₁ with ⟨x|hdr,d₂⟩
    · rw [hhdr] at h h₁
      cases h
      exact ⟨_,bw,d₁,hw,rfl,h₁⟩
    · rw [hhdr] at h h₁
      simp only at h
      split at h
      · cases h
        exact ⟨_,bw,d₁,hw,rfl,h₁⟩
      · have h₂ := s.file.readAt_idle (offset.toInt64+4).toInt (uint hdr) d₂
        rcases hp : s.file.readAt (offset.toInt64+4).toInt (uint hdr) d₂ with ⟨x|b,d₃⟩ <;>
          rw [hp] at h h₂ <;> cases h <;> exact ⟨_,bw,d₁,hw,rfl,h₁.trans h₂⟩
  · rw [hw] at h
    cases h
    exact ⟨_,bw,_,hw,rfl,.refl _⟩

/-- A positioned read either fails its range check or flushes. -/
theorem read_looked {t : Segment} {e : Disk} {offset : UInt64} {size : Int32}
    {r : Except Err SectionReader} (h : s.read offset size d = (r,t,e)) :
    (t = s ∧ e = d) ∨ s.Looked d t e := by
  unfold read at h
  split at h
  · cases h
    exact .inl ⟨rfl,rfl⟩
  · split at h
    · cases h
      exact .inl ⟨rfl,rfl⟩
    · split at h
      · cases h
        exact .inl ⟨rfl,rfl⟩
      · rcases hw : s.bw.flush s.file d with ⟨_|x,bw,d₁⟩ <;> rw [hw] at h <;> cases h <;>
          exact .inr ⟨_,bw,_,hw,rfl,.refl _⟩

theorem Leaves.refl (s : Segment) (d : Disk) : s.Leaves d d := ⟨fun _ _ _ => rfl,rfl⟩

theorem Leaves.trans {d₁ d₂ d₃ : Disk} (h : s.Leaves d₁ d₂) (k : s.Leaves d₂ d₃) :
    s.Leaves d₁ d₃ :=
  ⟨fun q hq hi => (k.1 q hq hi).trans (h.1 q hq hi),k.2.trans h.2⟩

theorem Leaves.of_file {e : Disk} (h : OnlyTouches s.file.path d e) : s.Leaves d e :=
  ⟨fun q hq _ => h.1 q hq,h.2⟩

theorem Leaves.of_index {e : Disk} (h : OnlyTouches s.idx.file.path d e) : s.Leaves d e :=
  ⟨fun q _ hi => h.1 q hi,h.2⟩

/-- A step confined to the index keeps the log where it was. -/
theorem Holds.of_index (h : s.Holds d log) {x : Index} {e : Disk} (hx : x.Live)
    (hf : x.file = s.idx.file) (he : e.Healthy) (ho : OnlyTouches s.idx.file.path d e) :
    ({s with idx := x}).Holds e log where
  healthy := he
  opened := h.opened
  live := h.live
  index := hx
  apart := by simpa [hf] using h.apart
  mem := (ho.mem h.apart.symm).mpr h.mem
  bytes := by
    have hb := h.bytes
    unfold Segment.bytes at hb ⊢
    rw [ho.content h.apart.symm]
    exact hb
  size := h.size

/-- Bytes moved from the buffer to the file are still part of the log. -/
theorem Holds.of_flush (h : s.Holds d log) :
    ({s with bw := {s.bw with buf := []}}).Holds (d.appendTo s.file.path s.bw.buf) log where
  healthy := by simpa using h.healthy
  opened := h.opened
  live := h.live
  index := h.index
  apart := h.apart
  mem := by simpa using h.mem
  bytes := by
    have hb := h.bytes
    unfold Segment.bytes at hb ⊢
    simpa [Disk.content_appendTo_self h.mem] using hb
  size := h.size

/-- What the file holds once the buffer was written out. -/
theorem Holds.flushed (h : s.Holds d log) :
    (d.appendTo s.file.path s.bw.buf).content s.file.path = log := by
  rw [Disk.content_appendTo_self h.mem]
  exact h.bytes

theorem Holds.flush_eq (h : s.Holds d log) :
    s.bw.flush s.file d = (none,{s.bw with buf := []},d.appendTo s.file.path s.bw.buf) :=
  Writer.flush_healthy h.healthy h.opened h.live

theorem Holds.flush_leaves (s : Segment) (d : Disk) :
    s.Leaves d (d.appendTo s.file.path s.bw.buf) :=
  .of_file (.appendTo _ d _)

/-- One write through the buffer extends the log by its argument. -/
theorem Holds.write (h : s.Holds d log) (p : Bytes) :
    ∃ bw e, s.bw.write s.file p d = (none,bw,e) ∧
      ({s with bw := bw, size := s.size+p.length}).Holds e (log++p) ∧ s.Leaves d e := by
  obtain ⟨bw,e,out,hw,hb,he,hbuf,hr⟩ := Writer.write_healthy h.healthy h.opened h.live p
  refine ⟨bw,e,hw,⟨he,h.opened,hb,h.index,h.apart,(hr.mem _).mpr h.mem,?_,?_⟩,.of_file hr.only⟩
  · have hl := h.bytes
    unfold Segment.bytes at hl ⊢
    simp only
    rw [hr.content h.mem,List.append_assoc,← hbuf,← List.append_assoc,hl]
  · simp [h.size]

theorem append_full (s : Segment) {payload : Bytes} (d : Disk)
    (h : s.maxSize.toInt < s.size+(4+payload.length)) :
    s.append payload d = (.error ErrSegmentFull,s,d) := by
  have hf : s.maxSize.toInt < s.size+((recordHeaderSize+payload.length : ℕ) : ℤ) := by
    simpa [recordHeaderSize] using h
  simp only [append,if_pos hf]

theorem append_fits (h : s.Holds d log) {payload : Bytes}
    (hf : s.size+(4+payload.length) ≤ s.maxSize.toInt) :
    ∃ t e, s.append payload d = (.ok (UInt64.ofNat s.size),t,e) ∧
      t.Holds e (log++frame payload) ∧ s.SameHandles t ∧ s.Leaves d e := by
  have hn : ¬s.maxSize.toInt < s.size+((recordHeaderSize+payload.length : ℕ) : ℤ) := by
    simpa [recordHeaderSize] using hf
  obtain ⟨bw₁,d₁,hw₁,h₁,hl₁⟩ := h.write (putUint 4 payload.length)
  obtain ⟨bw₂,d₂,hw₂,h₂,hl₂⟩ := h₁.write payload
  obtain ⟨x,d₃,hx,hlive,hfile,hd,ho⟩ := Index.maybeAppend_healthy h₂.healthy h₂.index
    (UInt64.ofNat s.size) (UInt64.ofNat s.size).toUInt32 (recordHeaderSize+payload.length)
  have h₃ := h₂.of_index hlive hfile hd ho
  refine ⟨{s with bw := bw₂, size := s.size+(recordHeaderSize+payload.length), idx := x},d₃,
    ?_,?_,⟨rfl,hfile,rfl,rfl⟩,(hl₁.trans hl₂).trans (.of_index ho)⟩
  · simp only at hw₂ hx
    simp only [append,if_neg hn,hw₁,hw₂,hx]
  · simpa [frame,recordHeaderSize,List.append_assoc,Nat.add_assoc] using h₃

theorem flush_holds (h : s.Holds d log) :
    ∃ t e, s.flush d = (none,t,e) ∧ t.Holds e log ∧ s.SameHandles t ∧ s.Leaves d e := by
  have h₁ := h.of_flush
  obtain ⟨x,e,hx,hlive,hfile,he,ho⟩ := Index.flush_healthy h₁.healthy h.index
  refine ⟨_,e,?_,h₁.of_index hlive hfile he ho,⟨rfl,hfile,rfl,rfl⟩,
    (Holds.flush_leaves s d).trans (.of_index ho)⟩
  simp only [flush,h.flush_eq,File.sync,File.control_healthy h₁.healthy h.opened,hx]

theorem Holds.looked (h : s.Holds d log) {t : Segment} {e : Disk} (hl : s.Looked d t e) :
    t = {s with bw := {s.bw with buf := []}} ∧ e = d.appendTo s.file.path s.bw.buf := by
  obtain ⟨r,bw,d₁,hw,rfl,hidle⟩ := hl
  rw [h.flush_eq] at hw
  cases hw
  exact ⟨rfl,hidle.eq_of_healthy h.of_flush.healthy⟩

/-- Reading a record flushes and changes nothing else, whatever the offset. -/
theorem readAt_state (h : s.Holds d log) (offset : UInt64) :
    ∃ r, s.readAt offset d =
      (r,{s with bw := {s.bw with buf := []}},d.appendTo s.file.path s.bw.buf) := by
  rcases hr : s.readAt offset d with ⟨r,t,e⟩
  obtain ⟨rfl,rfl⟩ := h.looked (readAt_looked hr)
  exact ⟨r,rfl⟩

theorem read_state (h : s.Holds d log) (offset : UInt64) (size : Int32) :
    ∃ r, s.read offset size d = (r,s,d) ∨ s.read offset size d =
      (r,{s with bw := {s.bw with buf := []}},d.appendTo s.file.path s.bw.buf) := by
  rcases hr : s.read offset size d with ⟨r,t,e⟩
  rcases read_looked hr with ⟨rfl,rfl⟩ | hl
  · exact ⟨r,.inl rfl⟩
  · obtain ⟨rfl,rfl⟩ := h.looked hl
    exact ⟨r,.inr rfl⟩

/-- A record is read back at the position where its frame starts. -/
theorem readAt_record {before rest payload : Bytes}
    (h : s.Holds d (before++(frame payload++rest)))
    (hl : (before++(frame payload++rest)).length < 2^63) (hp : payload.length < 2^32) :
    (s.readAt (UInt64.ofNat before.length) d).1 = .ok payload := by
  have h₁ := h.of_flush
  have hc := h.flushed
  have hlen : before.length+(4+payload.length) < 2^63 := by
    simp only [List.length_append,frame_length] at hl
    omega
  have ho : (UInt64.ofNat before.length).toInt64.toInt = (before.length : ℤ) := by
    rw [UInt64.toInt64_ofNat',Int64.toInt_ofNat_of_lt (by omega)]
  have ho₄ : ((UInt64.ofNat before.length).toInt64+4).toInt = ((before.length+4 : ℕ) : ℤ) := by
    have h4 : (4 : Int64) = Int64.ofNat 4 := rfl
    rw [UInt64.toInt64_ofNat',h4,← Int64.ofNat_add,Int64.toInt_ofNat_of_lt (by omega)]
  have hu : uint (putUint 4 payload.length) = payload.length :=
    uint_putUint_of_lt (by omega)
  have hr₁ := File.readAt_healthy h₁.healthy h.opened before.length 4 (by
    rw [hc]; simp only [List.length_append,frame_length]; omega)
  have hr₂ := File.readAt_healthy h₁.healthy h.opened (before.length+4) payload.length (by
    rw [hc]; simp only [List.length_append,frame_length]; omega)
  rw [hc,header_at] at hr₁
  rw [hc,payload_at] at hr₂
  simp only [readAt,h.flush_eq,ho,ho₄,recordHeaderSize,hr₁,hu,hr₂]
  split
  · rename_i h0
    rw [List.length_eq_zero_iff.mp h0]
  · rfl

theorem close_holds (h : s.Holds d log) :
    ∃ t e, s.close d = (none,t,e) ∧ e.Healthy ∧
      e.files.lookup s.file.path = some log ∧ s.Leaves d e := by
  have h₁ := h.of_flush
  obtain ⟨x,e,hx,he,ho⟩ := Index.close_healthy h₁.healthy h.index
  refine ⟨{s with
      bw := {s.bw with buf := []}
      file := {s.file with closed := true}
      idx := x},e,?_,he,?_,(Holds.flush_leaves s d).trans (.of_index ho)⟩
  · simp only [close,h.flush_eq,File.close_healthy h₁.healthy h.opened,hx]
  · rw [ho.1 _ h.apart.symm,Disk.lookup_appendTo_self h.mem]
    exact congrArg some h.bytes

end Segment

theorem openSegment_healthy {d : Disk} (hd : d.Healthy) (dir : List Bytes) (baseOffset : ℕ)
    (cfg : SegmentConfig) :
    ∃ s e, openSegment dir baseOffset cfg d = (.ok s,e) ∧
      s.Holds e (d.content (logPath dir baseOffset)) ∧ s.bw.buf = [] ∧
      s.file.path = logPath dir baseOffset ∧ s.idx.file.path = indexPath dir baseOffset ∧
      s.baseOffset = baseOffset ∧ s.maxSize = cfg.limit ∧ s.Leaves d e := by
  have h₁ : (d.create (logPath dir baseOffset)).Healthy := by simpa using hd
  have hf : (File.mk (logPath dir baseOffset) false).closed = false := rfl
  have hne := logPath_ne_indexPath dir dir baseOffset baseOffset
  obtain ⟨x,hx,hlive,hp⟩ := openIndex_healthy h₁ dir baseOffset
  refine ⟨⟨⟨logPath dir baseOffset,false⟩,{capacity := writeBufferSize},x,baseOffset,
      (d.content (logPath dir baseOffset)).length,cfg.limit⟩,
    (d.create (logPath dir baseOffset)).create (indexPath dir baseOffset),?_,
    ⟨by simpa using hd,rfl,rfl,hlive,by simpa [hp] using hne.symm,by simp,?_,rfl⟩,
    rfl,rfl,hp,rfl,rfl,?_⟩
  · simp only [openSegment,openFile_healthy hd,File.stat_healthy h₁ hf,Disk.content_create,hx]
  · simp [Segment.bytes]
  · refine ⟨fun q hq hi => ?_,by simp⟩
    simp only [hp] at hq hi
    rw [Disk.lookup_create_ne hi,Disk.lookup_create_ne hq]

end Kage.SegmentLog
