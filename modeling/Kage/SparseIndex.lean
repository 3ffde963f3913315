import Kage.BufferedWriter
import Kage.DecimalText
import Kage.FixedRecords
import Kage.FloorSearch

/-!
# The sparse index of a segment

One entry of twelve bytes, a logical offset and a file position, is recorded
each time enough log bytes have accumulated since the previous entry. Entries
go to a buffered file and to an in-memory list; opening the file loads every
whole entry and drops an incomplete one at the end.

The index never decides what a segment stores. The statements below say what its
callers rely on: it touches no file but its own, it keeps working while its
calls succeed, and its file can be opened again. A lookup searches the list by
bisection; where the list is sorted it finds the last entry that is not behind
the target.
-/
namespace Kage.SparseIndex
open ByteStrings DecimalText FaultyDisk BufferedWriter FixedRecords FloorSearch

def IndexIntervalBytes : ℕ := 4096
def indexEntrySize : ℕ := 12
def indexWriteBufferSize : ℕ := 64*1024

def ErrOffsetNotFound : Err := .sentinel "storage: offset not found in index"

structure Entry where
  offset : UInt64
  position : UInt32
  deriving DecidableEq, Repr

structure Index where
  file : File
  bw : Writer
  entries : List Entry
  bytesWrittenSinceLastEntry : ℕ
  deriving DecidableEq, Repr

/-- The index file of a base offset lies beside its log file. -/
def indexPath (dir : List Bytes) (baseOffset : ℕ) : Path :=
  ⟨dir,zeroPadded 20 baseOffset++ascii ".index"⟩

def logPath (dir : List Bytes) (baseOffset : ℕ) : Path :=
  ⟨dir,zeroPadded 20 baseOffset++ascii ".log"⟩

theorem logPath_injective (dir : List Bytes) : Function.Injective (logPath dir) := by
  intro a b h
  have hn := congrArg Path.name h
  exact zeroPadded_injective 20 (List.append_cancel_right hn)

theorem logPath_ne_indexPath (dir₁ dir₂ : List Bytes) (a b : ℕ) :
    logPath dir₁ a ≠ indexPath dir₂ b := by
  intro h
  have hn := congrArg (fun p => p.name.getLast?) h
  have hl : (ascii ".log").getLast? = some 103 := by decide
  have hi : (ascii ".index").getLast? = some 120 := by decide
  simp [logPath,indexPath,List.getLast?_append,hl,hi] at hn

/-- Each pass is one read of twelve bytes; the pass after the last whole entry
meets the end of the file. -/
def loadLoop : ℕ → Bytes → Disk → Except Err (List Entry) × Disk
  | 0,_,d =>
      match d.next with
      | (some _,d) => (.error .device,d)
      | (none,d) => (.ok [],d)
  | k+1,rest,d =>
      match d.next with
      | (some _,d) => (.error .device,d)
      | (none,d) =>
          let e : Entry := ⟨UInt64.ofNat (uintAt 8 rest 0),UInt32.ofNat (uintAt 4 rest 8)⟩
          match loadLoop k (rest.drop indexEntrySize) d with
          | (.error x,d) => (.error x,d)
          | (.ok es,d) => (.ok (e::es),d)

/-- Seek to the start, then stat, then read entry by entry. -/
def loadEntries (f : File) (d : Disk) : Except Err (List Entry) × Disk :=
  match f.seekStart d with
  | (some e,d) => (.error e,d)
  | (none,d) =>
      match f.stat d with
      | (.error e,d) => (.error e,d)
      | (.ok size,d) => loadLoop (size/indexEntrySize) (d.content f.path) d

def openIndex (dir : List Bytes) (baseOffset : ℕ) (d : Disk) : Except Err Index × Disk :=
  match openFile (indexPath dir baseOffset) d with
  | (.error e,d) => (.error (.wrap "storage: open index %q" e),d)
  | (.ok f,d) =>
      match loadEntries f d with
      | (.error e,d) => (.error (.wrap "storage: load index %q" e),(f.close d).2.2)
      | (.ok entries,d) => (.ok ⟨f,{capacity := indexWriteBufferSize},entries,0⟩,d)

namespace Index

def maybeAppend (x : Index) (logOffset : UInt64) (position : UInt32) (recordSize : ℕ)
    (d : Disk) : Option Err × Index × Disk :=
  let x := {x with bytesWrittenSinceLastEntry := x.bytesWrittenSinceLastEntry+recordSize}
  if x.bytesWrittenSinceLastEntry < IndexIntervalBytes then (none,x,d) else
    let buf := putUint 8 logOffset.toNat++putUint 4 position.toNat
    match x.bw.write x.file buf d with
    | (some e,bw,d) => (some (.wrap "storage: write index entry" e),{x with bw := bw},d)
    | (none,bw,d) =>
        (none,{x with
          bw := bw
          entries := x.entries++[⟨logOffset,position⟩]
          bytesWrittenSinceLastEntry := 0},d)

def flush (x : Index) (d : Disk) : Option Err × Index × Disk :=
  match x.bw.flush x.file d with
  | (some e,bw,d) => (some (.wrap "storage: flush index" e),{x with bw := bw},d)
  | (none,bw,d) =>
      match x.file.sync d with
      | (some e,d) => (some (.wrap "storage: fsync index" e),{x with bw := bw},d)
      | (none,d) => (none,{x with bw := bw},d)

def close (x : Index) (d : Disk) : Option Err × Index × Disk :=
  match x.bw.flush x.file d with
  | (some e,bw,d) => (some (.wrap "storage: flush index on close" e),{x with bw := bw},d)
  | (none,bw,d) =>
      match x.file.close d with
      | (some e,f,d) => (some (.wrap "storage: close index file" e),{x with bw := bw, file := f},d)
      | (none,f,d) => (none,{x with bw := bw, file := f},d)

/-- The position of the last entry that is not behind the target. `none` stands
for the panic of a read outside the entries. -/
def lookup (x : Index) (targetOffset : UInt64) : Option (Except Err UInt32) :=
  if x.entries.length = 0 then some (.error ErrOffsetNotFound) else
    match bisect (fun e => decide (e.offset ≤ targetOffset)) x.entries x.entries.length
        0 (x.entries.length-1) (-1) with
    | none => none
    | some result =>
        if result = -1 then some (.error ErrOffsetNotFound) else
          x.entries[result.toNat]?.map fun e => .ok e.position

/-- The handle is open and no write has failed. -/
def Live (x : Index) : Prop := x.file.closed = false ∧ x.bw.err = none

end Index

/-- An entry as it is stored. -/
def entryCodec : Codec Entry UInt8 indexEntrySize where
  encode := fun a => putUint 8 a.offset.toNat++putUint 4 a.position.toNat
  decode := fun s => ⟨UInt64.ofNat (uintAt 8 s 0),UInt32.ofNat (uintAt 4 s 8)⟩
  width := by decide
  encode_length := fun a => by simp [indexEntrySize]
  decode_encode := fun a rest => by
    rw [List.append_assoc,uintAt_putUint a.offset.toNat_lt,UInt64.ofNat_toNat]
    rw [uintAt_skip (putUint_length 8 _) 4 _ 0,uintAt_putUint a.position.toNat_lt,
      UInt32.ofNat_toNat]
  encode_decode := fun s hs => by
    simp only [indexEntrySize] at hs
    obtain ⟨ho,hoffset⟩ := putUint_uintAt (w := 8) (by omega : 0+8 ≤ s.length)
    obtain ⟨hp,hposition⟩ := putUint_uintAt (w := 4) (by omega : 8+4 ≤ s.length)
    rw [UInt64.toNat_ofNat_of_lt' ho,UInt32.toNat_ofNat_of_lt' hp,hoffset,hposition]
    exact (List.take_add ..).symm

theorem loadLoop_entries {k : ℕ} {rest : Bytes} {es : List Entry} {d e : Disk}
    (h : loadLoop k rest d = (.ok es,e)) : es = entryCodec.readAll k rest := by
  induction k generalizing rest es d e with
  | zero =>
      unfold loadLoop at h
      split at h <;> cases h
      rfl
  | succ k ih =>
      unfold loadLoop at h
      split at h
      · cases h
      · rename_i d₁ _
        simp only at h
        rcases hl : loadLoop k (rest.drop indexEntrySize) d₁ with ⟨x|es₁,d₂⟩
        · rw [hl] at h
          cases h
        · rw [hl] at h
          cases h
          rw [ih hl]
          rfl

theorem loadLoop_healthy {d : Disk} (hd : d.Healthy) (k : ℕ) (rest : Bytes) :
    ∃ es, loadLoop k rest d = (.ok es,d) := by
  induction k generalizing rest with
  | zero => exact ⟨[],by simp [loadLoop,Disk.next_healthy hd]⟩
  | succ k ih =>
      obtain ⟨es,he⟩ := ih (rest.drop indexEntrySize)
      simp only [loadLoop,Disk.next_healthy hd,he]
      exact ⟨_,rfl⟩

theorem openIndex_healthy {d : Disk} (hd : d.Healthy) (dir : List Bytes) (baseOffset : ℕ) :
    ∃ x, openIndex dir baseOffset d = (.ok x,d.create (indexPath dir baseOffset)) ∧
      x.Live ∧ x.file.path = indexPath dir baseOffset := by
  have hc : (d.create (indexPath dir baseOffset)).Healthy := by simpa using hd
  have hf : (File.mk (indexPath dir baseOffset) false).closed = false := rfl
  obtain ⟨es,he⟩ := loadLoop_healthy hc
    ((d.content (indexPath dir baseOffset)).length/indexEntrySize)
    (d.content (indexPath dir baseOffset))
  refine ⟨⟨⟨indexPath dir baseOffset,false⟩,{capacity := indexWriteBufferSize},es,0⟩,?_,
    ⟨rfl,rfl⟩,rfl⟩
  simp [openIndex,openFile_healthy hd,loadEntries,File.seekStart,File.control_healthy hc hf,
    File.stat_healthy hc hf,he]

theorem loadLoop_idle (k : ℕ) (rest : Bytes) (d : Disk) : d.Idle (loadLoop k rest d).2 := by
  induction k generalizing rest d with
  | zero =>
      unfold loadLoop
      split <;> rename_i h <;> exact .next h
  | succ k ih =>
      unfold loadLoop
      split
      · rename_i h
        exact .next h
      · rename_i d₁ h
        have hi := (Disk.Idle.next h).trans (ih (rest.drop indexEntrySize) d₁)
        simp only
        split <;> rename_i hx <;> rw [hx] at hi <;> exact hi

theorem loadEntries_idle (f : File) (d : Disk) : d.Idle (loadEntries f d).2 := by
  unfold loadEntries File.seekStart
  have hs := f.control_idle d
  rcases hy : f.control d with ⟨r,d₁⟩
  rw [hy] at hs
  cases r with
  | some e => exact hs
  | none =>
      have ht := f.stat_idle d₁
      simp only
      rcases hz : f.stat d₁ with ⟨r,d₂⟩
      rw [hz] at ht
      cases r with
      | error e => exact hs.trans ht
      | ok n => exact (hs.trans ht).trans (loadLoop_idle _ _ d₂)

/-- The ways in which opening an index ends. -/
inductive Index.Opening (dir : List Bytes) (b : ℕ) (d : Disk) : Except Err Index → Disk → Prop
  | file {x : Err} {e : Disk} : openFile (indexPath dir b) d = (.error x,e) →
      Opening dir b d (.error (.wrap "storage: open index %q" x)) e
  | load {f : File} {x : Err} {d₁ d₂ : Disk} : openFile (indexPath dir b) d = (.ok f,d₁) →
      loadEntries f d₁ = (.error x,d₂) →
      Opening dir b d (.error (.wrap "storage: load index %q" x)) (f.close d₂).2.2
  | opened {f : File} {es : List Entry} {d₁ e : Disk} :
      openFile (indexPath dir b) d = (.ok f,d₁) → loadEntries f d₁ = (.ok es,e) →
      Opening dir b d (.ok ⟨f,{capacity := indexWriteBufferSize},es,0⟩) e

theorem Index.opening {dir : List Bytes} {b : ℕ} {d e : Disk} {r : Except Err Index}
    (h : openIndex dir b d = (r,e)) : Index.Opening dir b d r e := by
  unfold openIndex at h
  rcases hf : openFile (indexPath dir b) d with ⟨x|f,d₁⟩
  · rw [hf] at h
    cases h
    exact .file hf
  · rw [hf] at h
    simp only at h
    rcases hl : loadEntries f d₁ with ⟨x|es,d₂⟩
    · rw [hl] at h
      cases h
      exact .load hf hl
    · rw [hl] at h
      cases h
      exact .opened hf hl

theorem openIndex_only (dir : List Bytes) (b : ℕ) (d : Disk) :
    OnlyTouches (indexPath dir b) d (openIndex dir b d).2 := by
  have ho := openFile_only (indexPath dir b) d
  rcases hx : openIndex dir b d with ⟨r,e⟩
  cases Index.opening hx with
  | file hf =>
      rw [hf] at ho
      exact ho
  | @load f _ d₁ d₂ hf hl =>
      have hi := loadEntries_idle f d₁
      rw [hf] at ho
      rw [hl] at hi
      exact ho.trans (.of_idle _ (hi.trans (f.close_idle d₂)))
  | @opened f _ d₁ _ hf hl =>
      have hi := loadEntries_idle f d₁
      rw [hf] at ho
      rw [hl] at hi
      exact ho.trans (.of_idle _ hi)

namespace Index
variable {x : Index} {d : Disk}

theorem maybeAppend_healthy (hd : d.Healthy) (hx : x.Live) (o : UInt64) (p : UInt32) (n : ℕ) :
    ∃ y e, x.maybeAppend o p n d = (none,y,e) ∧ y.Live ∧ y.file = x.file ∧ e.Healthy ∧
      OnlyTouches x.file.path d e := by
  unfold maybeAppend
  simp only
  split
  · exact ⟨_,_,rfl,hx,rfl,hd,.refl _ d⟩
  · obtain ⟨bw,e,out,hw,he,hh,-,hr⟩ := Writer.write_healthy hd hx.1 hx.2
      (putUint 8 o.toNat++putUint 4 p.toNat)
    rw [hw]
    exact ⟨_,_,rfl,⟨hx.1,he⟩,rfl,hh,hr.only⟩

theorem flush_healthy (hd : d.Healthy) (hx : x.Live) :
    ∃ y e, x.flush d = (none,y,e) ∧ y.Live ∧ y.file = x.file ∧ e.Healthy ∧
      OnlyTouches x.file.path d e := by
  have he : (d.appendTo x.file.path x.bw.buf).Healthy := by simpa using hd
  refine ⟨{x with bw := {x.bw with buf := []}},d.appendTo x.file.path x.bw.buf,?_,
    ⟨hx.1,hx.2⟩,rfl,he,.appendTo _ d _⟩
  simp [flush,Writer.flush_healthy hd hx.1 hx.2,File.sync,File.control_healthy he hx.1]

theorem close_healthy (hd : d.Healthy) (hx : x.Live) :
    ∃ y e, x.close d = (none,y,e) ∧ e.Healthy ∧ OnlyTouches x.file.path d e := by
  have he : (d.appendTo x.file.path x.bw.buf).Healthy := by simpa using hd
  refine ⟨{x with bw := {x.bw with buf := []}, file := {x.file with closed := true}},
    d.appendTo x.file.path x.bw.buf,?_,he,.appendTo _ d _⟩
  simp only [close,Writer.flush_healthy hd hx.1 hx.2,File.close_healthy he hx.1]

/-- The ways in which an entry is considered: none is due, it is not written, or
it is written. -/
inductive Considering (x : Index) (o : UInt64) (p : UInt32) (n : ℕ) (d : Disk) :
    Option Err → Index → Disk → Prop
  | early : x.bytesWrittenSinceLastEntry+n < IndexIntervalBytes →
      Considering x o p n d none
        {x with bytesWrittenSinceLastEntry := x.bytesWrittenSinceLastEntry+n} d
  | failed {c : Err} {bw : Writer} {e : Disk} :
      ¬x.bytesWrittenSinceLastEntry+n < IndexIntervalBytes →
      x.bw.write x.file (putUint 8 o.toNat++putUint 4 p.toNat) d = (some c,bw,e) →
      Considering x o p n d (some (.wrap "storage: write index entry" c))
        {x with bw := bw, bytesWrittenSinceLastEntry := x.bytesWrittenSinceLastEntry+n} e
  | written {bw : Writer} {e : Disk} :
      ¬x.bytesWrittenSinceLastEntry+n < IndexIntervalBytes →
      x.bw.write x.file (putUint 8 o.toNat++putUint 4 p.toNat) d = (none,bw,e) →
      Considering x o p n d none
        {x with bw := bw, entries := x.entries++[⟨o,p⟩], bytesWrittenSinceLastEntry := 0} e

theorem considering {o : UInt64} {p : UInt32} {n : ℕ} {r : Option Err} {y : Index} {e : Disk}
    (h : x.maybeAppend o p n d = (r,y,e)) : Considering x o p n d r y e := by
  unfold maybeAppend at h
  simp only at h
  split at h
  · rename_i hn
    cases h
    exact .early hn
  · rename_i hn
    rcases hw : x.bw.write x.file (putUint 8 o.toNat++putUint 4 p.toNat) d with ⟨_|c,bw,e₁⟩
    · rw [hw] at h
      cases h
      exact .written hn hw
    · rw [hw] at h
      cases h
      exact .failed hn hw

/-- The ways in which closing ends. -/
inductive Closing (x : Index) (d : Disk) : Option Err → Index → Disk → Prop
  | flush {c : Err} {bw : Writer} {e : Disk} : x.bw.flush x.file d = (some c,bw,e) →
      Closing x d (some (.wrap "storage: flush index on close" c)) {x with bw := bw} e
  | file {c r : Option Err} {bw : Writer} {f : File} {d₁ e : Disk} :
      x.bw.flush x.file d = (none,bw,d₁) → x.file.close d₁ = (c,f,e) →
      r = c.map (.wrap "storage: close index file") →
      Closing x d r {x with bw := bw, file := f} e

theorem closing {r : Option Err} {y : Index} {e : Disk} (h : x.close d = (r,y,e)) :
    Closing x d r y e := by
  unfold close at h
  rcases hw : x.bw.flush x.file d with ⟨_|c,bw,d₁⟩
  · rw [hw] at h
    simp only at h
    rcases hf : x.file.close d₁ with ⟨_|c,f,d₂⟩
    · rw [hf] at h
      cases h
      exact .file hw hf rfl
    · rw [hf] at h
      cases h
      exact .file hw hf rfl
  · rw [hw] at h
    cases h
    exact .flush hw

theorem maybeAppend_only (x : Index) (o : UInt64) (p : UInt32) (n : ℕ) (d : Disk) :
    (x.maybeAppend o p n d).2.1.file = x.file ∧
      OnlyTouches x.file.path d (x.maybeAppend o p n d).2.2 := by
  rcases hx : x.maybeAppend o p n d with ⟨r,y,e⟩
  cases considering hx with
  | early => exact ⟨rfl,.refl _ d⟩
  | failed _ hw =>
      obtain ⟨-,-,out,lost,-,hr,-⟩ := Writer.write_spec hw
      exact ⟨rfl,hr.only⟩
  | written _ hw =>
      obtain ⟨-,-,out,lost,-,hr,-⟩ := Writer.write_spec hw
      exact ⟨rfl,hr.only⟩

theorem flush_only (x : Index) (d : Disk) :
    (x.flush d).2.1.file = x.file ∧ OnlyTouches x.file.path d (x.flush d).2.2 := by
  unfold flush
  rcases hw : x.bw.flush x.file d with ⟨r,bw,e⟩
  obtain ⟨-,-,out,-,hr,-⟩ := Writer.flush_spec hw
  cases r with
  | some e => exact ⟨rfl,hr.only⟩
  | none =>
      have hs := x.file.control_idle e
      simp only [File.sync]
      rcases hy : x.file.control e with ⟨r,e₂⟩
      rw [hy] at hs
      cases r <;> exact ⟨rfl,hr.only.trans (.of_idle _ hs)⟩

theorem close_only (x : Index) (d : Disk) :
    (x.close d).2.1.file.path = x.file.path ∧ OnlyTouches x.file.path d (x.close d).2.2 := by
  rcases hx : x.close d with ⟨r,y,e⟩
  cases closing hx with
  | flush hw =>
      obtain ⟨-,-,out,-,hr,-⟩ := Writer.flush_spec hw
      exact ⟨rfl,hr.only⟩
  | @file _ _ _ _ d₁ _ hw hf _ =>
      obtain ⟨-,-,out,-,hr,-⟩ := Writer.flush_spec hw
      have hc := x.file.close_idle d₁
      have hclosed := x.file.close_closed d₁
      rw [hf] at hc hclosed
      obtain rfl : _ = _ := hclosed
      exact ⟨rfl,hr.only.trans (.of_idle _ hc)⟩

/-- What a lookup in sorted entries answers. -/
theorem lookup_sorted (h : x.entries.Pairwise fun a b => a.offset < b.offset) (t : UInt64) :
    (x.lookup t = some (.error ErrOffsetNotFound) ∧ ∀ a ∈ x.entries, ¬a.offset ≤ t) ∨
      ∃ a ∈ x.entries, x.lookup t = some (.ok a.position) ∧ a.offset ≤ t ∧
        ∀ b ∈ x.entries, b.offset ≤ t → b.offset ≤ a.offset := by
  have hp : x.entries.Pairwise fun a b =>
      (decide (b.offset ≤ t) : Bool) → (decide (a.offset ≤ t) : Bool) := by
    refine h.imp fun {a b} hab hb => ?_
    simp only [decide_eq_true_eq] at hb ⊢
    exact UInt64.le_trans (UInt64.le_of_lt hab) hb
  obtain ⟨r,hr,hfloor⟩ := bisect_isFloor hp
  unfold lookup
  rw [hr]
  split
  · rename_i h0
    rw [List.length_eq_zero_iff.mp h0]
    exact .inl ⟨rfl,by simp⟩
  · simp only
    split
    · rename_i hr1
      exact .inl ⟨rfl,by simpa using hfloor.eq_neg_one_iff.mp hr1⟩
    · rename_i hr1
      obtain ⟨a,ha,hpa,hlast⟩ := hfloor.last hr1
      refine .inr ⟨a,List.mem_of_getElem? ha,by rw [ha]; rfl,by simpa using hpa,fun b hb hbt => ?_⟩
      obtain ⟨i,hi⟩ := List.getElem?_of_mem hb
      rcases (hlast i b hi (by simpa using hbt)).lt_or_eq with hlt | rfl
      · exact UInt64.le_of_lt (pairwise_getElem? h hi ha hlt)
      · rw [ha] at hi
        cases hi
        exact UInt64.le_refl _

section Sorted
variable (h : x.entries.Pairwise fun a b => a.offset < b.offset)
include h

theorem eq_of_offset_eq {a b : Entry} (ha : a ∈ x.entries) (hb : b ∈ x.entries)
    (hab : a.offset = b.offset) : a = b := by
  obtain ⟨i,hi⟩ := List.getElem?_of_mem ha
  obtain ⟨j,hj⟩ := List.getElem?_of_mem hb
  rcases lt_trichotomy i j with hlt | rfl | hgt
  · have hne := UInt64.ne_of_lt (pairwise_getElem? h hi hj hlt)
    exact (hne hab).elim
  · rw [hi] at hj
    exact Option.some.inj hj
  · have hne := UInt64.ne_of_lt (pairwise_getElem? h hj hi hgt)
    exact (hne hab.symm).elim

theorem lookup_ok_iff (t : UInt64) (q : UInt32) : x.lookup t = some (.ok q) ↔
    ∃ a ∈ x.entries, a.position = q ∧ a.offset ≤ t ∧
      ∀ b ∈ x.entries, b.offset ≤ t → b.offset ≤ a.offset := by
  rcases lookup_sorted h t with ⟨hl,hno⟩ | ⟨a,ha,hl,hat,hmax⟩
  · rw [hl]
    constructor
    · intro hq
      cases hq
    · rintro ⟨a,ha,-,hat,-⟩
      exact (hno a ha hat).elim
  · rw [hl]
    constructor
    · intro hq
      cases hq
      exact ⟨a,ha,rfl,hat,hmax⟩
    · rintro ⟨b,hb,rfl,hbt,hbmax⟩
      rw [eq_of_offset_eq h ha hb (UInt64.le_antisymm (hbmax a ha hat) (hmax b hb hbt))]

theorem lookup_error_iff (t : UInt64) : x.lookup t = some (.error ErrOffsetNotFound) ↔
    ∀ a ∈ x.entries, ¬a.offset ≤ t := by
  rcases lookup_sorted h t with ⟨hl,hno⟩ | ⟨a,ha,hl,hat,-⟩
  · exact iff_of_true hl hno
  · refine iff_of_false ?_ fun hno => hno a ha hat
    rw [hl]
    intro hq
    cases hq

end Sorted

end Index

end Kage.SparseIndex
