import Kage.ByteStrings
import Mathlib.Data.Finmap
import Mathlib.Data.List.Sort

/-!
# Append-only files on a disk whose calls may fail

The disk is a finite map from paths to contents together with a schedule of
the outcomes of the calls still to be made. Each call that reaches the
operating system consumes one entry: `none` lets it succeed and `some k` makes
it fail, for a write after `k` bytes have gone through. An exhausted schedule
never fails, so `Healthy` is the absence of input/output errors.

A path is a directory, given by its cleaned components, and a name in it. A
handle remembers its path and whether it was closed. Closing consumes the
descriptor even when it reports an error, and a closed handle refuses before
any call is made. Bytes written through a handle whose name was removed are
not visible under any name.

Errors are sentinels and operating-system failures, wrapped in the context
strings that the callers add. No real device, cache or timing is modeled.
-/
namespace Kage.FaultyDisk
open ByteStrings

inductive Err where
  | eof
  | unexpectedEOF
  | closed
  | negativeOffset
  | device
  | sentinel (text : String)
  | wrap (context : String) (cause : Err)
  deriving DecidableEq, Repr

/-- Whether `target` occurs in the chain of causes. -/
def Err.is : Err → Err → Bool
  | .wrap c e,target => .wrap c e == target || e.is target
  | e,target => e == target

structure Path where
  dir : List Bytes
  name : Bytes
  deriving DecidableEq, Repr

structure Disk where
  files : Finmap fun _ : Path => Bytes
  dirs : List (List Bytes)
  faults : List (Option ℕ)

namespace Disk

/-- Nothing stored and no failures to come. -/
def blank : Disk := ⟨∅,[],[]⟩

def Healthy (d : Disk) : Prop := d.faults = []

instance (d : Disk) : Decidable d.Healthy := inferInstanceAs (Decidable (_ = _))

/-- The same files with no failures to come. -/
def calm (d : Disk) : Disk := {d with faults := []}

/-- Outcome of the next call, and the disk with that entry consumed. -/
def next (d : Disk) : Option ℕ × Disk := (d.faults.head?.join,{d with faults := d.faults.tail})

def content (d : Disk) (p : Path) : Bytes := (d.files.lookup p).getD []

/-- Extend an existing file; a removed name stays removed. -/
def appendTo (d : Disk) (p : Path) (b : Bytes) : Disk :=
  if p ∈ d.files then {d with files := d.files.insert p (d.content p++b)} else d

/-- Create an empty file unless the name exists. -/
def create (d : Disk) (p : Path) : Disk :=
  if p ∈ d.files then d else {d with files := d.files.insert p []}

def remove (d : Disk) (p : Path) : Disk := {d with files := d.files.erase p}

theorem next_healthy {d : Disk} (h : d.Healthy) : d.next = (none,d) := by
  cases d
  simp_all [Healthy,next]

@[simp] theorem appendTo_faults (d : Disk) (p : Path) (b : Bytes) :
    (d.appendTo p b).faults = d.faults := by
  unfold appendTo
  split <;> rfl

@[simp] theorem create_faults (d : Disk) (p : Path) : (d.create p).faults = d.faults := by
  unfold create
  split <;> rfl

@[simp] theorem appendTo_dirs (d : Disk) (p : Path) (b : Bytes) :
    (d.appendTo p b).dirs = d.dirs := by
  unfold appendTo
  split <;> rfl

@[simp] theorem create_dirs (d : Disk) (p : Path) : (d.create p).dirs = d.dirs := by
  unfold create
  split <;> rfl

@[simp] theorem appendTo_healthy (d : Disk) (p : Path) (b : Bytes) :
    (d.appendTo p b).Healthy ↔ d.Healthy := by simp [Healthy]

@[simp] theorem create_healthy (d : Disk) (p : Path) : (d.create p).Healthy ↔ d.Healthy := by
  simp [Healthy]

/-- None of the calls to come fails. -/
def Unfailing (d : Disk) : Prop := ∀ f ∈ d.faults, f = none

@[simp] theorem appendTo_unfailing (d : Disk) (p : Path) (b : Bytes) :
    (d.appendTo p b).Unfailing ↔ d.Unfailing := by simp [Unfailing]

@[simp] theorem create_unfailing (d : Disk) (p : Path) :
    (d.create p).Unfailing ↔ d.Unfailing := by simp [Unfailing]

/-- The next call goes through and none behind it fails if and only if none
fails. -/
theorem next_unfailing {d e : Disk} {o : Option ℕ} (h : d.next = (o,e)) :
    o = none ∧ e.Unfailing ↔ d.Unfailing := by
  cases h
  unfold Unfailing
  cases d.faults with
  | nil => simp
  | cons f fs => simp

theorem lookup_of_mem {d : Disk} {p : Path} (h : p ∈ d.files) :
    d.files.lookup p = some (d.content p) := by
  obtain ⟨b,hb⟩ := Finmap.mem_iff.mp h
  rw [content,hb]
  rfl

@[simp] theorem mem_appendTo (d : Disk) (p q : Path) (b : Bytes) :
    q ∈ (d.appendTo p b).files ↔ q ∈ d.files := by
  unfold appendTo
  split
  · rename_i h
    simp only [Finmap.mem_insert]
    exact ⟨fun hq => hq.elim (fun e => e ▸ h) id,Or.inr⟩
  · rfl

@[simp] theorem mem_create (d : Disk) (p q : Path) :
    q ∈ (d.create p).files ↔ q = p ∨ q ∈ d.files := by
  unfold create
  split
  · rename_i h
    exact ⟨Or.inr,fun hq => hq.elim (fun e => e ▸ h) id⟩
  · simp [Finmap.mem_insert]

theorem lookup_appendTo_self {d : Disk} {p : Path} (h : p ∈ d.files) (b : Bytes) :
    (d.appendTo p b).files.lookup p = some (d.content p++b) := by
  simp [appendTo,h]

theorem lookup_appendTo_ne {d : Disk} {p q : Path} (h : q ≠ p) (b : Bytes) :
    (d.appendTo p b).files.lookup q = d.files.lookup q := by
  unfold appendTo
  split
  · exact Finmap.lookup_insert_of_ne _ h
  · rfl

theorem content_appendTo_self {d : Disk} {p : Path} (h : p ∈ d.files) (b : Bytes) :
    (d.appendTo p b).content p = d.content p++b := by
  rw [content,lookup_appendTo_self h]
  rfl

theorem lookup_create_ne {d : Disk} {p q : Path} (h : q ≠ p) :
    (d.create p).files.lookup q = d.files.lookup q := by
  unfold create
  split
  · rfl
  · exact Finmap.lookup_insert_of_ne _ h

@[simp] theorem content_create (d : Disk) (p q : Path) : (d.create p).content q = d.content q := by
  by_cases hq : q = p
  · subst q
    unfold create content
    split
    · rfl
    · rename_i h
      simp [Finmap.lookup_eq_none.mpr h]
  · rw [content,lookup_create_ne hq]
    rfl

theorem content_remove_ne {d : Disk} {p q : Path} (h : q ≠ p) :
    (d.remove p).content q = d.content q := by
  rw [content,remove,Finmap.lookup_erase_ne h]
  rfl

theorem content_remove_self (d : Disk) (p : Path) : (d.remove p).content p = [] := by
  rw [content,remove,Finmap.lookup_erase]
  rfl

theorem mem_remove_ne {d : Disk} {p q : Path} (h : q ≠ p) :
    q ∈ (d.remove p).files ↔ q ∈ d.files := by
  rw [remove,Finmap.mem_erase]
  exact and_iff_right h

theorem appendTo_nil (d : Disk) (p : Path) : d.appendTo p [] = d := by
  unfold appendTo
  split
  · rename_i h
    have hf : d.files.insert p (d.content p++[]) = d.files := by
      apply Finmap.ext_lookup
      intro q
      by_cases hq : q = p
      · subst q
        simp [lookup_of_mem h]
      · exact Finmap.lookup_insert_of_ne _ hq
    rw [hf]
  · rfl

/-- The files after an append depend only on the files before it. -/
theorem appendTo_files_congr {d e : Disk} (h : d.files = e.files) (p : Path) (b : Bytes) :
    (d.appendTo p b).files = (e.appendTo p b).files := by
  simp only [appendTo,content,h]
  split
  · rfl
  · exact h

theorem appendTo_appendTo (d : Disk) (p : Path) (a b : Bytes) :
    (d.appendTo p a).appendTo p b = d.appendTo p (a++b) := by
  by_cases h : p ∈ d.files
  · have h₁ : p ∈ (d.appendTo p a).files := by simpa using h
    have hc := content_appendTo_self h a
    rw [appendTo,if_pos h₁,hc]
    simp [appendTo,h,List.append_assoc]
  · simp [appendTo,h]

/-- Directories are created together with their missing ancestors. -/
def mkdirAll (d : Disk) (p : List Bytes) : Option Err × Disk :=
  match d.next with
  | (some _,d) => (some .device,d)
  | (none,d) => (none,{d with dirs := d.dirs++p.inits.filter fun q => q ∉ d.dirs})

/-- Names of the directories directly below `p`. -/
def subdirectories (d : Disk) (p : List Bytes) : List Bytes :=
  d.dirs.filterMap fun q => if q.dropLast = p then q.getLast? else none

theorem subdirectories_of_dirs {d e : Disk} (h : e.dirs = d.dirs) (p : List Bytes) :
    e.subdirectories p = d.subdirectories p := by
  rw [subdirectories,subdirectories,h]

/-- Making a directory below another adds its name to the listing of that one. -/
theorem mkdirAll_below {d : Disk} {root : List Bytes} {c : Bytes} (hd : d.Healthy)
    (hr : root ∈ d.dirs) (hc : c ∉ d.subdirectories root) :
    ∃ e, d.mkdirAll (root++[c]) = (none,e) ∧ e.Healthy ∧ root ∈ e.dirs ∧
      e.subdirectories root = d.subdirectories root++[c] ∧ e.files = d.files := by
  have hnew : root++[c] ∉ d.dirs := by
    intro hm
    apply hc
    rw [subdirectories,List.mem_filterMap]
    exact ⟨root++[c],hm,by simp⟩
  have hup : ∀ q ∈ root.inits.filter (fun q => decide (q ∉ d.dirs)),
      (if q.dropLast = root then q.getLast? else none) = none := by
    intro q hq
    have hq := (List.mem_inits _ _).mp (List.mem_of_mem_filter hq)
    split
    · rename_i heq
      have hl := hq.length_le
      have he := congrArg List.length heq
      rw [List.length_dropLast] at he
      cases q with
      | nil => rfl
      | cons x q =>
          rw [List.length_cons] at hl he
          omega
    · rfl
  have hinits : (root++[c]).inits = root.inits++[root++[c]] := by
    rw [List.inits_append]
    rfl
  refine ⟨{d with dirs := d.dirs++(root++[c]).inits.filter fun q => q ∉ d.dirs},
    by rw [mkdirAll,next_healthy hd],hd,List.mem_append_left _ hr,?_,rfl⟩
  rw [subdirectories,List.filterMap_append,hinits,List.filter_append,List.filterMap_append,
    List.filterMap_eq_nil_iff.mpr hup,List.filter_cons_of_pos (by simpa using hnew)]
  simp [subdirectories]

end Disk

/-- The directories in a directory, in order. Listing one that does not exist is an
error, as is a failed call. -/
def readDir (dir : List Bytes) (d : Disk) : Except Err (List Bytes) × Disk :=
  match d.next with
  | (some _,d) => (.error .device,d)
  | (none,d) =>
      if dir ∈ d.dirs then (.ok ((d.subdirectories dir).insertionSort (·≤·)),d)
      else (.error .device,d)

theorem insertionSort_perm {l m : List Bytes} (h : l.Perm m) :
    l.insertionSort (·≤·) = m.insertionSort (·≤·) := by
  refine List.Perm.eq_of_pairwise (fun a b _ _ => List.le_antisymm) ?_ ?_ ?_
  · exact List.pairwise_insertionSort _ _
  · exact List.pairwise_insertionSort _ _
  · exact ((List.perm_insertionSort _ l).trans h).trans (List.perm_insertionSort _ m).symm

/-- Names of the files in a directory, in order. -/
def Disk.fileNames (d : Disk) (dir : List Bytes) : List Bytes :=
  d.files.liftOn
    (fun l => ((l.keys.filter fun q => q.dir = dir).map Path.name).insertionSort (·≤·))
    fun _ _ h => insertionSort_perm (((h.map Sigma.fst).filter _).map Path.name)

structure File where
  path : Path
  closed : Bool
  deriving DecidableEq, Repr

/-- Open for reading and appending, creating the file when it is missing. -/
def openFile (p : Path) (d : Disk) : Except Err File × Disk :=
  match d.next with
  | (some _,d) => (.error .device,d)
  | (none,d) => (.ok ⟨p,false⟩,d.create p)

namespace File

def stat (f : File) (d : Disk) : Except Err ℕ × Disk :=
  if f.closed then (.error .closed,d) else
    match d.next with
    | (some _,d) => (.error .device,d)
    | (none,d) => (.ok (d.content f.path).length,d)

/-- The number of bytes that went through, and the error if any. -/
def write (f : File) (b : Bytes) (d : Disk) : ℕ × Option Err × Disk :=
  if f.closed then (0,some .closed,d) else
    match d.next with
    | (some k,d) => (min k b.length,some .device,d.appendTo f.path (b.take k))
    | (none,d) => (b.length,none,d.appendTo f.path b)

/-- A call on the handle that moves no data. -/
def control (f : File) (d : Disk) : Option Err × Disk :=
  if f.closed then (some .closed,d) else
    match d.next with
    | (some _,d) => (some .device,d)
    | (none,d) => (none,d)

def sync (f : File) (d : Disk) : Option Err × Disk := f.control d

def seekStart (f : File) (d : Disk) : Option Err × Disk := f.control d

def close (f : File) (d : Disk) : Option Err × File × Disk :=
  if f.closed then (some .closed,f,d) else
    match d.next with
    | (some _,d) => (some .device,{f with closed := true},d)
    | (none,d) => (none,{f with closed := true},d)

/-- A positioned read of exactly `n` bytes. -/
def readAt (f : File) (off : ℤ) (n : ℕ) (d : Disk) : Except Err Bytes × Disk :=
  if n = 0 then (.ok [],d) else
  if off < 0 then (.error .negativeOffset,d) else
  if f.closed then (.error .closed,d) else
    match d.next with
    | (some _,d) => (.error .device,d)
    | (none,d) =>
        let got := window (d.content f.path) off.toNat n
        if got.length = n then (.ok got,d) else (.error .eof,d)

end File

/-- A forward reader over the bytes `[pos, limit)` of an open file. -/
structure SectionReader where
  file : File
  pos : ℤ
  limit : ℤ
  deriving DecidableEq, Repr

/-- Read exactly `n` bytes, or report the end of the section: `eof` when
nothing was left and `unexpectedEOF` when it came in the middle. -/
def SectionReader.readFull (r : SectionReader) (n : ℕ) (d : Disk) :
    Except Err Bytes × SectionReader × Disk :=
  if n = 0 then (.ok [],r,d) else
  if r.limit ≤ r.pos then (.error .eof,r,d) else
  if r.pos < 0 then (.error .negativeOffset,r,d) else
  if r.file.closed then (.error .closed,r,d) else
    match d.next with
    | (some _,d) => (.error .device,r,d)
    | (none,d) =>
        let got := window (d.content r.file.path) r.pos.toNat (min n (r.limit-r.pos).toNat)
        let r := {r with pos := r.pos+got.length}
        if got.length = n then (.ok got,r,d)
        else if got = [] then (.error .eof,r,d)
        else (.error .unexpectedEOF,r,d)

/-- Calls were answered and nothing was stored. -/
structure Disk.Idle (d e : Disk) : Prop where
  files : e.files = d.files
  dirs : e.dirs = d.dirs
  faults : e.faults <:+ d.faults

section Idle
variable {d e : Disk}

theorem Disk.Idle.refl (d : Disk) : d.Idle d := ⟨rfl,rfl,List.suffix_rfl⟩

theorem Disk.Idle.trans {d₁ d₂ d₃ : Disk} (h : d₁.Idle d₂) (k : d₂.Idle d₃) : d₁.Idle d₃ :=
  ⟨k.files.trans h.files,k.dirs.trans h.dirs,k.faults.trans h.faults⟩

theorem Disk.Idle.next {o : Option ℕ} (h : d.next = (o,e)) : d.Idle e := by
  obtain rfl : d.next.2 = e := by rw [h]
  exact ⟨rfl,rfl,List.tail_suffix _⟩

theorem Disk.Idle.content (h : d.Idle e) (p : Path) : e.content p = d.content p := by
  rw [Disk.content,Disk.content,h.files]

theorem Disk.Idle.eq_of_healthy (h : d.Idle e) (hd : d.Healthy) : e = d := by
  obtain ⟨files,dirs,faults⟩ := d
  obtain ⟨files',dirs',faults'⟩ := e
  obtain rfl : faults = [] := hd
  obtain rfl : files' = files := h.files
  obtain rfl : dirs' = dirs := h.dirs
  obtain rfl : faults' = [] := List.suffix_nil.mp h.faults
  rfl

theorem File.control_idle (f : File) (d : Disk) : d.Idle (f.control d).2 := by
  unfold File.control
  split
  · exact .refl d
  · split <;> rename_i h <;> exact .next h

theorem File.stat_idle (f : File) (d : Disk) : d.Idle (f.stat d).2 := by
  unfold File.stat
  split
  · exact .refl d
  · split <;> rename_i h <;> exact .next h

theorem File.close_idle (f : File) (d : Disk) : d.Idle (f.close d).2.2 := by
  unfold File.close
  split
  · exact .refl d
  · split <;> rename_i h <;> exact .next h

theorem File.readAt_idle (f : File) (off : ℤ) (n : ℕ) (d : Disk) :
    d.Idle (f.readAt off n d).2 := by
  unfold File.readAt
  split
  · exact .refl d
  · split
    · exact .refl d
    · split
      · exact .refl d
      · rcases hx : d.next with ⟨x,e⟩
        cases x with
        | some k => exact .next hx
        | none =>
            simp only
            split <;> exact .next hx

theorem SectionReader.readFull_idle (r : SectionReader) (n : ℕ) (d : Disk) :
    d.Idle (r.readFull n d).2.2 := by
  unfold SectionReader.readFull
  split
  · exact .refl d
  · split
    · exact .refl d
    · split
      · exact .refl d
      · split
        · exact .refl d
        · rcases hx : d.next with ⟨x,e⟩
          cases x with
          | some k => exact .next hx
          | none =>
              simp only
              split
              · exact .next hx
              · split <;> exact .next hx

end Idle

/-- What was read is the part of an open file that the section names, and the
reader moves past it. -/
theorem SectionReader.readFull_inv {r r' : SectionReader} {n : ℕ} {b : Bytes} {d d' : Disk}
    (h : r.readFull n d = (.ok b,r',d')) (hn : 0 < n) :
    0 ≤ r.pos ∧ r.file.closed = false ∧ b.length = n ∧
      b = window (d.content r.file.path) r.pos.toNat (min n (r.limit-r.pos).toNat) ∧
      r' = {r with pos := r.pos+n} := by
  unfold SectionReader.readFull at h
  rw [if_neg (by omega)] at h
  split at h
  · cases h
  · split at h
    · cases h
    · rename_i hpos
      split at h
      · cases h
      · rename_i hclosed
        rcases hx : d.next with ⟨x,e⟩
        rw [hx] at h
        cases x with
        | some k => cases h
        | none =>
            obtain rfl : d.next.2 = e := by rw [hx]
            simp only at h
            split at h
            · rename_i hlen
              cases h
              exact ⟨not_lt.mp hpos,by simpa using hclosed,hlen,rfl,by rw [hlen]⟩
            · split at h <;> cases h

theorem SectionReader.readFull_zero {r r' : SectionReader} {b : Bytes} {d d' : Disk}
    (h : r.readFull 0 d = (.ok b,r',d')) : b = [] ∧ r' = r := by
  cases h
  exact ⟨rfl,rfl⟩

/-- Bytes that were read lie in the section, and the reader moves past them. -/
theorem SectionReader.readFull_advance {r r' : SectionReader} {n : ℕ} {b : Bytes} {d d' : Disk}
    (h : r.readFull n d = (.ok b,r',d')) :
    r'.pos = r.pos+n ∧ r'.limit = r.limit ∧ (0 < n → r.pos+n ≤ r.limit) := by
  rcases n.eq_zero_or_pos with rfl|hn
  · obtain ⟨-,rfl⟩ := readFull_zero h
    exact ⟨by simp,rfl,fun h0 => absurd h0 (Nat.lt_irrefl 0)⟩
  · obtain ⟨-,-,hlen,hb,rfl⟩ := readFull_inv h hn
    rw [hb,window_length] at hlen
    exact ⟨rfl,rfl,fun _ => by omega⟩

/-- What was read has the length asked for, and nothing is read in front of the
file. -/
theorem SectionReader.readFull_length {r r' : SectionReader} {n : ℕ} {b : Bytes} {d d' : Disk}
    (h : r.readFull n d = (.ok b,r',d')) : b.length = n ∧ (0 < n → 0 ≤ r.pos) := by
  rcases n.eq_zero_or_pos with rfl|hn
  · obtain ⟨rfl,-⟩ := readFull_zero h
    exact ⟨rfl,fun h0 => absurd h0 (Nat.lt_irrefl 0)⟩
  · obtain ⟨hpos,-,hlen,-⟩ := readFull_inv h hn
    exact ⟨hlen,fun _ => hpos⟩

/-- No name but `p` changes, whatever the calls answer. -/
def OnlyTouches (p : Path) (d e : Disk) : Prop :=
  (∀ q, q ≠ p → e.files.lookup q = d.files.lookup q) ∧ e.dirs = d.dirs

section Frame
variable {p : Path} {d e : Disk}

theorem OnlyTouches.refl (p : Path) (d : Disk) : OnlyTouches p d d := ⟨fun _ _ => rfl,rfl⟩

theorem OnlyTouches.trans {d₁ d₂ d₃ : Disk} (h : OnlyTouches p d₁ d₂)
    (k : OnlyTouches p d₂ d₃) : OnlyTouches p d₁ d₃ :=
  ⟨fun q hq => (k.1 q hq).trans (h.1 q hq),k.2.trans h.2⟩

theorem OnlyTouches.content (h : OnlyTouches p d e) {q : Path} (hq : q ≠ p) :
    e.content q = d.content q := by
  rw [Disk.content,Disk.content,h.1 q hq]

theorem OnlyTouches.mem (h : OnlyTouches p d e) {q : Path} (hq : q ≠ p) :
    q ∈ e.files ↔ q ∈ d.files := by
  rw [← Finmap.lookup_isSome,← Finmap.lookup_isSome,h.1 q hq]

theorem OnlyTouches.create (p : Path) (d : Disk) : OnlyTouches p d (d.create p) :=
  ⟨fun _ hq => Disk.lookup_create_ne hq,by simp⟩

theorem OnlyTouches.appendTo (p : Path) (d : Disk) (b : Bytes) :
    OnlyTouches p d (d.appendTo p b) :=
  ⟨fun _ hq => Disk.lookup_appendTo_ne hq b,by simp⟩

theorem OnlyTouches.of_idle (p : Path) (h : d.Idle e) : OnlyTouches p d e :=
  ⟨fun q _ => by rw [h.files],h.dirs⟩

theorem openFile_only (p : Path) (d : Disk) : OnlyTouches p d (openFile p d).2 := by
  unfold openFile
  split
  · rename_i h
    exact .of_idle p (.next h)
  · rename_i h
    exact (OnlyTouches.of_idle p (.next h)).trans (.create p _)

theorem openFile_ok {p : Path} {f : File} (h : openFile p d = (.ok f,e)) :
    f = ⟨p,false⟩ ∧ p ∈ e.files := by
  unfold openFile at h
  split at h
  · cases h
  · simp only [Prod.mk.injEq,Except.ok.injEq] at h
    obtain ⟨rfl,rfl⟩ := h
    simp

theorem File.write_closed {f : File} (h : f.closed = true) (b : Bytes) (d : Disk) :
    f.write b d = (0,some .closed,d) := by
  simp [File.write,h]

/-- Whatever the call answers, the descriptor is gone. -/
theorem File.close_closed (f : File) (d : Disk) :
    (f.close d).2.1 = {f with closed := true} := by
  unfold File.close
  split
  · rename_i h
    cases f
    simp_all
  · split <;> rfl

end Frame

section Healthy
variable {d : Disk} {f : File}

theorem openFile_healthy (hd : d.Healthy) (p : Path) :
    openFile p d = (.ok ⟨p,false⟩,d.create p) := by
  simp [openFile,Disk.next_healthy hd]

theorem File.stat_healthy (hd : d.Healthy) (hf : f.closed = false) :
    f.stat d = (.ok (d.content f.path).length,d) := by
  simp [File.stat,hf,Disk.next_healthy hd]

theorem File.write_healthy (hd : d.Healthy) (hf : f.closed = false) (b : Bytes) :
    f.write b d = (b.length,none,d.appendTo f.path b) := by
  simp [File.write,hf,Disk.next_healthy hd]

theorem File.control_healthy (hd : d.Healthy) (hf : f.closed = false) :
    f.control d = (none,d) := by
  simp [File.control,hf,Disk.next_healthy hd]

theorem File.close_healthy (hd : d.Healthy) (hf : f.closed = false) :
    f.close d = (none,{f with closed := true},d) := by
  simp [File.close,hf,Disk.next_healthy hd]

theorem File.readAt_healthy (hd : d.Healthy) (hf : f.closed = false) (off n : ℕ)
    (h : off+n ≤ (d.content f.path).length) :
    f.readAt off n d = (.ok (window (d.content f.path) off n),d) := by
  unfold File.readAt
  split
  · rename_i hn
    subst hn
    simp [window]
  · have hl := window_length_of_le h
    simp [hf,Disk.next_healthy hd,hl]

/-- Without failures a reader's answer is a function of the bytes. -/
theorem SectionReader.readFull_healthy (hd : d.Healthy) (hf : f.closed = false)
    (pos limit : ℤ) (n : ℕ) :
    (SectionReader.readFull ⟨f,pos,limit⟩ n d).1 =
      if n = 0 then .ok [] else
      if limit ≤ pos then .error .eof else
      if pos < 0 then .error .negativeOffset else
        let got := window (d.content f.path) pos.toNat (min n (limit-pos).toNat)
        if got.length = n then .ok got else if got = [] then .error .eof
        else .error .unexpectedEOF := by
  unfold SectionReader.readFull
  simp only [hf,Disk.next_healthy hd,Bool.false_eq_true,if_false]
  split
  · rfl
  · split
    · rfl
    · split
      · rfl
      · split
        · rfl
        · split <;> rfl

/-- A read inside the section and the file answers with the bytes and moves on. -/
theorem SectionReader.readFull_ok (hd : d.Healthy) (hf : f.closed = false) (pos n : ℕ) {limit : ℤ}
    (hl : (pos+n : ℤ) ≤ limit) (hc : pos+n ≤ (d.content f.path).length) :
    SectionReader.readFull ⟨f,pos,limit⟩ n d =
      (.ok (window (d.content f.path) pos n),⟨f,pos+n,limit⟩,d) := by
  unfold SectionReader.readFull
  by_cases hn : n = 0
  · subst hn
    simp [window]
  · have hm : min n (limit-pos).toNat = n := by omega
    have hw := window_length_of_le hc
    simp only [hf,Disk.next_healthy hd,Bool.false_eq_true,if_false,Int.toNat_natCast,hm,hw,if_true]
    rw [if_neg hn,if_neg (by omega),if_neg (by omega)]

/-- A read past the end of the section reports its end. -/
theorem SectionReader.readFull_short (hd : d.Healthy) (hf : f.closed = false) (pos n : ℕ)
    (limit : ℤ) (hn : 0 < n) (hl : limit < pos+n) :
    ∃ e r, SectionReader.readFull ⟨f,pos,limit⟩ n d = (.error e,r,d) ∧
      (e = .eof ∨ e = .unexpectedEOF) := by
  have hs : (window (d.content f.path) pos (min n (limit-pos).toNat)).length ≠ n := by
    rw [window_length]
    omega
  unfold SectionReader.readFull
  simp only [hf,Disk.next_healthy hd,Bool.false_eq_true,if_false,Int.toNat_natCast,if_neg hs]
  rw [if_neg (by omega)]
  split
  · exact ⟨_,_,rfl,.inl rfl⟩
  · rw [if_neg (by omega)]
    split
    · exact ⟨_,_,rfl,.inl rfl⟩
    · exact ⟨_,_,rfl,.inr rfl⟩

end Healthy

section Unfailing
variable {d e : Disk} {f : File}

theorem openFile_unfailing {p : Path} {r : Except Err File} (h : openFile p d = (r,e)) :
    (∃ x, r = .ok x) ∧ e.Unfailing ↔ d.Unfailing := by
  unfold openFile at h
  rcases hn : d.next with ⟨_|k,d₁⟩ <;> simp only [hn] at h <;> cases h <;>
    simp [← Disk.next_unfailing hn]

theorem File.stat_unfailing {r : Except Err ℕ} (hf : f.closed = false) (h : f.stat d = (r,e)) :
    (∃ x, r = .ok x) ∧ e.Unfailing ↔ d.Unfailing := by
  unfold File.stat at h
  rcases hn : d.next with ⟨_|k,d₁⟩ <;> simp only [hf,hn] at h <;> cases h <;>
    simp [← Disk.next_unfailing hn]

theorem File.write_unfailing {b : Bytes} {n : ℕ} {r : Option Err} (hf : f.closed = false)
    (h : f.write b d = (n,r,e)) : r = none ∧ e.Unfailing ↔ d.Unfailing := by
  unfold File.write at h
  rcases hn : d.next with ⟨_|k,d₁⟩ <;> simp only [hf,hn] at h <;> cases h <;>
    simp [← Disk.next_unfailing hn]

theorem File.control_unfailing {r : Option Err} (hf : f.closed = false)
    (h : f.control d = (r,e)) : r = none ∧ e.Unfailing ↔ d.Unfailing := by
  unfold File.control at h
  rcases hn : d.next with ⟨_|k,d₁⟩ <;> simp only [hf,hn] at h <;> cases h <;>
    simp [← Disk.next_unfailing hn]

theorem File.close_unfailing {r : Option Err} {g : File} (hf : f.closed = false)
    (h : f.close d = (r,g,e)) : r = none ∧ e.Unfailing ↔ d.Unfailing := by
  unfold File.close at h
  rcases hn : d.next with ⟨_|k,d₁⟩ <;> simp only [hf,hn] at h <;> cases h <;>
    simp [← Disk.next_unfailing hn]

end Unfailing

end Kage.FaultyDisk
