import Kage.PartitionFaults

/-!
# The cleaner and the active segment

The cleaner of a partition reads the base of the active segment under the lock
and then works without it: it takes the clock, lists the directory, and looks
at each log file in turn, removing it and its index when the file was modified
too long ago. Appends run in between and may move on to another segment. An
append holds the lock, so it is one step. Every file has a modification time,
set whenever its contents change or it is created, and the clock only advances.

The base that was read says nothing about the segment that is active later. It
stays safe as long as no append moves on to a segment whose log the cleaner is
going to remove, and no segment that became active before the clock was read
has been left unmodified for the whole retention time.
-/
namespace Kage.SegmentCleaner
open ByteStrings DecimalText FaultyDisk SparseIndex SegmentLog PartitionLog SegmentFaults
open PartitionFaults

def ErrNotExist : Err := .sentinel "file does not exist"

def removeFile (p : Path) (d : Disk) : Option Err × Disk :=
  match d.next with
  | (some _,d) => (some .device,d)
  | (none,d) => if p ∈ d.files then (none,d.remove p) else (some ErrNotExist,d)

def logName (b : ℕ) : Bytes := zeroPadded 20 b++ascii ".log"

/-- The name of the index beside a log. -/
def indexName (name : Bytes) : Bytes := name.take (name.length-4)++ascii ".index"

/-- Where the cleaner is: what it read so far, and the names still to be looked at. -/
inductive Phase where
  | idle
  | timing (base : ℕ)
  | listing (base : ℕ) (cutoff : ℤ)
  | scanning (base : ℕ) (cutoff : ℤ) (names : List Bytes)
  | removingLog (base : ℕ) (cutoff : ℤ) (name : Bytes) (names : List Bytes)
  | removingIndex (base : ℕ) (cutoff : ℤ) (name : Bytes) (names : List Bytes)
  | done (r : Except Err ℕ)
  deriving DecidableEq, Repr

structure State where
  store : PartitionStore
  disk : Disk
  modified : Path → ℤ
  clock : ℤ
  phase : Phase
  deleted : ℕ

inductive Event where
  | append (data : Bytes)
  | faults (schedule : List (Option ℕ))
  | tick (n : ℕ)
  | clean
  deriving DecidableEq, Repr

/-- Files that changed were modified now. -/
def stamp (modified : Path → ℤ) (now : ℤ) (d e : Disk) : Path → ℤ :=
  fun q => if e.files.lookup q = d.files.lookup q then modified q else now

/-- The modification time of a file, if it is there. -/
def stat (σ : State) (p : Path) : Except Err ℤ × Disk :=
  match σ.disk.next with
  | (some _,d) => (.error .device,d)
  | (none,d) => (if p ∈ d.files then .ok (σ.modified p) else .error ErrNotExist,d)

/-- The names in the directory of the partition, which exists while it is open. -/
def list (σ : State) : Except Err (List Bytes) × Disk :=
  match σ.disk.next with
  | (some _,d) => (.error .device,d)
  | (none,d) => (.ok (d.fileNames σ.store.dir),d)

/-- The next step of the cleaner. A file that is already gone counts as removed. -/
def clean (retention : ℤ) (σ : State) : State :=
  match σ.phase with
  | .idle => {σ with phase := .timing σ.store.active.baseOffset}
  | .timing b => {σ with phase := .listing b (σ.clock-retention)}
  | .listing b c =>
      match list σ with
      | (.error e,d) =>
          {σ with disk := d, phase := .done (.error (.wrap "storage: cleaner read dir %q" e))}
      | (.ok names,d) => {σ with disk := d, phase := .scanning b c names}
  | .scanning _ _ [] => {σ with phase := .done (.ok σ.deleted)}
  | .scanning b c (name::names) =>
      if ¬(ascii ".log").isSuffixOf name ∨ name = logName b then
        {σ with phase := .scanning b c names}
      else
        match stat σ ⟨σ.store.dir,name⟩ with
        | (.error _,d) => {σ with disk := d, phase := .scanning b c names}
        | (.ok m,d) =>
            if c < m then {σ with disk := d, phase := .scanning b c names}
            else {σ with disk := d, phase := .removingLog b c name names}
  | .removingLog b c name names =>
      match removeFile ⟨σ.store.dir,name⟩ σ.disk with
      | (r,d) =>
          if r = none ∨ r = some ErrNotExist then
            {σ with disk := d, phase := .removingIndex b c name names}
          else {σ with disk := d, phase := .scanning b c names}
  | .removingIndex b c name names =>
      match removeFile ⟨σ.store.dir,indexName name⟩ σ.disk with
      | (r,d) =>
          if r = none ∨ r = some ErrNotExist then
            {σ with disk := d, phase := .scanning b c names, deleted := σ.deleted+1}
          else {σ with disk := d, phase := .scanning b c names}
  | .done _ => σ

def step (retention : ℤ) (σ : State) : Event → State
  | .append data =>
      match σ.store.append data σ.disk with
      | (_,ps,d) =>
          {σ with store := ps, disk := d, modified := stamp σ.modified σ.clock σ.disk d}
  | .faults schedule => {σ with disk := {σ.disk with faults := schedule}}
  | .tick n => {σ with clock := σ.clock+n}
  | .clean => clean retention σ

def run (retention : ℤ) (σ : State) (events : List Event) : State :=
  events.foldl (step retention) σ

/-- A partition in use, and a cleaner about to start. -/
def start (ps : PartitionStore) (d : Disk) (modified : Path → ℤ) (clock : ℤ) : State :=
  ⟨ps,d,modified,clock,.idle,0⟩

/-- A condition on every step of a run. -/
def EachStep (retention : ℤ) (P : State → Event → Prop) : State → List Event → Prop
  | _,[] => True
  | σ,e::es => P σ e ∧ EachStep retention P (step retention σ e) es

/-- No file that this step of the cleaner removes is one of the active segment. -/
def SparesActive (retention : ℤ) (σ : State) (e : Event) : Prop :=
  e = .clean → ∀ p ∈ σ.disk.files, p ∉ (step retention σ e).disk.files →
    p ≠ σ.store.active.file.path ∧ p ≠ σ.store.active.idx.file.path

/-- The cleaner, as it stands, will not remove a log of this name that was last
modified at `m`. -/
def Phase.Spares : Phase → Bytes → ℤ → Prop
  | .idle,_,_ => True
  | .timing _,_,_ => True
  | .listing b c,name,m => name = logName b ∨ c < m
  | .scanning b c names,name,m => name = logName b ∨ c < m ∨ name ∉ names
  | .removingLog b c current names,name,m =>
      name ≠ current ∧ (name = logName b ∨ c < m ∨ name ∉ names)
  | .removingIndex b c current names,name,m =>
      name ≠ current ∧ (name = logName b ∨ c < m ∨ name ∉ names)
  | .done _,_,_ => True

/-- When the log with this base was modified; one that is created now, now. -/
def age (σ : State) (b : ℕ) : ℤ :=
  if logPath σ.store.dir b ∈ σ.disk.files then σ.modified (logPath σ.store.dir b) else σ.clock

/-- An append moves on only to a segment that the cleaner spares, and when the
clock is read the active segment is still the one that was read before, or was
modified within the retention time. -/
def Meets (retention : ℤ) (σ : State) : Event → Prop
  | .append data =>
      let b := (σ.store.append data σ.disk).2.1.active.baseOffset
      b ≠ σ.store.active.baseOffset → σ.phase.Spares (logName b) (age σ b)
  | .clean =>
      match σ.phase with
      | .timing b => σ.store.active.baseOffset = b ∨
          σ.clock-retention < σ.modified σ.store.active.file.path
      | _ => True
  | _ => True

/-- The time before which files are removed has passed, and only logs are
taken for removal. -/
def Phase.Early : Phase → ℤ → Prop
  | .listing _ c,now => c < now
  | .scanning _ c _,now => c < now
  | .removingLog _ c name _,now => c < now ∧ ascii ".log" <:+ name
  | .removingIndex _ c name _,now => c < now ∧ ascii ".log" <:+ name
  | _,_ => True

structure Inv (dir : List Bytes) (σ : State) : Prop where
  stable : Stable dir σ.store σ.disk
  early : σ.phase.Early σ.clock
  spared : σ.phase.Spares (logName σ.store.active.baseOffset)
    (σ.modified σ.store.active.file.path)

section Phases
variable {p : Phase} {name : Bytes} {m now : ℤ}

/-- A file that is modified now is as safe as it was. -/
theorem Phase.Spares.touched (h : p.Spares name m) (he : p.Early now) : p.Spares name now := by
  cases p with
  | idle => trivial
  | timing b => trivial
  | listing b c => exact .inr he
  | scanning b c names => exact .inr (.inl he)
  | removingLog b c current names => exact ⟨h.1,.inr (.inl he.1)⟩
  | removingIndex b c current names => exact ⟨h.1,.inr (.inl he.1)⟩
  | done r => trivial

theorem Phase.Early.later {n : ℕ} (h : p.Early now) : p.Early (now+n) := by
  cases p with
  | idle => trivial
  | timing b => trivial
  | listing b c => exact lt_of_lt_of_le h (by omega)
  | scanning b c names => exact lt_of_lt_of_le h (by omega)
  | removingLog b c current names => exact ⟨lt_of_lt_of_le h.1 (by omega),h.2⟩
  | removingIndex b c current names => exact ⟨lt_of_lt_of_le h.1 (by omega),h.2⟩
  | done r => trivial

theorem logPath_eq (dir : List Bytes) (b : ℕ) : logPath dir b = ⟨dir,logName b⟩ := rfl

end Phases

section Steps
variable {dir : List Bytes} {σ : State} {retention : ℤ}

/-- A log changes its age only by being modified now. -/
theorem stamp_age (h : Inv dir σ) {b : ℕ} {d : Disk} (hm : logPath dir b ∈ d.files) :
    stamp σ.modified σ.clock σ.disk d (logPath dir b) = age σ b ∨
      stamp σ.modified σ.clock σ.disk d (logPath dir b) = σ.clock := by
  unfold stamp age
  rw [h.stable.root]
  split
  · rename_i heq
    have hmem : logPath dir b ∈ σ.disk.files := by
      rw [← Finmap.lookup_isSome,← heq]
      exact Finmap.lookup_isSome.mpr hm
    rw [if_pos hmem]
    exact .inl rfl
  · exact .inr rfl

theorem Inv.append (h : Inv dir σ) {data : Bytes} (hm : Meets retention σ (.append data)) :
    Inv dir (step retention σ (.append data)) := by
  have hst := h.stable.append data
  simp only [Meets] at hm
  simp only [step]
  rcases ha : σ.store.append data σ.disk with ⟨r,ps,d⟩
  rw [ha] at hst hm
  have hmem := hst.sound.1.mem
  rw [hst.path] at hmem
  have hsp : σ.phase.Spares (logName ps.active.baseOffset) (age σ ps.active.baseOffset) := by
    by_cases hb : ps.active.baseOffset = σ.store.active.baseOffset
    · have hact := h.stable.sound.1.mem
      rw [h.stable.path] at hact
      have hsp := h.spared
      rw [h.stable.path] at hsp
      rw [hb,age,h.stable.root,if_pos hact]
      exact hsp
    · exact hm hb
  refine ⟨hst,h.early,?_⟩
  simp only
  rw [hst.path]
  rcases stamp_age h hmem with heq|heq
  · rw [heq]
    exact hsp
  · rw [heq]
    exact hsp.touched h.early

theorem stable_next {ps : PartitionStore} {d e : Disk} {o : Option ℕ} (h : Stable dir ps d)
    (hn : d.next = (o,e)) : Stable dir ps e := by
  obtain rfl : d.next.2 = e := by rw [hn]
  exact h.reschedule _

theorem list_stable (h : Inv dir σ) : Stable dir σ.store (list σ).2 := by
  unfold list
  split <;> rename_i hn <;> exact stable_next h.stable hn

theorem stat_stable (h : Inv dir σ) (p : Path) : Stable dir σ.store (stat σ p).2 := by
  unfold stat
  split <;> rename_i hn <;> exact stable_next h.stable hn

theorem stat_ok {p : Path} {m : ℤ} {d : Disk} (h : stat σ p = (.ok m,d)) : m = σ.modified p := by
  unfold stat at h
  split at h
  · cases h
  · simp only [Prod.mk.injEq] at h
    split at h
    · exact (Except.ok.inj h.1).symm
    · cases h.1

theorem removeFile_stable (h : Inv dir σ) {p : Path} (hp : p ≠ σ.store.active.file.path) :
    Stable dir σ.store (removeFile p σ.disk).2 := by
  unfold removeFile
  split
  · rename_i hn
    exact stable_next h.stable hn
  · rename_i hn
    have hst := stable_next h.stable hn
    split
    · rw [hst.path] at hp
      exact hst.clean hp
    · exact hst

/-- The log that the cleaner is about to remove is not the active one. -/
theorem ne_active_of_name (h : Inv dir σ) {name : Bytes}
    (hne : logName σ.store.active.baseOffset ≠ name) :
    σ.store.active.file.path ≠ ⟨σ.store.dir,name⟩ := by
  rw [h.stable.path,logPath_eq]
  intro heq
  exact hne (congrArg Path.name heq)

theorem suffix_ne {a b : Bytes} : a++ascii ".log" ≠ b++ascii ".index" := by
  intro h
  have hl := congrArg List.getLast? h
  simp [ascii] at hl

theorem indexName_eq {name stem : Bytes} (h : stem++ascii ".log" = name) :
    indexName name = stem++ascii ".index" := by
  rw [← h,indexName,List.length_append,show (ascii ".log").length = 4 from rfl,Nat.add_sub_cancel,
    List.take_left]

/-- Nor is the index that goes with it. -/
theorem index_ne_active (h : Inv dir σ) {name : Bytes} (hl : ascii ".log" <:+ name)
    (hne : logName σ.store.active.baseOffset ≠ name) :
    σ.store.active.file.path ≠ ⟨σ.store.dir,indexName name⟩ ∧
      σ.store.active.idx.file.path ≠ ⟨σ.store.dir,indexName name⟩ := by
  obtain ⟨stem,hstem⟩ := hl
  rw [indexName_eq hstem,h.stable.path,h.stable.idxPath]
  constructor
  · intro heq
    exact suffix_ne (congrArg Path.name heq)
  · intro heq
    have hn : zeroPadded 20 σ.store.active.baseOffset++ascii ".index" = stem++ascii ".index" :=
      congrArg Path.name heq
    rw [List.append_cancel_right_eq] at hn
    exact hne (by rw [← hstem,← hn]; rfl)

theorem log_ne_index (h : Inv dir σ) {name : Bytes} (hl : ascii ".log" <:+ name) :
    σ.store.active.idx.file.path ≠ ⟨σ.store.dir,name⟩ := by
  obtain ⟨stem,rfl⟩ := hl
  rw [h.stable.idxPath]
  intro heq
  exact suffix_ne (congrArg Path.name heq).symm

/-- What the cleaner keeps when it looks at the next name. -/
theorem Inv.scan (h : Inv dir σ) {b : ℕ} {c : ℤ} {name : Bytes} {names : List Bytes}
    (hp : σ.phase = .scanning b c (name::names)) : Inv dir (clean retention σ) := by
  have he := h.early
  have hs := h.spared
  rw [hp] at he hs
  have hrest : (Phase.scanning b c names).Spares (logName σ.store.active.baseOffset)
      (σ.modified σ.store.active.file.path) := by
    apply hs.imp_right
    apply Or.imp_right
    exact fun hn hx => hn (List.mem_cons_of_mem _ hx)
  have hst := stat_stable h ⟨σ.store.dir,name⟩
  simp only [clean,hp]
  split
  · exact ⟨h.stable,he,hrest⟩
  · rename_i hskip
    rw [not_or,not_not] at hskip
    rcases hstat : stat σ ⟨σ.store.dir,name⟩ with ⟨r,d⟩
    rw [hstat] at hst
    cases r with
    | error x => exact ⟨hst,he,hrest⟩
    | ok m =>
        simp only
        split
        · exact ⟨hst,he,hrest⟩
        · rename_i hold
          refine ⟨hst,⟨he,List.isSuffixOf_iff_suffix.mp hskip.1⟩,?_,hrest⟩
          -- an expired log of another name than the one that was read
          intro hname
          obtain rfl : logName σ.store.active.baseOffset = name := hname
          rw [stat_ok hstat,← logPath_eq,h.stable.root,← h.stable.path] at hold
          rcases hs with hs|hs|hs
          · exact hskip.2 hs
          · exact hold hs
          · exact hs (List.mem_cons_self ..)

theorem Inv.clean (h : Inv dir σ) (hpos : 0 < retention) (hm : Meets retention σ .clean) :
    Inv dir (clean retention σ) := by
  have he := h.early
  have hs := h.spared
  cases hp : σ.phase with
  | idle =>
      simp only [SegmentCleaner.clean,hp]
      exact ⟨h.stable,trivial,trivial⟩
  | timing b =>
      simp only [Meets,hp] at hm
      simp only [SegmentCleaner.clean,hp]
      refine ⟨h.stable,show σ.clock-retention < σ.clock by omega,?_⟩
      exact hm.imp_left fun hb => by rw [hb]
  | listing b c =>
      have hst := list_stable h
      rw [hp] at he hs
      simp only [SegmentCleaner.clean,hp]
      rcases hl : list σ with ⟨r,d⟩
      rw [hl] at hst
      cases r with
      | error x => exact ⟨hst,trivial,trivial⟩
      | ok names => exact ⟨hst,he,hs.imp_right .inl⟩
  | scanning b c names =>
      cases names with
      | nil =>
          simp only [SegmentCleaner.clean,hp]
          exact ⟨h.stable,trivial,trivial⟩
      | cons name names => exact h.scan hp
  | removingLog b c name names =>
      rw [hp] at he hs
      have hst := removeFile_stable h (ne_active_of_name h hs.1).symm
      simp only [SegmentCleaner.clean,hp]
      rcases hr : removeFile ⟨σ.store.dir,name⟩ σ.disk with ⟨r,d⟩
      rw [hr] at hst
      simp only
      split
      · exact ⟨hst,he,hs⟩
      · exact ⟨hst,he.1,hs.2⟩
  | removingIndex b c name names =>
      rw [hp] at he hs
      have hst := removeFile_stable h (index_ne_active h he.2 hs.1).1.symm
      simp only [SegmentCleaner.clean,hp]
      rcases hr : removeFile ⟨σ.store.dir,indexName name⟩ σ.disk with ⟨r,d⟩
      rw [hr] at hst
      simp only
      split
      · exact ⟨hst,he.1,hs.2⟩
      · exact ⟨hst,he.1,hs.2⟩
  | done r =>
      simp only [SegmentCleaner.clean,hp]
      exact h

theorem Inv.step (h : Inv dir σ) (hpos : 0 < retention) {e : Event} (hm : Meets retention σ e) :
    Inv dir (step retention σ e) := by
  cases e with
  | append data => exact h.append hm
  | faults fs => exact ⟨h.stable.reschedule fs,h.early,h.spared⟩
  | tick n => exact ⟨h.stable,h.early.later,h.spared⟩
  | clean => exact h.clean hpos hm

theorem list_files (σ : State) : (list σ).2.files = σ.disk.files := by
  unfold list
  split <;> rename_i hn <;> exact (Disk.Idle.next hn).files

theorem stat_files (σ : State) (p : Path) : (stat σ p).2.files = σ.disk.files := by
  unfold stat
  split <;> rename_i hn <;> exact (Disk.Idle.next hn).files

theorem removeFile_only {p q : Path} {d : Disk} (hq : q ∈ d.files)
    (hn : q ∉ (removeFile p d).2.files) : q = p := by
  by_contra hne
  apply hn
  unfold removeFile
  split
  · rename_i hx
    rw [(Disk.Idle.next hx).files]
    exact hq
  · rename_i hx
    split
    · rw [Disk.mem_remove_ne hne,(Disk.Idle.next hx).files]
      exact hq
    · rw [(Disk.Idle.next hx).files]
      exact hq

/-- Only the two removing steps make a file disappear. -/
theorem clean_removes {q : Path} (hq : q ∈ σ.disk.files)
    (hn : q ∉ (clean retention σ).disk.files) :
    (∃ b c name names, σ.phase = .removingLog b c name names ∧ q = ⟨σ.store.dir,name⟩) ∨
      ∃ b c name names, σ.phase = .removingIndex b c name names ∧
        q = ⟨σ.store.dir,indexName name⟩ := by
  cases hp : σ.phase with
  | idle => exact absurd hq (by simpa [clean,hp] using hn)
  | timing b => exact absurd hq (by simpa [clean,hp] using hn)
  | done r => exact absurd hq (by simpa [clean,hp] using hn)
  | listing b c =>
      have hf := list_files σ
      simp only [clean,hp] at hn
      rcases hl : list σ with ⟨r,d⟩
      rw [hl] at hf hn
      rw [← show d.files = _ from hf] at hq
      cases r <;> exact absurd hq hn
  | scanning b c names =>
      cases names with
      | nil => exact absurd hq (by simpa [clean,hp] using hn)
      | cons name names =>
          have hf := stat_files σ ⟨σ.store.dir,name⟩
          simp only [clean,hp] at hn
          split at hn
          · exact absurd hq hn
          · rcases hl : stat σ ⟨σ.store.dir,name⟩ with ⟨r,d⟩
            rw [hl] at hf hn
            rw [← show d.files = _ from hf] at hq
            cases r with
            | error x => exact absurd hq hn
            | ok m =>
                simp only at hn
                split at hn <;> exact absurd hq hn
  | removingLog b c name names =>
      simp only [clean,hp] at hn
      left
      refine ⟨b,c,name,names,rfl,removeFile_only hq ?_⟩
      rcases hr : removeFile ⟨σ.store.dir,name⟩ σ.disk with ⟨r,d⟩
      rw [hr] at hn
      simp only at hn
      split at hn <;> exact hn
  | removingIndex b c name names =>
      simp only [clean,hp] at hn
      right
      refine ⟨b,c,name,names,rfl,removeFile_only hq ?_⟩
      rcases hr : removeFile ⟨σ.store.dir,indexName name⟩ σ.disk with ⟨r,d⟩
      rw [hr] at hn
      simp only at hn
      split at hn <;> exact hn

theorem Inv.sparesActive (h : Inv dir σ) (e : Event) : SparesActive retention σ e := by
  rintro rfl p hp hn
  have he := h.early
  have hs := h.spared
  rcases clean_removes hp hn with ⟨b,c,name,names,hph,rfl⟩|⟨b,c,name,names,hph,rfl⟩
  · rw [hph] at he hs
    exact ⟨(ne_active_of_name h hs.1).symm,(log_ne_index h he.2).symm⟩
  · rw [hph] at he hs
    have hne := index_ne_active h he.2 hs.1
    exact ⟨hne.1.symm,hne.2.symm⟩

theorem Inv.run (h : Inv dir σ) (hpos : 0 < retention) {events : List Event}
    (hm : EachStep retention (Meets retention) σ events) :
    EachStep retention (SparesActive retention) σ events := by
  induction events generalizing σ with
  | nil => trivial
  | cons e events ih => exact ⟨h.sparesActive e,ih (h.step hpos hm.1) hm.2⟩

end Steps

/-- In every run of a cleaner and appends that meets the condition, the cleaner
never removes a file of the segment that is active at that moment. -/
theorem cleaner_spares_active {dir : List Bytes} {ps : PartitionStore} {d : Disk}
    (hr : Reachable dir ps d) (modified : Path → ℤ) (clock : ℤ) {retention : ℤ}
    (hpos : 0 < retention) {events : List Event}
    (hm : EachStep retention (Meets retention) (start ps d modified clock) events) :
    EachStep retention (SparesActive retention) (start ps d modified clock) events :=
  Inv.run (σ := start ps d modified clock) ⟨hr.stable,trivial,trivial⟩ hpos hm

/-- Two segments are filled under a limit of twenty, and the partition is
closed and opened again at its first segment. -/
def sessions : List Op :=
  [.openStore ⟨20⟩,.append (List.replicate 16 7),.append (List.replicate 4 8),.close,
    .openStore ⟨20⟩]

theorem reopens : (PartitionFaults.run [] ⟨none,.blank⟩ sessions).store.isSome = true := by
  decide +kernel

def reopened : PartitionStore :=
  (PartitionFaults.run [] ⟨none,.blank⟩ sessions).store.get reopens

def left : Disk := (PartitionFaults.run [] ⟨none,.blank⟩ sessions).disk

theorem reachable_reopened : Reachable [] reopened left := by
  refine ⟨.blank,sessions,PartitionRuns.vacant_blank [],?_⟩
  rw [reopened,Option.some_get]
  rfl

/-- With nothing appended meanwhile, the second segment is removed. -/
theorem cleaner_spares_first :
    EachStep 10 (SparesActive 10) (start reopened left (fun _ => 0) 100) (.replicate 9 .clean) :=
  cleaner_spares_active reachable_reopened _ _ (by decide)
    ⟨trivial,.inl rfl,trivial,trivial,trivial,trivial,trivial,trivial,trivial,trivial⟩

/-- The cleaner has read the base, the clock and the directory, and comes to the
last log when an append has just made it the active one. -/
def overtaken : State :=
  run 10 (start reopened left (fun _ => 0) 100)
    [.clean,.clean,.clean,.append (List.replicate 8 9),.clean,.clean,.clean,.clean]

theorem cleaner_removes_active :
    ¬EachStep 10 (SparesActive 10) (start reopened left (fun _ => 0) 100)
      [.clean,.clean,.clean,.append (List.replicate 8 9),.clean,.clean,.clean,.clean,.clean] ∧
    overtaken.store.active.file.path = logPath [] 20 ∧ logPath [] 20 ∈ overtaken.disk.files ∧
    logPath [] 20 ∉ (step 10 overtaken .clean).disk.files := by
  have hp : overtaken.store.active.file.path = logPath [] 20 := by decide +kernel
  have hin : logPath [] 20 ∈ overtaken.disk.files := by decide +kernel
  have hout : logPath [] 20 ∉ (step 10 overtaken .clean).disk.files := by decide +kernel
  refine ⟨fun h => ?_,hp,hin,hout⟩
  have hs : SparesActive 10 overtaken .clean := h.2.2.2.2.2.2.2.2.1
  exact (hs rfl _ hin hout).1 hp.symm

end Kage.SegmentCleaner
