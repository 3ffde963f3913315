import Kage.SegmentFaults
import Kage.PartitionRestart

/-!
# Partitions under arbitrary failures

A store is used under any failures of the calls below it, closed, used on, and
opened again with any configuration, and files other than the active log may be
removed. Whatever failed before, the active segment is sound: until it is stuck
its cursor counts the bytes in the file and the buffer. While its file is open
it is also the segment that the store means to be active.

A rollover ends in one of three ways, and each step of a run is covered by what
closing, opening and writing do to a sound segment.
-/
namespace Kage.PartitionFaults
open ByteStrings LengthPrefixed FaultyDisk BufferedWriter SparseIndex SegmentLog PartitionLog
open SegmentFaults PartitionRestart PartitionRuns

inductive Op where
  | openStore (cfg : SegmentConfig)
  | append (data : Bytes)
  | read (fetchOffset : UInt64) (maxBytes : Int32)
  | flush
  | close
  | clean (p : Path)
  | faults (schedule : List (Option ℕ))
  deriving DecidableEq, Repr

/-- A store that was closed stays in use until another one is opened. Cleaning
removes any file but the active log. -/
def step (dir : List Bytes) (σ : State) : Op → State
  | .openStore cfg =>
      match openPartitionStore dir cfg σ.disk with
      | (.error _,d) => ⟨none,d⟩
      | (.ok ps,d) => ⟨some ps,d⟩
  | .faults schedule => ⟨σ.store,{σ.disk with faults := schedule}⟩
  | .append data =>
      match σ.store with
      | none => σ
      | some ps => ⟨some (ps.append data σ.disk).2.1,(ps.append data σ.disk).2.2⟩
  | .read o n =>
      match σ.store with
      | none => σ
      | some ps => ⟨some (ps.read o n σ.disk).2.1,(ps.read o n σ.disk).2.2⟩
  | .flush =>
      match σ.store with
      | none => σ
      | some ps => ⟨some (ps.flush σ.disk).2.1,(ps.flush σ.disk).2.2⟩
  | .close =>
      match σ.store with
      | none => σ
      | some ps => ⟨some (ps.close σ.disk).2.1,(ps.close σ.disk).2.2⟩
  | .clean p =>
      match σ.store with
      | none => σ
      | some ps =>
          if p = logPath dir ps.active.baseOffset then σ else ⟨some ps,σ.disk.remove p⟩

def run (dir : List Bytes) (σ : State) (ops : List Op) : State := ops.foldl (step dir) σ

/-- Some run from an empty directory, on a disk that may fail, gets here. -/
def Reachable (dir : List Bytes) (ps : PartitionStore) (d : Disk) : Prop :=
  ∃ d₀ ops, Vacant dir d₀ ∧ run dir ⟨none,d₀⟩ ops = ⟨some ps,d⟩

/-- Every log file is short enough for the source to report its size. -/
def Small (dir : List Bytes) (d : Disk) : Prop :=
  ∀ b, (d.content (logPath dir b)).length < 2^63

/-- The active segment is sound, and while its file is open it is the one the
store means. -/
structure Stable (dir : List Bytes) (ps : PartitionStore) (d : Disk) : Prop where
  root : ps.dir = dir
  path : ps.active.file.path = logPath dir ps.active.baseOffset
  idxPath : ps.active.idx.file.path = indexPath dir ps.active.baseOffset
  sound : Sound ps.active d
  next : ps.active.file.closed = false → ps.active.baseOffset = ps.nextBase
  small : Small dir d

section Invariant
variable {dir : List Bytes} {ps qs : PartitionStore} {d e : Disk}

/-- A step on the active segment touches no other log. -/
theorem Stable.content_ne (h : Stable dir ps d) (hl : ps.active.Leaves d e) {b : ℕ}
    (hb : b ≠ ps.active.baseOffset) :
    e.content (logPath dir b) = d.content (logPath dir b) :=
  congrArg (·.getD []) (segments_of_leaves hl h.path h.idxPath hb)

theorem Stable.small_of (h : Stable dir ps d) {t : Segment} (hl : ps.active.Leaves d e)
    (ht : Sound t e) (hp : t.file.path = ps.active.file.path) : Small dir e := by
  intro b
  by_cases hb : b = ps.active.baseOffset
  · have hs := ht.1.small
    rw [hp,h.path] at hs
    rw [hb]
    exact hs
  · rw [h.content_ne hl hb]
    exact h.small b

/-- Steps that keep the handles keep the store stable. -/
theorem Stable.of_handles (h : Stable dir ps d) {t : Segment} (ht : Sound t e)
    (hh : ps.active.SameHandles t) (hl : ps.active.Leaves d e) :
    Stable dir {ps with active := t} e where
  root := h.root
  path := by simpa [hh.1,hh.2.2.1] using h.path
  idxPath := by simpa [hh.2.1,hh.2.2.1] using h.idxPath
  sound := ht
  next := by simpa [hh.1,hh.2.2.1] using h.next
  small := h.small_of hl ht (by rw [hh.1])

theorem Stable.of_close (h : Stable dir ps d) {t : Segment} {r : Option Err}
    (hc : Closes ps.active d r t e) : Stable dir {ps with active := t} e where
  root := h.root
  path := by simpa [hc.path,hc.base] using h.path
  idxPath := by simpa [hc.idxPath,hc.base] using h.idxPath
  sound := hc.sound
  next := by
    intro ho
    have hopen : ps.active.file.closed = false := by
      cases hx : ps.active.file.closed with
      | false => rfl
      | true => rw [hc.closed hx] at ho; cases ho
    rw [hc.base]
    exact h.next hopen
  small := h.small_of hc.leaves hc.sound hc.path

/-- Opening any segment leaves the active one as it is. -/
theorem Small.of_extends {b : ℕ} (h : Small dir d) (hx : Extends (indexPath dir b) d e) :
    Small dir e := by
  intro c
  rw [(hx _ (logPath_ne_indexPath dir dir c b)).1]
  exact h c

theorem Stable.of_extends (h : Stable dir ps d) {b : ℕ} (hx : Extends (indexPath dir b) d e) :
    Stable dir ps e := by
  have hp := hx ps.active.file.path (by rw [h.path]; exact logPath_ne_indexPath _ _ _ _)
  exact ⟨h.root,h.path,h.idxPath,⟨h.sound.1.of_files (hp.2 h.sound.1.mem) hp.1,h.sound.2⟩,h.next,
    h.small.of_extends hx⟩

theorem stable_of_open {cfg : SegmentConfig} {b : ℕ} {s : Segment} (h : Small dir d)
    (ho : openSegment dir b cfg d = (.ok s,e)) : Stable dir ⟨dir,cfg,s,b⟩ e := by
  obtain ⟨hs,-,-,-,hp,hi,hb⟩ := openSegment_sound (h b) ho
  have hx := openSegment_extends dir b cfg d
  rw [ho] at hx
  exact ⟨rfl,by rw [hp,hb],by rw [hi,hb],hs,fun _ => hb,h.of_extends hx⟩

/-- The three ways a rollover ends. -/
theorem rollover_cases {r : Option Err} (hr : ps.rollover d = (r,qs,e)) :
    ∃ x t d₁, ps.active.close d = (x,t,d₁) ∧
      ((∃ c, x = some c ∧ r = some (.wrap "storage: rollover close" c) ∧
          qs = {ps with active := t} ∧ e = d₁) ∨
        (∃ c, x = none ∧ r = some (.wrap "storage: rollover open" c) ∧
          openSegment ps.dir (ps.nextBase+ps.active.size) ps.cfg d₁ = (.error c,e) ∧
          qs = {ps with active := t, nextBase := ps.nextBase+ps.active.size}) ∨
        ∃ s, x = none ∧ r = none ∧
          openSegment ps.dir (ps.nextBase+ps.active.size) ps.cfg d₁ = (.ok s,e) ∧
          qs = {ps with active := s, nextBase := ps.nextBase+ps.active.size}) := by
  unfold PartitionStore.rollover at hr
  rcases hc : ps.active.close d with ⟨x,t,d₁⟩
  rw [hc] at hr
  refine ⟨x,t,d₁,rfl,?_⟩
  cases x with
  | some c =>
      simp only [Prod.mk.injEq] at hr
      obtain ⟨rfl,rfl,rfl⟩ := hr
      exact .inl ⟨c,rfl,rfl,rfl,rfl⟩
  | none =>
      simp only at hr
      rcases ho : openSegment ps.dir (ps.nextBase+ps.active.size) ps.cfg d₁ with ⟨y,d₂⟩
      rw [ho] at hr
      cases y with
      | error c =>
          simp only [Prod.mk.injEq] at hr
          obtain ⟨rfl,rfl,rfl⟩ := hr
          exact .inr (.inl ⟨c,rfl,rfl,rfl,rfl⟩)
      | ok s =>
          simp only [Prod.mk.injEq] at hr
          obtain ⟨rfl,rfl,rfl⟩ := hr
          exact .inr (.inr ⟨s,rfl,rfl,rfl,rfl⟩)

theorem Stable.rollover (h : Stable dir ps d) {r : Option Err}
    (hr : ps.rollover d = (r,qs,e)) : Stable dir qs e := by
  obtain ⟨x,t,d₁,hc,hcases⟩ := rollover_cases hr
  have hcl := close_sound h.sound hc
  have h₁ := h.of_close hcl
  rcases hcases with ⟨c,-,-,rfl,rfl⟩ | ⟨c,rfl,-,ho,rfl⟩ | ⟨s,-,-,ho,rfl⟩
  · exact h₁
  · have hx := openSegment_extends ps.dir (ps.nextBase+ps.active.size) ps.cfg d₁
    rw [ho,h.root] at hx
    have h₂ := h₁.of_extends hx
    refine ⟨h₂.root,h₂.path,h₂.idxPath,h₂.sound,fun hopen => ?_,h₂.small⟩
    rw [show t.file.closed = true from (hcl.success rfl).2.1] at hopen
    cases hopen
  · rw [h.root] at ho
    have h₂ := stable_of_open h₁.small ho
    exact ⟨h.root,h₂.path,h₂.idxPath,h₂.sound,h₂.next,h₂.small⟩

theorem Stable.append_active (h : Stable dir ps d) {data : Bytes} {r : Except Err UInt64}
    {s : Segment} (ha : ps.active.append data d = (r,s,e)) :
    Stable dir {ps with active := s} e := by
  obtain ⟨hs,hh,hl⟩ := append_sound h.sound ha
  exact h.of_handles hs hh hl

theorem Stable.append (h : Stable dir ps d) (data : Bytes) :
    Stable dir (ps.append data d).2.1 (ps.append data d).2.2 := by
  unfold PartitionStore.append
  rcases ha : ps.active.append data d with ⟨r,s,d₁⟩
  have h₁ := h.append_active ha
  cases r with
  | ok o => exact h₁
  | error x =>
      simp only
      split
      · rcases hr : ({ps with active := s} : PartitionStore).rollover d₁ with ⟨y,qs,d₂⟩
        have h₂ := h₁.rollover hr
        cases y with
        | some y => exact h₂
        | none =>
            simp only
            rcases hb : qs.active.append data d₂ with ⟨r,t,d₃⟩
            have h₃ := h₂.append_active hb
            cases r <;> exact h₃
      · exact h₁

theorem Stable.read (h : Stable dir ps d) (o : UInt64) (n : Int32) :
    Stable dir (ps.read o n d).2.1 (ps.read o n d).2.2 := by
  rw [PartitionStore.read_eq]
  cases readRange ps.Size o n with
  | error x => exact h
  | ok k =>
      rcases hw : ps.active.bw.flush ps.active.file d with ⟨x,bw,d₁⟩
      obtain ⟨hs,ho⟩ := h.sound.1.flush h.sound.2 hw
      have h₁ : Stable dir {ps with active := {ps.active with bw := bw}} d₁ :=
        h.of_handles ⟨hs,h.sound.2⟩ ⟨rfl,rfl,rfl,rfl⟩ (.of_file ho)
      cases x <;> exact h₁

/-- What every state of a run keeps. -/
def Inv (dir : List Bytes) (σ : State) : Prop :=
  Small dir σ.disk ∧ ∀ ps, σ.store = some ps → Stable dir ps σ.disk

theorem Inv.of_stable (h : Stable dir ps d) : Inv dir ⟨some ps,d⟩ :=
  ⟨h.small,fun _ hs => Option.some.inj hs ▸ h⟩

theorem Stable.flush (h : Stable dir ps d) :
    Stable dir (ps.flush d).2.1 (ps.flush d).2.2 := by
  unfold PartitionStore.flush
  rcases hf : ps.active.flush d with ⟨r,t,e⟩
  obtain ⟨hs,hh,hl⟩ := flush_sound h.sound hf
  exact h.of_handles hs hh hl

theorem Stable.close (h : Stable dir ps d) :
    Stable dir (ps.close d).2.1 (ps.close d).2.2 := by
  unfold PartitionStore.close
  rcases hc : ps.active.close d with ⟨r,t,e⟩
  exact h.of_close (close_sound h.sound hc)

theorem Stable.clean (h : Stable dir ps d) {p : Path}
    (hp : p ≠ logPath dir ps.active.baseOffset) : Stable dir ps (d.remove p) := by
  have hne : ps.active.file.path ≠ p := by
    rw [h.path]
    exact hp.symm
  refine ⟨h.root,h.path,h.idxPath,⟨h.sound.1.of_files ((Disk.mem_remove_ne hne).mpr h.sound.1.mem)
    (Disk.content_remove_ne hne),h.sound.2⟩,h.next,fun b => ?_⟩
  by_cases hb : logPath dir b = p
  · rw [hb,Disk.content_remove_self]
    decide
  · rw [Disk.content_remove_ne hb]
    exact h.small b

/-- Only the files matter. -/
theorem Stable.of_files (h : Stable dir ps d) (hf : e.files = d.files) : Stable dir ps e := by
  have hc (q : Path) : e.content q = d.content q := by rw [Disk.content,Disk.content,hf]
  refine ⟨h.root,h.path,h.idxPath,⟨h.sound.1.of_files ?_ (hc _),h.sound.2⟩,h.next,fun b => ?_⟩
  · rw [hf]
    exact h.sound.1.mem
  · rw [hc]
    exact h.small b

/-- Later failures do not change what is stored now. -/
theorem Stable.reschedule (h : Stable dir ps d) (fs : List (Option ℕ)) :
    Stable dir ps {d with faults := fs} := h.of_files rfl

theorem Inv.step {σ : State} (h : Inv dir σ) (op : Op) : Inv dir (step dir σ op) := by
  rcases σ with ⟨store,d⟩
  cases op with
  | openStore cfg =>
      have hx := openSegment_extends dir 0 cfg d
      simp only [PartitionFaults.step,openPartitionStore]
      rcases ho : openSegment dir 0 cfg d with ⟨r,e⟩
      rw [ho] at hx
      cases r with
      | error x => exact ⟨h.1.of_extends hx,fun _ hs => by cases hs⟩
      | ok s => exact .of_stable (stable_of_open h.1 ho)
  | faults fs => exact ⟨h.1,fun ps hs => (h.2 ps hs).reschedule fs⟩
  | append data =>
      cases store with
      | none => exact h
      | some ps => exact .of_stable ((h.2 ps rfl).append data)
  | read o n =>
      cases store with
      | none => exact h
      | some ps => exact .of_stable ((h.2 ps rfl).read o n)
  | flush =>
      cases store with
      | none => exact h
      | some ps => exact .of_stable (h.2 ps rfl).flush
  | close =>
      cases store with
      | none => exact h
      | some ps => exact .of_stable (h.2 ps rfl).close
  | clean p =>
      cases store with
      | none => exact h
      | some ps =>
          simp only [PartitionFaults.step]
          split
          · exact h
          · exact .of_stable ((h.2 ps rfl).clean ‹_›)

theorem Inv.run {σ : State} (h : Inv dir σ) (ops : List Op) : Inv dir (run dir σ ops) := by
  induction ops generalizing σ with
  | nil => exact h
  | cons op ops ih => exact ih (h.step op)

theorem Reachable.stable (h : Reachable dir ps d) : Stable dir ps d := by
  obtain ⟨d₀,ops,hv,hrun⟩ := h
  have h₀ : Inv dir ⟨none,d₀⟩ := by
    refine ⟨fun b => ?_,fun _ hs => by cases hs⟩
    have hs : d₀.files.lookup (logPath dir b) = none := congrFun hv.segments b
    simp [Disk.content,hs]
  have hi := h₀.run ops
  rw [hrun] at hi
  exact hi.2 ps rfl

end Invariant

end Kage.PartitionFaults
