import Kage.SegmentCleaner

/-!
# Whole segments: a cleaner whose removals fail

The cleaner runs alone, and any of its calls may fail. A segment is two files
that are removed by two calls. If the first fails the segment is kept, and if
the second fails it is left without its log, and is not counted.

`Progress` relates the state of the call to the one it started in, together with
the number of index files that could not be removed so far. Each step keeps it.
At the end the files are removed in pairs and the answer is the number of logs
removed exactly if that number is zero.
-/
namespace Kage.CleanerFailures
open ByteStrings FaultyDisk PartitionLog SegmentCleaner

def logAt (σ : State) (name : Bytes) : Path := ⟨σ.store.dir,name⟩

def indexAt (σ : State) (name : Bytes) : Path := ⟨σ.store.dir,indexName name⟩

/-- A log in the directory that is not the active one and was not modified after
the cutoff of a call that starts now. -/
structure Expired (retention : ℤ) (σ : State) (name : Bytes) : Prop where
  log : ascii ".log" <:+ name
  inactive : name ≠ logName σ.store.active.baseOffset
  mem : logAt σ name ∈ σ.disk.files
  old : σ.modified (logAt σ name) ≤ σ.clock-retention

/-- Every file is as it was in `σ`, or was one of an expired segment and is gone. -/
def OnlyExpired (retention : ℤ) (σ : State) (e : Disk) : Prop :=
  ∀ p, e.files.lookup p = σ.disk.files.lookup p ∨ e.files.lookup p = none ∧
    ∃ name, Expired retention σ name ∧ (p = logAt σ name ∨ p = indexAt σ name)

/-- The two files of an expired segment are both gone, or both as before. -/
def InPairs (retention : ℤ) (σ : State) (e : Disk) : Prop :=
  ∀ name, Expired retention σ name →
    (logAt σ name ∉ e.files ∧ indexAt σ name ∉ e.files) ∨
      (logAt σ name ∈ e.files ∧ (indexAt σ name ∈ σ.disk.files → indexAt σ name ∈ e.files))

def removedLogs (d e : Disk) : Finset Path :=
  d.files.keys.filter fun p => ascii ".log" <:+ p.name ∧ p ∉ e.files

/-- The number a call returns, which is zero beside an error. -/
def returned : Except Err ℕ → ℕ
  | .ok n => n
  | .error _ => 0

def Counted (σ : State) (e : Disk) (r : Except Err ℕ) : Prop :=
  returned r = (removedLogs σ.disk e).card

/-- If this step removes an index, then afterwards the index is not there. -/
def IndexGoes (σ : State) (e : Event) : Prop :=
  e = .clean → ∀ b c name names, σ.phase = .removingIndex b c name names →
    (removeFile (indexAt σ name) σ.disk).1 = none ∨
      (removeFile (indexAt σ name) σ.disk).1 = some ErrNotExist

theorem not_log_indexName (name : Bytes) : ¬ascii ".log" <:+ indexName name := by
  rintro ⟨stem,h⟩
  exact suffix_ne h

theorem indexName_injective {a b : Bytes} (ha : ascii ".log" <:+ a) (hb : ascii ".log" <:+ b)
    (h : indexName a = indexName b) : a = b := by
  obtain ⟨s,rfl⟩ := ha
  obtain ⟨t,rfl⟩ := hb
  rw [indexName_eq rfl,indexName_eq rfl,List.append_cancel_right_eq] at h
  rw [h]

theorem erase_of_notMem {p : Path} {d : Disk} (h : p ∉ d.files) : d.files.erase p = d.files := by
  apply Finmap.ext_lookup
  intro q
  by_cases hq : q = p
  · subst q
    rw [Finmap.lookup_erase,Finmap.lookup_eq_none.mpr h]
  · rw [Finmap.lookup_erase_ne hq]

/-- After a removal that does not fail otherwise the file is not there. -/
theorem removeFile_files {p : Path} {d e : Disk} {r : Option Err} (h : removeFile p d = (r,e)) :
    e.files = if r = none ∨ r = some ErrNotExist then d.files.erase p else d.files := by
  unfold removeFile at h
  split at h
  · rename_i hn
    cases h
    rw [if_neg (by decide)]
    exact (Disk.Idle.next hn).files
  · rename_i hn
    split at h
    · cases h
      rw [if_pos (.inl rfl),Disk.remove,(Disk.Idle.next hn).files]
    · rename_i hm
      cases h
      rw [(Disk.Idle.next hn).files] at hm
      rw [if_pos (.inr rfl),erase_of_notMem hm]
      exact (Disk.Idle.next hn).files

/-- The segments whose log was removed and whose index is to follow. -/
def unpaired : Phase → List Bytes
  | .removingIndex _ _ name _ => [name]
  | _ => []

/-- What is known of the next step of a call that started in `σ₀`. -/
def Task (retention : ℤ) (σ₀ σ : State) : Prop :=
  match σ.phase with
  | .idle => σ.deleted = 0
  | .timing b => σ.deleted = 0 ∧ b = σ₀.store.active.baseOffset
  | .listing b c => σ.deleted = 0 ∧ b = σ₀.store.active.baseOffset ∧ c = σ₀.clock-retention
  | .scanning b c _ => b = σ₀.store.active.baseOffset ∧ c = σ₀.clock-retention
  | .removingLog b c name _ => (b = σ₀.store.active.baseOffset ∧ c = σ₀.clock-retention) ∧
      Expired retention σ₀ name ∧ logAt σ₀ name ∈ σ.disk.files
  | .removingIndex b c name _ => (b = σ₀.store.active.baseOffset ∧ c = σ₀.clock-retention) ∧
      Expired retention σ₀ name ∧ logAt σ₀ name ∉ σ.disk.files
  | .done r => returned r = σ.deleted

/-- A call that started in `σ₀`, after `k` failed removals of an index. -/
structure Progress (retention : ℤ) (σ₀ σ : State) (k : ℕ) : Prop where
  store : σ.store = σ₀.store
  modified : σ.modified = σ₀.modified
  clock : σ.clock = σ₀.clock
  task : Task retention σ₀ σ
  files : OnlyExpired retention σ₀ σ.disk
  kept : ∀ name, Expired retention σ₀ name → logAt σ₀ name ∈ σ.disk.files →
    indexAt σ₀ name ∈ σ₀.disk.files → indexAt σ₀ name ∈ σ.disk.files
  gone : k = 0 → ∀ name, Expired retention σ₀ name → logAt σ₀ name ∉ σ.disk.files →
    indexAt σ₀ name ∈ σ.disk.files → name ∈ unpaired σ.phase
  counted : σ.deleted+k+(unpaired σ.phase).length = (removedLogs σ₀.disk σ.disk).card

section Steps
variable {retention : ℤ} {σ₀ σ τ : State} {k : ℕ} {name other : Bytes} {p : Path} {d e : Disk}

theorem removedLogs_self (d : Disk) : removedLogs d d = ∅ := by
  apply Finset.filter_eq_empty_iff.mpr
  exact fun p hp hn => hn.2 (Finmap.mem_keys.mp hp)

theorem progress_start (retention : ℤ) (ps : PartitionStore) (d : Disk) (modified : Path → ℤ)
    (clock : ℤ) :
    Progress retention (start ps d modified clock) (start ps d modified clock) 0 where
  store := rfl
  modified := rfl
  clock := rfl
  task := rfl
  files := fun _ => .inl rfl
  kept := fun _ _ _ hi => hi
  gone := fun _ _ hx hl _ => (hl hx.mem).elim
  counted := by
    rw [removedLogs_self]
    rfl

/-- A step that leaves the files alone. -/
theorem Progress.of_files (h : Progress retention σ₀ σ k) (hs : τ.store = σ.store)
    (hm : τ.modified = σ.modified) (hc : τ.clock = σ.clock) (hd : τ.deleted = σ.deleted)
    (hf : τ.disk.files = σ.disk.files) (hu : unpaired τ.phase = unpaired σ.phase)
    (ht : Task retention σ₀ τ) : Progress retention σ₀ τ k where
  store := hs.trans h.store
  modified := hm.trans h.modified
  clock := hc.trans h.clock
  task := ht
  files := by
    unfold OnlyExpired
    rw [hf]
    exact h.files
  kept := by
    rw [hf]
    exact h.kept
  gone := by
    rw [hf,hu]
    exact h.gone
  counted := by
    rw [hd,hu,removedLogs,hf]
    exact h.counted

/-- A file that is there has been there from the start. -/
theorem OnlyExpired.mem (h : OnlyExpired retention σ₀ e) (hp : p ∈ e.files) :
    p ∈ σ₀.disk.files := by
  rw [← Finmap.lookup_isSome] at hp ⊢
  rcases h p with heq | ⟨hn,-⟩
  · rwa [← heq]
  · rw [hn] at hp
    cases hp

theorem OnlyExpired.erase (h : OnlyExpired retention σ₀ d) (hx : Expired retention σ₀ name)
    (hp : p = logAt σ₀ name ∨ p = indexAt σ₀ name) (he : e.files = d.files.erase p) :
    OnlyExpired retention σ₀ e := by
  intro q
  rw [he]
  by_cases hq : q = p
  · subst q
    exact .inr ⟨Finmap.lookup_erase p _,name,hx,hp⟩
  · rw [Finmap.lookup_erase_ne hq]
    exact h q

theorem log_ne_indexAt (hx : Expired retention σ₀ name) : logAt σ₀ name ≠ indexAt σ₀ other := by
  intro h
  apply not_log_indexName other
  rw [← show name = indexName other from congrArg Path.name h]
  exact hx.log

theorem indexAt_injective (ha : Expired retention σ₀ name) (hb : Expired retention σ₀ other)
    (h : indexAt σ₀ name = indexAt σ₀ other) : name = other :=
  indexName_injective ha.log hb.log (congrArg Path.name h)

theorem removedLogs_log (hp : ascii ".log" <:+ p.name) (h₀ : p ∈ σ₀.disk.files)
    (hd : p ∈ d.files) (he : e.files = d.files.erase p) :
    (removedLogs σ₀.disk e).card = (removedLogs σ₀.disk d).card+1 := by
  have hins : removedLogs σ₀.disk e = insert p (removedLogs σ₀.disk d) := by
    ext q
    simp only [removedLogs,Finset.mem_insert,Finset.mem_filter,Finmap.mem_keys,he,
      Finmap.mem_erase,not_and]
    by_cases hq : q = p
    · subst q
      simp [hp,h₀]
    · simp [hq]
  rw [hins,Finset.card_insert_of_notMem]
  intro hm
  exact (Finset.mem_filter.mp hm).2.2 hd

theorem removedLogs_index (he : e.files = d.files.erase (indexAt σ₀ name)) :
    removedLogs σ₀.disk e = removedLogs σ₀.disk d := by
  ext q
  simp only [removedLogs,Finset.mem_filter,he,Finmap.mem_erase,not_and]
  by_cases hq : q = indexAt σ₀ name
  · subst q
    simp [not_log_indexName,indexAt]
  · simp [hq]

theorem stat_mem {m : ℤ} (h : stat σ p = (.ok m,d)) : p ∈ σ.disk.files := by
  unfold stat at h
  split at h
  · cases h
  · rename_i hn
    simp only [Prod.mk.injEq] at h
    split at h
    · rename_i hm
      rwa [(Disk.Idle.next hn).files] at hm
    · cases h.1

/-- Looking at a name removes nothing. -/
theorem Progress.scan {b : ℕ} {c : ℤ} {names : List Bytes} (h : Progress retention σ₀ σ k)
    (hp : σ.phase = .scanning b c (name::names)) : Progress retention σ₀ (clean retention σ) k := by
  have ht := h.task
  have hu : unpaired σ.phase = [] := by rw [hp]; rfl
  have hf := stat_files σ ⟨σ.store.dir,name⟩
  simp only [Task,hp] at ht
  simp only [clean,hp]
  split
  · exact h.of_files rfl rfl rfl rfl rfl hu.symm ht
  · rename_i hskip
    rw [not_or,not_not] at hskip
    rcases hstat : stat σ ⟨σ.store.dir,name⟩ with ⟨r,d⟩
    rw [hstat] at hf
    cases r with
    | error x => exact h.of_files rfl rfl rfl rfl hf hu.symm ht
    | ok m =>
        simp only
        split
        · exact h.of_files rfl rfl rfl rfl hf hu.symm ht
        · rename_i hold
          have hm := stat_mem hstat
          rw [stat_ok hstat,h.modified] at hold
          rw [h.store] at hm hold
          have hx : Expired retention σ₀ name :=
            ⟨List.isSuffixOf_iff_suffix.mp hskip.1,by rw [← ht.1]; exact hskip.2,h.files.mem hm,
              by rw [← ht.2]; exact not_lt.mp hold⟩
          refine h.of_files rfl rfl rfl rfl hf hu.symm ⟨ht,hx,?_⟩
          rw [show d.files = σ.disk.files from hf]
          exact hm

theorem Progress.removeLog {b : ℕ} {c : ℤ} {names : List Bytes} (h : Progress retention σ₀ σ k)
    (hp : σ.phase = .removingLog b c name names) :
    Progress retention σ₀ (clean retention σ) k := by
  have ht := h.task
  have hgone := h.gone
  have hcount := h.counted
  simp only [Task,hp] at ht
  simp only [hp,unpaired,List.length_nil,Nat.add_zero,List.not_mem_nil] at hgone hcount
  obtain ⟨hbc,hx,hmem⟩ := ht
  simp only [clean,hp]
  rcases hr : removeFile ⟨σ.store.dir,name⟩ σ.disk with ⟨r,d⟩
  have he := removeFile_files hr
  rw [h.store] at he
  simp only
  split
  · rename_i hgoes
    rw [if_pos hgoes] at he
    have hback {q : Path} (hq : q ∈ d.files) : q ∈ σ.disk.files := by
      rw [he,Finmap.mem_erase] at hq
      exact hq.2
    have hlog : logAt σ₀ name ∉ d.files := by
      rw [he,Finmap.mem_erase]
      exact fun hq => hq.1 rfl
    constructor
    · exact h.store
    · exact h.modified
    · exact h.clock
    · exact ⟨hbc,hx,hlog⟩
    · exact h.files.erase hx (.inl rfl) he
    · intro other ho hl hi
      rw [he,Finmap.mem_erase]
      exact ⟨(log_ne_indexAt hx).symm,h.kept other ho (hback hl) hi⟩
    · intro hk other ho hl hi
      by_cases heq : other = name
      · exact List.mem_singleton.mpr heq
      · refine (hgone hk other ho (fun hm => hl ?_) (hback hi)).elim
        rw [he,Finmap.mem_erase]
        exact ⟨fun hq => heq (congrArg Path.name hq),hm⟩
    · rw [removedLogs_log hx.log hx.mem hmem he,← hcount]
      rfl
  · rename_i hstays
    rw [if_neg hstays] at he
    refine h.of_files rfl rfl rfl rfl he ?_ hbc
    rw [hp]
    rfl

theorem Progress.removeIndex {b : ℕ} {c : ℤ} {names : List Bytes}
    (h : Progress retention σ₀ σ k) (hp : σ.phase = .removingIndex b c name names) :
    ∃ j, Progress retention σ₀ (clean retention σ) (k+j) ∧ (j = 0 ↔ IndexGoes σ .clean) := by
  have ht := h.task
  have hgone := h.gone
  have hcount := h.counted
  simp only [Task,hp] at ht
  simp only [hp,unpaired,List.length_singleton,List.mem_singleton] at hgone hcount
  obtain ⟨hbc,hx,hmem⟩ := ht
  rcases hr : removeFile (indexAt σ name) σ.disk with ⟨r,d⟩
  have he := removeFile_files hr
  rw [indexAt,h.store] at he
  have hgoes : IndexGoes σ .clean ↔ r = none ∨ r = some ErrNotExist := by
    constructor
    · intro hi
      have hi := hi rfl b c name names hp
      rwa [hr] at hi
    · intro hi _ b' c' name' names' hp'
      rw [hp] at hp'
      cases hp'
      rwa [hr]
  rw [hgoes]
  simp only [clean,hp]
  rw [show removeFile ⟨σ.store.dir,indexName name⟩ σ.disk = (r,d) from hr]
  simp only
  split
  · rename_i hi
    rw [if_pos hi] at he
    refine ⟨0,?_,fun _ => hi,fun _ => rfl⟩
    have hback {q : Path} (hq : q ∈ d.files) : q ∈ σ.disk.files := by
      rw [he,Finmap.mem_erase] at hq
      exact hq.2
    constructor
    · exact h.store
    · exact h.modified
    · exact h.clock
    · exact hbc
    · exact h.files.erase hx (.inr rfl) he
    · intro other ho hl hi
      rw [he,Finmap.mem_erase]
      refine ⟨fun heq => ?_,h.kept other ho (hback hl) hi⟩
      rw [indexAt_injective ho hx heq] at hl
      exact hmem (hback hl)
    · intro hk other ho hl hi
      have hsame : other = name := by
        refine hgone hk other ho (fun hm => hl ?_) (hback hi)
        rw [he,Finmap.mem_erase]
        exact ⟨log_ne_indexAt ho,hm⟩
      rw [he,Finmap.mem_erase,hsame] at hi
      exact (hi.1 rfl).elim
    · rw [removedLogs_index he,← hcount]
      simp only [unpaired,List.length_nil]
      omega
  · rename_i hi
    rw [if_neg hi] at he
    refine ⟨1,?_,fun h1 => (Nat.one_ne_zero h1).elim,fun hg => (hi hg).elim⟩
    constructor
    · exact h.store
    · exact h.modified
    · exact h.clock
    · exact hbc
    · unfold OnlyExpired
      rw [he]
      exact h.files
    · rw [he]
      exact h.kept
    · exact fun hk => (Nat.succ_ne_zero k hk).elim
    · rw [removedLogs,he]
      exact hcount

/-- A step that does not remove an index. -/
theorem Progress.notIndex (h : Progress retention σ₀ σ k) (hu : unpaired σ.phase = []) :
    Progress retention σ₀ (clean retention σ) k := by
  have ht := h.task
  cases hp : σ.phase with
  | idle =>
      simp only [Task,hp] at ht
      simp only [clean,hp]
      exact h.of_files rfl rfl rfl rfl rfl hu.symm ⟨ht,by rw [h.store]⟩
  | timing b =>
      simp only [Task,hp] at ht
      simp only [clean,hp]
      exact h.of_files rfl rfl rfl rfl rfl hu.symm ⟨ht.1,ht.2,by rw [h.clock]⟩
  | listing b c =>
      have hf := list_files σ
      simp only [Task,hp] at ht
      simp only [clean,hp]
      rcases hl : list σ with ⟨r,d⟩
      rw [hl] at hf
      cases r with
      | error x => exact h.of_files rfl rfl rfl rfl hf hu.symm ht.1.symm
      | ok names => exact h.of_files rfl rfl rfl rfl hf hu.symm ht.2
  | scanning b c names =>
      cases names with
      | nil =>
          simp only [clean,hp]
          exact h.of_files rfl rfl rfl rfl rfl hu.symm rfl
      | cons name names => exact h.scan hp
  | removingLog b c name names => exact h.removeLog hp
  | removingIndex b c name names =>
      rw [hp] at hu
      cases hu
  | done r =>
      simp only [clean,hp]
      exact h

/-- One step of the cleaner, with the number of index files it fails to remove. -/
theorem Progress.clean (h : Progress retention σ₀ σ k) :
    ∃ j, Progress retention σ₀ (clean retention σ) (k+j) ∧ (j = 0 ↔ IndexGoes σ .clean) := by
  by_cases hu : unpaired σ.phase = []
  · refine ⟨0,h.notIndex hu,fun _ _ b c name names hp => ?_,fun _ => rfl⟩
    rw [hp] at hu
    cases hu
  · cases hp : σ.phase with
    | removingIndex b c name names => exact h.removeIndex hp
    | _ =>
        rw [hp] at hu
        exact (hu rfl).elim

theorem Progress.run (h : Progress retention σ₀ σ k) (n : ℕ) :
    ∃ j, Progress retention σ₀ (run retention σ (.replicate n .clean)) (k+j) ∧
      (j = 0 ↔ EachStep retention IndexGoes σ (.replicate n .clean)) := by
  induction n generalizing σ k with
  | zero => exact ⟨0,h,fun _ => trivial,fun _ => rfl⟩
  | succ n ih =>
      obtain ⟨i,hi,hgoes⟩ := h.clean
      obtain ⟨j,hj,hrest⟩ := ih hi
      refine ⟨i+j,?_,?_⟩
      · rw [← Nat.add_assoc]
        exact hj
      · rw [Nat.add_eq_zero_iff,hgoes,hrest]
        rfl

/-- At the end every segment is whole if no index was left behind. -/
theorem Progress.inPairs (h : Progress retention σ₀ σ 0) (hu : unpaired σ.phase = []) :
    InPairs retention σ₀ σ.disk := by
  intro name hx
  by_cases hl : logAt σ₀ name ∈ σ.disk.files
  · exact .inr ⟨hl,h.kept name hx hl⟩
  · refine .inl ⟨hl,fun hi => ?_⟩
    have hm := h.gone rfl name hx hl hi
    rw [hu] at hm
    cases hm

end Steps

section Ends
variable {retention : ℤ} {σ : State} {b : ℕ} {c : ℤ} {name : Bytes} {names : List Bytes}

def Ends (retention : ℤ) (σ : State) : Prop :=
  ∃ n r, (run retention σ (.replicate n .clean)).phase = .done r

theorem Ends.of_clean (h : Ends retention (clean retention σ)) : Ends retention σ := by
  obtain ⟨n,r,h⟩ := h
  exact ⟨n+1,r,h⟩

theorem ends_done {r : Except Err ℕ} (hp : σ.phase = .done r) : Ends retention σ := ⟨0,r,hp⟩

theorem ends_removingIndex (ih : ∀ τ : State, τ.phase = .scanning b c names → Ends retention τ)
    (hp : σ.phase = .removingIndex b c name names) : Ends retention σ := by
  apply Ends.of_clean
  apply ih
  simp only [clean,hp]
  split <;> rfl

theorem ends_removingLog (ih : ∀ τ : State, τ.phase = .scanning b c names → Ends retention τ)
    (hp : σ.phase = .removingLog b c name names) : Ends retention σ := by
  apply Ends.of_clean
  simp only [clean,hp]
  split
  · exact ends_removingIndex ih rfl
  · exact ih _ rfl

/-- The cleaner gets through the names it has listed. -/
theorem ends_scanning (hp : σ.phase = .scanning b c names) : Ends retention σ := by
  induction names generalizing σ with
  | nil =>
      apply Ends.of_clean
      simp only [clean,hp]
      exact ends_done rfl
  | cons name names ih =>
      apply Ends.of_clean
      simp only [clean,hp]
      split
      · exact ih rfl
      · split
        · exact ih rfl
        · split
          · exact ih rfl
          · exact ends_removingLog (fun τ hτ => ih hτ) rfl

theorem ends_start (retention : ℤ) (ps : PartitionStore) (d : Disk) (modified : Path → ℤ)
    (clock : ℤ) : Ends retention (start ps d modified clock) := by
  -- the base and the clock are read, and then the directory
  apply Ends.of_clean
  apply Ends.of_clean
  apply Ends.of_clean
  simp only [clean,start]
  split
  · exact ends_done rfl
  · exact ends_scanning rfl

end Ends

/-- A call on its own ends. It removes only files of expired segments. It removes
both files of a segment or none, and returns the number of logs it removed,
exactly if every index goes whose log went. -/
theorem cleans_whole_iff (retention : ℤ) (ps : PartitionStore) (d : Disk) (modified : Path → ℤ)
    (clock : ℤ) :
    ∃ n r e, (run retention (start ps d modified clock) (.replicate n .clean)).phase = .done r ∧
      (run retention (start ps d modified clock) (.replicate n .clean)).disk = e ∧
      OnlyExpired retention (start ps d modified clock) e ∧
      (InPairs retention (start ps d modified clock) e ∧ Counted (start ps d modified clock) e r ↔
        EachStep retention IndexGoes (start ps d modified clock) (.replicate n .clean)) := by
  obtain ⟨n,r,hr⟩ := ends_start retention ps d modified clock
  obtain ⟨k,hk,hgoes⟩ := (progress_start retention ps d modified clock).run n
  rw [Nat.zero_add] at hk
  have ht := hk.task
  have hcount := hk.counted
  simp only [Task,hr] at ht
  simp only [hr,unpaired,List.length_nil,Nat.add_zero] at hcount
  refine ⟨n,r,_,hr,rfl,hk.files,?_⟩
  rw [← hgoes]
  constructor
  · rintro ⟨-,hc⟩
    rw [Counted,ht,← hcount] at hc
    omega
  · rintro rfl
    refine ⟨hk.inPairs (by rw [hr]; rfl),?_⟩
    rw [Counted,ht]
    exact hcount

/-- Two segments of which the second has expired, and a disk on which the fourth
call fails: the directory is listed, the log looked at and removed. -/
def twoSegments : State :=
  start reopened {left with faults := [none,none,none,some 0]} (fun _ => 0) 100

def cleaned : State := run 10 twoSegments (.replicate 10 .clean)

/-- The index is left without its log, and the answer is that nothing was removed. -/
theorem index_left_behind :
    cleaned.phase = .done (.ok 0) ∧ Expired 10 twoSegments (logName 20) ∧
      logAt twoSegments (logName 20) ∉ cleaned.disk.files ∧
      indexAt twoSegments (logName 20) ∈ cleaned.disk.files ∧
      ¬InPairs 10 twoSegments cleaned.disk ∧ ¬Counted twoSegments cleaned.disk (.ok 0) := by
  have hp : cleaned.phase = .done (.ok 0) := by decide +kernel
  have hx : Expired 10 twoSegments (logName 20) :=
    ⟨by decide +kernel,by decide +kernel,by decide +kernel,by decide⟩
  have hlog : logAt twoSegments (logName 20) ∉ cleaned.disk.files := by decide +kernel
  have hindex : indexAt twoSegments (logName 20) ∈ cleaned.disk.files := by decide +kernel
  refine ⟨hp,hx,hlog,hindex,fun h => ?_,fun h => ?_⟩
  · rcases h _ hx with hgone | hkept
    · exact hgone.2 hindex
    · exact hlog hkept.1
  · have hmem : logAt twoSegments (logName 20) ∈ removedLogs twoSegments.disk cleaned.disk :=
      Finset.mem_filter.mpr ⟨Finmap.mem_keys.mpr hx.mem,hx.log,hlog⟩
    have hpos := Finset.card_pos.mpr ⟨_,hmem⟩
    rw [← show (0 : ℕ) = _ from h] at hpos
    exact Nat.lt_irrefl 0 hpos

end Kage.CleanerFailures
