import Kage.PartitionRuns

/-!
# Closing and opening a partition again

A restart closes the store and opens its directory again. Nothing records which
segment was active, and opening takes the one with base zero. So a restart is
invisible exactly when that one was active, and once another segment holds
bytes the reopened store rolls into it and refuses records that would fit.

Both are stated for whole runs. The first compares the reopened store with the
one that was not restarted, under every continuation. The second follows runs
of appends, closes and opens, where opening without closing first is a restart
that loses what was still buffered.
-/
namespace Kage.PartitionRestart
open ByteStrings LengthPrefixed FaultyDisk SparseIndex SegmentLog RollingLog PartitionLog
open PartitionRuns

/-- Two stores answer alike: the size, every read, and the log bytes by base. -/
structure Alike (ps : PartitionStore) (d : Disk) (qs : PartitionStore) (e : Disk) : Prop where
  size : ps.Size = qs.Size
  read : ∀ o n, ps.fetch o n d = qs.fetch o n e
  contents : contents ps d = contents qs e

/-- No continuation tells the two stores apart. -/
def Indistinguishable (ps : PartitionStore) (d : Disk) (qs : PartitionStore) (e : Disk) : Prop :=
  ∀ payloads : List Bytes,
    (appends ps d payloads).1.map Call.result = (appends qs e payloads).1.map Call.result ∧
      Alike (appends ps d payloads).2.1 (appends ps d payloads).2.2
        (appends qs e payloads).2.1 (appends qs e payloads).2.2

section Restart
variable {ps qs : PartitionStore} {d e : Disk} {r : Rolling UInt8}

theorem alike_of_follows (h : Follows ps d r) (k : Follows qs e r) : Alike ps d qs e where
  size := by rw [h.size,k.size]
  read := h.fetch_congr k
  contents := by rw [follows_contents h,follows_contents k]

/-- Stores of one configuration that follow the same log cannot be told apart. -/
theorem indistinguishable_of_follows (h : Follows ps d r) (k : Follows qs e r)
    (hc : ps.cfg = qs.cfg) : Indistinguishable ps d qs e := by
  intro payloads
  induction payloads generalizing ps d qs e r with
  | nil => exact ⟨rfl,alike_of_follows h k⟩
  | cons p pp ih =>
      obtain ⟨ps',d',hp,-,hcp,-,h'⟩ := h.append p
      obtain ⟨qs',e',hq,-,hcq,-,k'⟩ := k.append p
      rw [← hc] at k' hq
      obtain ⟨hres,halike⟩ := ih h' k' (by rw [hcp,hcq,hc])
      simp only [appends,hp,hq,List.map_cons]
      exact ⟨congrArg _ hres,halike⟩

theorem length_eq_of_size_eq {q : Rolling UInt8} (h : Follows ps d r) (k : Follows qs e q)
    (hr : r.active.length < 2^63) (hq : q.active.length < 2^63) (hs : ps.Size = qs.Size) :
    r.active.length = q.active.length := by
  rw [h.size,k.size] at hs
  have ht := congrArg Int64.toInt hs
  rw [Int64.toInt_ofNat_of_lt hr,Int64.toInt_ofNat_of_lt hq] at ht
  exact_mod_cast ht

theorem appends_single (h : Follows ps d r) (p : Bytes) :
    Follows (appends ps d [p]).2.1 (appends ps d [p]).2.2
      (r.append (capacity ps.cfg) (frame p)).2 := by
  obtain ⟨qs,e,ha,-,-,-,hq⟩ := h.append p
  simp only [appends,ha]
  exact hq

/-- Once bytes lie past the first segment, the size or one oversize record
tells the reopened store from the other. -/
theorem not_indistinguishable {spare : Set ℕ} {closed : List Bytes} {last : Bytes}
    (h : Follows ps d r) (ht : r.Tiles spare closed last)
    (hl : Bounded (capacity ps.cfg) (closed++[last]))
    (k : Follows qs e (Rolling.openAt r.files 0)) (hc : ps.cfg = qs.cfg) (hb : r.base ≠ 0) :
    ¬Indistinguishable ps d qs e := by
  intro hi
  have hcap := capacity_lt ps.cfg
  have hpart : ∀ b, (r.part b).length < 2^63 := fun b =>
    (ht.part_length_le hl b).trans_lt hcap
  have hfirst : (Rolling.openAt r.files 0).active = r.part 0 := Rolling.openAt_part r.files 0 0
  obtain ⟨c,cs,rfl⟩ : ∃ c cs, closed = c::cs :=
    List.exists_cons_of_ne_nil fun h0 => hb (by simpa [h0] using ht.base)
  have hsize : r.active.length = (r.part 0).length := by
    rw [← hfirst]
    exact length_eq_of_size_eq h k (hpart _) (by rw [hfirst]; exact hpart 0) (hi []).2.size
  have hlast : r.part r.base ≠ [] := by
    have hc0 : r.part 0 = c := (ht.part 0).trans (by simp [layout])
    have hne := List.length_pos_iff.mpr (ht.nonempty c List.mem_cons_self)
    rw [← hc0,← hsize] at hne
    exact List.length_pos_iff.mp hne
  have hx : capacity ps.cfg < (frame (List.replicate (capacity ps.cfg) 0)).length := by
    rw [frame_length,List.length_replicate]
    omega
  obtain ⟨hrefuse,hne⟩ := Rolling.openAt_append_refused _ ht.nonempty ht.part hb hlast hx.le
  have h' := appends_single h (List.replicate (capacity ps.cfg) 0)
  have k' := appends_single k (List.replicate (capacity ps.cfg) 0)
  rw [ht.append_rolls (by omega),if_neg (by omega)] at h'
  rw [← hc,hrefuse] at k'
  have hroll : (Rolling.openAt r.files 0).roll.active.length < 2^63 := by
    rw [Rolling.roll_active,Rolling.openAt_part]
    exact hpart _
  have hz := length_eq_of_size_eq h' k' (by rw [ht.roll_active]; decide) hroll
    (hi [List.replicate (capacity ps.cfg) 0]).2.size
  rw [ht.roll_active] at hz
  exact hne (List.length_eq_zero_iff.mp hz.symm)

/-- After any run of appends, closing the store and opening it again cannot be
noticed exactly when no record had left the first segment. -/
theorem restart_invisible_iff (dir : List Bytes) (cfg : SegmentConfig) (d : Disk)
    (hd : d.Healthy) (hv : Vacant dir d) :
    ∃ ps e, openPartitionStore dir cfg d = (.ok ps,e) ∧
      ∀ payloads : List Bytes, ∃ cs qs f ts g us k,
        appends ps e payloads = (cs,qs,f) ∧ qs.close f = (none,ts,g) ∧
        openPartitionStore dir cfg g = (.ok us,k) ∧
        (Indistinguishable qs f us k ↔
          Rolling.StaysInFirst (capacity cfg) 0 (payloads.map recordSize)) := by
  obtain ⟨ps,e,r,ho,hdir,hcfg,-,hf,ht⟩ := open_vacant hd hv cfg
  refine ⟨ps,e,ho,fun payloads => ?_⟩
  obtain ⟨cs,qs,f,hrun,hqdir,hqcfg,-,hq,-⟩ := follows_appends hf payloads
  obtain ⟨s,g,hclose,hg,-,hseg⟩ := hq.close
  obtain ⟨us,k,hopen,-,hucfg,-,-,hu⟩ := openPartitionStore_follows hg dir cfg
  rw [← hdir,← hqdir,hseg] at hu
  refine ⟨cs,qs,f,{qs with active := s},g,us,k,hrun,by simp only [PartitionStore.close,hclose],
    hopen,?_⟩
  have hbase := ht.run_base_eq_zero_iff (capacity ps.cfg) (payloads.map frame)
  have hsizes : (payloads.map frame).map List.length = payloads.map recordSize := by
    simp [recordSize]
  rw [hsizes,hcfg,List.length_nil] at hbase
  rw [← hbase]
  obtain ⟨closed,last,ht',hl,-⟩ := ht.run (capacity ps.cfg) (by simp [Bounded])
    (payloads.map frame)
  rw [hcfg] at ht' hl hq hu
  have hcc : qs.cfg = us.cfg := by rw [hqcfg,hcfg,hucfg]
  constructor
  · intro hi
    by_contra hb
    exact not_indistinguishable hq ht' (by rw [hqcfg,hcfg]; exact hl) hu hcc hb hi
  · intro hb
    obtain rfl := ht'.closed_eq_nil hb
    rw [ht'.openAt_files] at hu
    exact indistinguishable_of_follows hq hu hcc

end Restart

theorem restart_invisible_one_segment :
    ∃ ps e, openPartitionStore [] ⟨64⟩ .blank = (.ok ps,e) ∧
      ∃ cs qs f ts g us k, appends ps e [[1,2],[],[3]] = (cs,qs,f) ∧
        qs.close f = (none,ts,g) ∧ openPartitionStore [] ⟨64⟩ g = (.ok us,k) ∧
        Indistinguishable qs f us k := by
  obtain ⟨ps,e,ho,h⟩ := restart_invisible_iff [] ⟨64⟩ .blank rfl (vacant_blank [])
  obtain ⟨cs,qs,f,ts,g,us,k,hr,hc,hu,hi⟩ := h [[1,2],[],[3]]
  exact ⟨ps,e,ho,cs,qs,f,ts,g,us,k,hr,hc,hu,hi.mpr (by decide)⟩

/-- A run on a blank disk: the store it ends in, and the same after a restart. -/
def restart (cfg : SegmentConfig) (payloads : List Bytes) :
    Option ((PartitionStore × Disk) × PartitionStore × Disk) :=
  match openPartitionStore [] cfg .blank with
  | (.error _,_) => none
  | (.ok ps,e) =>
      match appends ps e payloads with
      | (_,qs,f) =>
          match qs.close f with
          | (some _,_,_) => none
          | (none,_,g) =>
              match openPartitionStore [] cfg g with
              | (.error _,_) => none
              | (.ok us,k) => some ((qs,f),us,k)

/-- Twenty bytes, then five, under a limit of twenty: the store reports a size
of five, and after the restart it reports twenty. -/
theorem restart_shows_first_segment :
    ∃ qs f us k, restart ⟨20⟩ [List.replicate 16 7,[8]] = some ((qs,f),us,k) ∧
      qs.Size = 5 ∧ us.Size = 20 ∧ ¬Indistinguishable qs f us k := by
  have hs : (restart ⟨20⟩ [List.replicate 16 7,[8]]).map (fun x => (x.1.1.Size,x.2.1.Size)) =
      some (5,20) := by decide +kernel
  obtain ⟨⟨⟨qs,f⟩,us,k⟩,hx,he⟩ := Option.map_eq_some_iff.mp hs
  obtain ⟨h5,h20⟩ := Prod.mk.inj he
  refine ⟨qs,f,us,k,hx,h5,h20,fun hi => ?_⟩
  have hsize : qs.Size = us.Size := (hi []).2.size
  rw [show qs.Size = 5 from h5,show us.Size = 20 from h20] at hsize
  exact absurd hsize (by decide)

inductive Op where
  | append (data : Bytes)
  | close
  | openStore
  deriving DecidableEq, Repr

/-- A store in use or none, over the disk. -/
structure State where
  store : Option PartitionStore
  disk : Disk

/-- Opening replaces the store in use; a store that was closed is not used. -/
def step (dir : List Bytes) (cfg : SegmentConfig) : State → Op → State
  | ⟨none,d⟩,.append _ => ⟨none,d⟩
  | ⟨some ps,d⟩,.append data => match ps.append data d with | (_,ps,d) => ⟨some ps,d⟩
  | ⟨none,d⟩,.close => ⟨none,d⟩
  | ⟨some ps,d⟩,.close => match ps.close d with | (_,_,d) => ⟨none,d⟩
  | ⟨_,d⟩,.openStore =>
      match openPartitionStore dir cfg d with
      | (.error _,d) => ⟨none,d⟩
      | (.ok ps,d) => ⟨some ps,d⟩

def run (dir : List Bytes) (cfg : SegmentConfig) (σ : State) (ops : List Op) : State :=
  ops.foldl (step dir cfg) σ

/-- A store in use takes every record that a segment can hold. -/
def Accepts (cfg : SegmentConfig) (σ : State) : Prop :=
  ∀ ps, σ.store = some ps → ∀ data : Bytes, (recordSize data : ℤ) ≤ cfg.limit.toInt →
    ∃ o qs e, ps.append data σ.disk = (.ok o,qs,e)

/-- No segment but the first holds bytes. -/
def Clean (dir : List Bytes) (d : Disk) : Prop :=
  ∀ b, b ≠ 0 → d.content (logPath dir b) = []

/-- Every open of the run finds a clean directory. -/
def OpensClean (dir : List Bytes) (cfg : SegmentConfig) : State → List Op → Prop
  | _,[] => True
  | σ,op::ops =>
      (op = .openStore → Clean dir σ.disk) ∧ OpensClean dir cfg (step dir cfg σ op) ops

/-- Bytes lie end to end, and there are none unless a record fits in a segment. -/
structure Parts (cfg : SegmentConfig) (closed : List Bytes) (last : Bytes) : Prop where
  nonempty : ∀ s ∈ closed, s ≠ []
  room : closed.flatten++last ≠ [] → 4 ≤ capacity cfg

/-- What the disk holds lies end to end. -/
def DiskTiles (dir : List Bytes) (cfg : SegmentConfig) (d : Disk) : Prop :=
  ∃ closed last, Parts cfg closed last ∧
    ∀ b, d.content (logPath dir b) = layout 0 (closed++[last]) b

/-- What runs keep as long as they open clean directories. -/
def Good (dir : List Bytes) (cfg : SegmentConfig) : State → Prop
  | ⟨none,d⟩ => d.Healthy ∧ DiskTiles dir cfg d
  | ⟨some ps,d⟩ => ps.dir = dir ∧ ps.cfg = cfg ∧
      ∃ r spare closed last, Follows ps d r ∧ r.Tiles spare closed last ∧ Parts cfg closed last

section Runs
variable {dir : List Bytes} {cfg : SegmentConfig} {σ : State}

theorem Parts.layout_room {closed : List Bytes} {last : Bytes} (h : Parts cfg closed last) {b : ℕ}
    (hb : layout 0 (closed++[last]) b ≠ []) : 4 ≤ capacity cfg := by
  refine h.room fun h0 => hb ?_
  rcases layout_mem 0 (closed++[last]) b with hm | hm
  · exact hm
  · have hf : (closed++[last]).flatten = [] := by simpa using h0
    exact List.flatten_eq_nil_iff.mp hf _ hm

/-- The bytes on disk lie end to end also while the last are still buffered. -/
theorem Good.disk (h : Good dir cfg σ) : σ.disk.Healthy ∧ DiskTiles dir cfg σ.disk := by
  rcases σ with ⟨store,d⟩
  cases store with
  | none => exact h
  | some ps =>
      obtain ⟨rfl,-,r,spare,closed,last,hf,ht,hp⟩ := h
      have hlast : last = d.content (logPath ps.dir r.base)++ps.active.bw.buf := by
        rw [← ht.active,← hf.holds.bytes,Segment.bytes,hf.path]
      refine ⟨hf.holds.healthy,closed,d.content (logPath ps.dir r.base),
        ⟨hp.nonempty,fun h0 => hp.room fun h1 => h0 ?_⟩,fun b => ?_⟩
      · rw [hlast] at h1
        simp only [List.append_eq_nil_iff] at h1 ⊢
        exact ⟨h1.1,h1.2.1⟩
      · rw [layout_concat ht.nonempty,Nat.zero_add,← ht.base]
        split
        · rename_i hb
          rw [hb]
        · rename_i hb
          have ho : d.content (logPath ps.dir b) = r.part b :=
            congrArg (·.getD []) (hf.others b hb)
          rw [ho,ht.part,layout_concat ht.nonempty,Nat.zero_add,← ht.base,if_neg hb]

theorem Good.accepts (h : Good dir cfg σ) : Accepts cfg σ := by
  rcases σ with ⟨store,d⟩
  rintro ps rfl data hdata
  obtain ⟨-,rfl,r,spare,closed,last,hf,ht,-⟩ := h
  obtain ⟨qs,e,ha,-⟩ := hf.append data
  have hx : (frame data).length ≤ capacity ps.cfg := by
    have := capacity_eq ps.cfg
    rw [frame_length]
    simp only [recordSize] at hdata
    omega
  by_cases hfit : last.length+(frame data).length ≤ capacity ps.cfg
  · rw [ht.append_fits hfit] at ha
    exact ⟨_,_,_,ha⟩
  · rw [ht.append_rolls hfit,if_pos hx] at ha
    exact ⟨_,_,_,ha⟩

/-- Opening takes the first segment of the directory, whatever was in use. -/
theorem Good.open_follows (h : Good dir cfg σ) :
    ∃ ps e, step dir cfg σ .openStore = ⟨some ps,e⟩ ∧ ps.dir = dir ∧ ps.cfg = cfg ∧
      Follows ps e (Rolling.openAt (segments dir σ.disk) 0) := by
  obtain ⟨ps,e,ho,hdir,hcfg,-,-,hf⟩ := openPartitionStore_follows h.disk.1 dir cfg
  refine ⟨ps,e,?_,hdir,hcfg,hf⟩
  rcases σ with ⟨_ | _,d⟩ <;> simp only [step,ho]

theorem Good.open_clean (h : Good dir cfg σ) (hc : Clean dir σ.disk) :
    Good dir cfg (step dir cfg σ .openStore) := by
  obtain ⟨ps,e,hs,hdir,hcfg,hf⟩ := h.open_follows
  obtain ⟨-,closed,last,hp,hl⟩ := h.disk
  rw [hs]
  refine ⟨hdir,hcfg,_,_,_,_,hf,Rolling.Tiles.openAt _ hc,by simp,fun h0 => ?_⟩
  refine hp.layout_room (b := 0) ?_
  rw [← hl]
  exact h0

theorem Good.append (h : Good dir cfg σ) (data : Bytes) :
    Good dir cfg (step dir cfg σ (.append data)) := by
  rcases σ with ⟨store,d⟩
  cases store with
  | none => exact h
  | some ps =>
      obtain ⟨hdir,rfl,r,spare,closed,last,hf,ht,hp⟩ := h
      obtain ⟨qs,e,ha,hd,hc,-,hq⟩ := hf.append data
      obtain ⟨closed',last',ht',-,hlog⟩ := ht.append (capacity ps.cfg) (frame data)
      simp only [step,ha]
      refine ⟨hd.trans hdir,hc,_,spare,closed',last',hq,ht',ht'.nonempty,fun h0 => ?_⟩
      rw [hlog] at h0
      split at h0
      · rename_i hsome
        have := Rolling.length_le_of_isSome hsome
        rw [frame_length] at this
        omega
      · exact hp.room (by simpa using h0)

theorem Good.close (h : Good dir cfg σ) : Good dir cfg (step dir cfg σ .close) := by
  rcases σ with ⟨store,d⟩
  cases store with
  | none => exact h
  | some ps =>
      obtain ⟨hdir,hcfg,r,spare,closed,last,hf,ht,hp⟩ := h
      obtain ⟨s,e,hc,he,-,hseg⟩ := hf.close
      simp only [step,PartitionStore.close,hc]
      refine ⟨he,closed,last,hp,fun b => ?_⟩
      rw [← ht.part,← hdir]
      exact congrArg (·.getD []) (congrFun hseg b)

theorem Good.step (h : Good dir cfg σ) {op : Op} (hop : op = .openStore → Clean dir σ.disk) :
    Good dir cfg (step dir cfg σ op) := by
  cases op with
  | append data => exact h.append data
  | close => exact h.close
  | openStore => exact h.open_clean (hop rfl)

/-- Opening a directory with bytes past the first segment gives a store that
refuses a record of the largest size. -/
theorem Good.open_not_clean (h : Good dir cfg σ) (hc : ¬Clean dir σ.disk) :
    ¬Accepts cfg (PartitionRestart.step dir cfg σ .openStore) := by
  obtain ⟨ps,e,hs,-,rfl,hf⟩ := h.open_follows
  obtain ⟨-,closed,last,hp,hl⟩ := h.disk
  simp only [Clean,not_forall] at hc
  obtain ⟨b,hb,hne⟩ := hc
  have hroom : 4 ≤ capacity ps.cfg := hp.layout_room (b := b) (by rw [← hl]; exact hne)
  have hlen : (frame (List.replicate (capacity ps.cfg-4) 0)).length = capacity ps.cfg := by
    rw [frame_length,List.length_replicate]
    omega
  obtain ⟨hrefuse,-⟩ := Rolling.openAt_append_refused (segments dir σ.disk)
    hp.nonempty hl hb hne hlen.ge
  obtain ⟨qs,f,ha,-⟩ := hf.append (List.replicate (capacity ps.cfg-4) 0)
  rw [hrefuse] at ha
  rw [hs]
  intro hacc
  obtain ⟨o,ts,g,hok⟩ := hacc ps rfl (List.replicate (capacity ps.cfg-4) 0) (by
    have := capacity_eq ps.cfg
    simp only [recordSize,List.length_replicate]
    omega)
  rw [ha] at hok
  cases hok

/-- Records that fit are accepted in every state of a run exactly when the run
opens only clean directories. -/
theorem Good.run_iff (h : Good dir cfg σ) (ops : List Op) :
    (∀ k, Accepts cfg (run dir cfg σ (ops.take k))) ↔ OpensClean dir cfg σ ops := by
  induction ops generalizing σ with
  | nil => simpa [run,OpensClean] using h.accepts
  | cons op ops ih =>
      rw [OpensClean]
      by_cases hop : op = .openStore → Clean dir σ.disk
      · rw [← ih (h.step hop)]
        constructor
        · exact fun hk => ⟨hop,fun k => hk (k+1)⟩
        · rintro ⟨-,hk⟩ (_ | k)
          · exact h.accepts
          · exact hk k
      · simp only [hop,false_and,iff_false,not_forall]
        simp only [Classical.not_imp] at hop
        obtain ⟨rfl,hc⟩ := hop
        exact ⟨1,h.open_not_clean hc⟩

end Runs

/-- From an empty directory, records that fit are accepted in every state of a
run of appends, closes and opens exactly when every open finds no bytes past
the first segment. -/
theorem accepts_iff_opensClean (dir : List Bytes) (cfg : SegmentConfig) (d : Disk)
    (hd : d.Healthy) (hv : Vacant dir d) (ops : List Op) :
    (∀ k, Accepts cfg (run dir cfg ⟨none,d⟩ (ops.take k))) ↔
      OpensClean dir cfg ⟨none,d⟩ ops := by
  have hg : Good dir cfg ⟨none,d⟩ := by
    refine ⟨hd,[],[],⟨by simp,by simp⟩,fun b => ?_⟩
    have hs : d.files.lookup (logPath dir b) = none := congrFun hv.segments b
    simp [layout,Disk.content,hs]
  exact hg.run_iff ops

/-- A rollover under the first open. -/
theorem accepts_first_open :
    OpensClean [] ⟨20⟩ ⟨none,.blank⟩
        [.openStore,.append (List.replicate 16 7),.append [8],.close] ∧
      ∀ k, Accepts ⟨20⟩ (run [] ⟨20⟩ ⟨none,.blank⟩
        ([.openStore,.append (List.replicate 16 7),.append [8],.close].take k)) := by
  have ho : OpensClean [] ⟨20⟩ ⟨none,.blank⟩
      [.openStore,.append (List.replicate 16 7),.append [8],.close] :=
    ⟨fun _ _ _ => rfl,by simp,by simp,by simp,trivial⟩
  exact ⟨ho,(accepts_iff_opensClean [] ⟨20⟩ .blank rfl (vacant_blank []) _).mpr ho⟩

/-- What the store in use answers to an append. -/
def answerTo (σ : State) (data : Bytes) : Option (Except Err UInt64) :=
  σ.store.map fun ps => (ps.append data σ.disk).1

/-- Two full segments, a close and an open: a record of five bytes is refused
under a limit of twenty. -/
theorem refused_after_reopen :
    ∃ e, answerTo (run [] ⟨20⟩ ⟨none,.blank⟩ [.openStore,.append (List.replicate 16 7),
        .append (List.replicate 16 8),.close,.openStore]) [1] = some (.error e) ∧
      ¬Accepts ⟨20⟩ (run [] ⟨20⟩ ⟨none,.blank⟩ [.openStore,.append (List.replicate 16 7),
        .append (List.replicate 16 8),.close,.openStore]) := by
  have ha : (answerTo (run [] ⟨20⟩ ⟨none,.blank⟩ [.openStore,.append (List.replicate 16 7),
      .append (List.replicate 16 8),.close,.openStore]) [1]).map Except.toOption = some none := by
    decide +kernel
  generalize run [] ⟨20⟩ ⟨none,.blank⟩ [.openStore,.append (List.replicate 16 7),
    .append (List.replicate 16 8),.close,.openStore] = σ at ha ⊢
  obtain ⟨r,hr,he⟩ := Option.map_eq_some_iff.mp ha
  cases r with
  | ok o => cases he
  | error e =>
      refine ⟨e,hr,fun hacc => ?_⟩
      obtain ⟨ps,hps,hans⟩ := Option.map_eq_some_iff.mp hr
      obtain ⟨o,qs,f,hok⟩ := hacc ps hps [1] (by decide)
      rw [hok] at hans
      cases hans

end Kage.PartitionRestart
