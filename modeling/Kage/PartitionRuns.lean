import Kage.PartitionLog

/-!
# Runs of appends on one partition

A run is a list of payloads given one after another to a store opened on a
directory without segments. Each call is recorded with what it answered and
with the size reported after it.

The segments of such a run lie end to end and are together the accepted
records. The offsets and sizes that callers see count from the start of the
active segment instead of the start of the partition, so they are absolute
exactly while the first segment is the active one.
-/
namespace Kage.PartitionRuns
open ByteStrings LengthPrefixed FaultyDisk SparseIndex SegmentLog RollingLog PartitionLog

structure Call where
  payload : Bytes
  result : Except Err UInt64
  size : Int64

/-- The calls of a run, with the store and the disk it ends in. -/
def appends (ps : PartitionStore) (d : Disk) : List Bytes → List Call × PartitionStore × Disk
  | [] => ([],ps,d)
  | p::pp =>
      match ps.append p d with
      | (r,ps,d) =>
          match appends ps d pp with
          | (cs,qs,e) => (⟨p,r,ps.Size⟩::cs,qs,e)

/-- The payloads that were not refused. -/
def accepted (cs : List Call) : List Bytes :=
  cs.filterMap fun c => c.result.toOption.map fun _ => c.payload

/-- The offsets that were answered. -/
def offsets (cs : List Call) : List UInt64 := cs.filterMap fun c => c.result.toOption

/-- No file lies in the directory. -/
def Vacant (dir : List Bytes) (d : Disk) : Prop := ∀ p ∈ d.files, p.dir ≠ dir

/-- The log bytes of each segment, those still buffered included. -/
def contents (ps : PartitionStore) (d : Disk) (b : ℕ) : Option Bytes :=
  if b = ps.active.baseOffset then (segments ps.dir d b).map (·++ps.active.bw.buf)
  else segments ps.dir d b

section Runs
variable {ps : PartitionStore} {d : Disk} {r : Rolling UInt8} {dir : List Bytes}

theorem Vacant.segments (h : Vacant dir d) : PartitionLog.segments dir d = fun _ => none := by
  funext b
  exact Finmap.lookup_eq_none.mpr fun hm => h _ hm rfl

theorem follows_contents (h : Follows ps d r) : contents ps d = r.files := by
  funext b
  rw [contents,h.base]
  split
  · rename_i hb
    have hm : PartitionLog.segments ps.dir d r.base = some (d.content ps.active.file.path) := by
      rw [PartitionLog.segments,← h.path,Disk.lookup_of_mem h.holds.mem]
    rw [hb,hm,h.present]
    exact congrArg some h.holds.bytes
  · exact h.others b ‹_›

/-- A store opened on a vacant directory follows the empty rolling log. -/
theorem open_vacant (hd : d.Healthy) (hv : Vacant dir d) (cfg : SegmentConfig) :
    ∃ ps e r, openPartitionStore dir cfg d = (.ok ps,e) ∧ ps.dir = dir ∧ ps.cfg = cfg ∧
      e.dirs = d.dirs ∧ Follows ps e r ∧ r.Tiles ∅ [] [] := by
  obtain ⟨ps,e,ho,hdir,hcfg,-,hr,hf⟩ := openPartitionStore_follows hd dir cfg
  refine ⟨ps,e,_,ho,hdir,hcfg,hr,hf,?_⟩
  rw [hv.segments]
  exact .empty

theorem follows_appends (h : Follows ps d r) (pp : List Bytes) :
    ∃ cs qs e, appends ps d pp = (cs,qs,e) ∧ qs.dir = ps.dir ∧ qs.cfg = ps.cfg ∧
      e.dirs = d.dirs ∧ Follows qs e (r.run (capacity ps.cfg) (pp.map frame)) ∧
      (accepted cs).map frame = r.accepted (capacity ps.cfg) (pp.map frame) := by
  induction pp generalizing ps d r with
  | nil => exact ⟨[],ps,d,rfl,rfl,rfl,rfl,h,rfl⟩
  | cons p pp ih =>
      obtain ⟨qs,e,ha,hdir,hcfg,hr,hq⟩ := h.append p
      obtain ⟨cs,ts,f,hrun,hdir',hcfg',hr',ht,hacc⟩ := ih hq
      rw [hcfg] at ht hacc
      refine ⟨⟨p,answer (r.append (capacity ps.cfg) (frame p)).1,qs.Size⟩::cs,ts,f,
        by simp only [appends,ha,hrun],hdir'.trans hdir,hcfg'.trans hcfg,
        hr'.trans hr,ht,?_⟩
      rw [List.map_cons,Rolling.accepted,← hacc]
      cases (r.append (capacity ps.cfg) (frame p)).1 <;>
        simp [accepted,answer,Except.toOption]

end Runs

theorem vacant_blank (dir : List Bytes) : Vacant dir .blank :=
  fun p hp => (Finmap.notMem_empty (show p ∈ (∅ : Finmap fun _ : Path => Bytes) from hp)).elim

/-- The segments of a directory lie end to end and spell `log`. -/
structure Tiled (ps : PartitionStore) (d : Disk) (segs : List (ℕ × Bytes)) (log : Bytes) :
    Prop where
  files : ∀ b s, contents ps d b = some s ↔ (b,s) ∈ segs
  increasing : segs.Pairwise fun p q => p.1 < q.1
  first : segs.head?.map Prod.fst = some 0
  chain : segs.IsChain fun p q => q.1 = p.1+p.2.length
  active : segs.getLast?.map Prod.fst = some ps.active.baseOffset
  nextBase : ps.nextBase = ps.active.baseOffset
  limit : ∀ p ∈ segs, p.2.length ≤ ps.cfg.limit.toInt
  log : (segs.map Prod.snd).flatten = log

theorem tiled_of_tiles {ps : PartitionStore} {d : Disk} {r : Rolling UInt8}
    {closed : List Bytes} {last : Bytes} (h : Follows ps d r) (ht : r.Tiles ∅ closed last)
    (hl : Bounded (capacity ps.cfg) (closed++[last])) :
    Tiled ps d (place 0 (closed++[last])) (closed.flatten++last) where
  files := fun b s => by rw [follows_contents h]; exact ht.files_eq_some_iff b s
  increasing := place_increasing ht.nonempty last
  first := by cases closed <;> rfl
  chain := place_chain 0 _
  active := by simp [place_concat,h.base,ht.base]
  nextBase := h.next.trans h.base.symm
  limit := fun p hp => by
    have hm : p.2 ∈ closed++[last] := by
      rw [← place_snd 0 (closed++[last])]
      exact List.mem_map.mpr ⟨p,hp,rfl⟩
    have := hl p.2 hm
    rw [← capacity_eq]
    exact_mod_cast this
  log := by simp [place_snd]

/-- However records are accepted, rolled over and refused, the segments tile
the log of the accepted ones. -/
theorem segments_tile (dir : List Bytes) (cfg : SegmentConfig) (d : Disk) (hd : d.Healthy)
    (hv : Vacant dir d) :
    ∃ ps e, openPartitionStore dir cfg d = (.ok ps,e) ∧
      ∀ payloads, ∃ cs qs f, appends ps e payloads = (cs,qs,f) ∧ qs.cfg = cfg ∧
        ∃ segs, Tiled qs f segs (frames (accepted cs)) := by
  obtain ⟨ps,e,r,ho,-,hcfg,-,hf,ht⟩ := open_vacant hd hv cfg
  refine ⟨ps,e,ho,fun payloads => ?_⟩
  obtain ⟨cs,qs,f,hrun,-,hc,-,hq,hacc⟩ := follows_appends hf payloads
  obtain ⟨closed,last,ht',hl,hlog⟩ := ht.run (capacity ps.cfg) (by simp [Bounded])
    (payloads.map frame)
  refine ⟨cs,qs,f,hrun,hc.trans hcfg,place 0 (closed++[last]),?_⟩
  have h := tiled_of_tiles hq ht' (by rw [hc]; exact hl)
  rw [hlog,← hacc] at h
  simpa [frames,List.flatMap] using h

theorem segments_tile_two_segments :
    ∃ ps e, openPartitionStore [] ⟨20⟩ .blank = (.ok ps,e) ∧
      ∃ cs qs f, appends ps e [List.replicate 16 7,[8],List.replicate 17 9] = (cs,qs,f) ∧
        qs.cfg = ⟨20⟩ ∧ ∃ segs, Tiled qs f segs (frames (accepted cs)) := by
  obtain ⟨ps,e,ho,h⟩ := segments_tile [] ⟨20⟩ .blank rfl (vacant_blank [])
  exact ⟨ps,e,ho,h _⟩

/-- Offsets count from the start of the partition, and the size counts every
accepted byte. -/
structure AbsoluteOffsets (cs : List Call) : Prop where
  offset : ∀ (k : ℕ) (c : Call) (o : UInt64), cs[k]? = some c → c.result = .ok o →
    o.toNat = (frames (accepted (cs.take k))).length
  increasing : (offsets cs).Pairwise (·<·)
  size : ∀ (k : ℕ) (c : Call), cs[k]? = some c →
    c.size.toInt = (frames (accepted (cs.take (k+1)))).length
  monotone : (cs.map Call.size).Pairwise (·≤·)

/-- The bytes a call added to the partition. -/
def Call.gain (c : Call) : ℕ := (frames (accepted [c])).length

/-- The same read along the list, from a partition that holds `t` bytes. -/
def AbsoluteFrom : ℕ → List Call → Prop
  | _,[] => True
  | t,c::cs => (∀ o, c.result = .ok o → o.toNat = t) ∧ c.size.toInt = ((t+c.gain : ℕ) : ℤ) ∧
      AbsoluteFrom (t+c.gain) cs

theorem accepted_cons_length (c : Call) (cs : List Call) :
    (frames (accepted (c::cs))).length = c.gain+(frames (accepted cs)).length := by
  have h : accepted (c::cs) = accepted [c]++accepted cs := by
    rw [accepted,← List.singleton_append,List.filterMap_append]
    rfl
  rw [h,frames_append,List.length_append,Call.gain]

theorem absoluteFrom_iff (t : ℕ) (cs : List Call) :
    AbsoluteFrom t cs ↔ ∀ (k : ℕ) (c : Call), cs[k]? = some c →
      (∀ o, c.result = .ok o → o.toNat = t+(frames (accepted (cs.take k))).length) ∧
        c.size.toInt = ((t+(frames (accepted (cs.take (k+1)))).length : ℕ) : ℤ) := by
  induction cs generalizing t with
  | nil => simp [AbsoluteFrom]
  | cons x cs ih =>
      have hgain : (frames (accepted ((x::cs).take 1))).length = x.gain := rfl
      rw [AbsoluteFrom,ih]
      constructor
      · rintro ⟨ho,hs,hcs⟩ k c hc
        cases k with
        | zero =>
            obtain rfl : x = c := by simpa using hc
            exact ⟨ho,by rw [Nat.zero_add,hgain]; exact hs⟩
        | succ k =>
            simp only [List.take_succ_cons,accepted_cons_length,← Nat.add_assoc]
            exact hcs k c (by simpa using hc)
      · intro h
        have h0 := h 0 x rfl
        rw [Nat.zero_add,hgain] at h0
        refine ⟨h0.1,h0.2,fun k c hc => ?_⟩
        have hk := h (k+1) c (by simpa using hc)
        simpa only [List.take_succ_cons,accepted_cons_length,← Nat.add_assoc] using hk

/-- From `t` on, every offset is at least `t`, and every size too. -/
theorem AbsoluteFrom.ordered {t : ℕ} {cs : List Call} (h : AbsoluteFrom t cs) :
    ((∀ o ∈ offsets cs, t ≤ o.toNat) ∧ (offsets cs).Pairwise (·<·)) ∧
      (∀ n ∈ cs.map Call.size, (t : ℤ) ≤ n.toInt) ∧ (cs.map Call.size).Pairwise (·≤·) := by
  induction cs generalizing t with
  | nil => simp [offsets]
  | cons c cs ih =>
      obtain ⟨ho,hs,hcs⟩ := h
      obtain ⟨⟨hlow,hinc⟩,hsize,hmono⟩ := ih hcs
      refine ⟨?_,?_⟩
      · cases hr : c.result with
        | error e =>
            have hc : offsets (c::cs) = offsets cs := by simp [offsets,hr,Except.toOption]
            rw [hc]
            exact ⟨fun o hm => (Nat.le_add_right t _).trans (hlow o hm),hinc⟩
        | ok o =>
            have hc : offsets (c::cs) = o::offsets cs := by simp [offsets,hr,Except.toOption]
            have hg : 0 < c.gain := by simp [Call.gain,accepted,hr,Except.toOption]
            have h0 := ho o hr
            rw [hc]
            refine ⟨fun x hx => ?_,.cons (fun x hx => ?_) hinc⟩
            · rcases List.mem_cons.mp hx with rfl | hx
              · exact h0.ge
              · have := hlow x hx
                omega
            · have := hlow x hx
              rw [UInt64.lt_iff_toNat_lt]
              omega
      · rw [List.map_cons]
        refine ⟨fun n hn => ?_,.cons (fun n hn => ?_) hmono⟩
        · rcases List.mem_cons.mp hn with rfl | hn
          · omega
          · have := hsize n hn
            omega
        · have := hsize n hn
          rw [Int64.le_iff_toInt_le]
          omega

theorem absoluteOffsets_iff (cs : List Call) : AbsoluteOffsets cs ↔ AbsoluteFrom 0 cs := by
  constructor
  · intro h
    rw [absoluteFrom_iff]
    intro k c hc
    refine ⟨fun o ho => ?_,?_⟩
    · rw [Nat.zero_add,h.offset k c o hc ho]
    · rw [Nat.zero_add,h.size k c hc]
  · intro h
    obtain ⟨⟨-,hinc⟩,-,hmono⟩ := h.ordered
    rw [absoluteFrom_iff] at h
    refine ⟨fun k c o hc ho => ?_,hinc,fun k c hc => ?_,hmono⟩
    · rw [(h k c hc).1 o ho,Nat.zero_add]
    · rw [(h k c hc).2,Nat.zero_add]

/-- The length of a record in the log. -/
def recordSize (p : Bytes) : ℕ := 4+p.length

theorem gain_ok (p : Bytes) (o : UInt64) (n : Int64) : Call.gain ⟨p,.ok o,n⟩ = recordSize p := by
  simp [Call.gain,accepted,Except.toOption,recordSize]

theorem gain_error (p : Bytes) (e : Err) (n : Int64) : Call.gain ⟨p,.error e,n⟩ = 0 := rfl

section Absolute
variable {ps qs : PartitionStore} {d e : Disk} {r : Rolling UInt8} {last p : Bytes}
variable {spare : Set ℕ} {t : ℕ} {cs : List Call}

/-- A call that stays in the first segment is absolute. -/
theorem absoluteFrom_stays (h : Follows qs e (r.push (frame p))) (ht : r.Tiles spare [] last)
    (hf : last.length+recordSize p ≤ capacity qs.cfg) :
    AbsoluteFrom last.length (⟨p,.ok (UInt64.ofNat last.length),qs.Size⟩::cs) ↔
      AbsoluteFrom (last.length+recordSize p) cs := by
  have hcap := capacity_lt qs.cfg
  have hsz : (2 : ℕ)^63 < UInt64.size := by decide
  rw [AbsoluteFrom,gain_ok,h.size,Rolling.push_active,ht.active,List.length_append,
    frame_length]
  refine ⟨fun hx => hx.2.2,fun hx => ⟨fun o ho => ?_,?_,hx⟩⟩
  · obtain rfl := Except.ok.inj ho
    exact UInt64.toNat_ofNat_of_lt' (by omega)
  · exact Int64.toInt_ofNat_of_lt (by simp only [recordSize] at hf; omega)

/-- A call that leaves a segment with something in it reports too little. -/
theorem not_absoluteFrom_leaves (h : Follows qs e (r.append (capacity qs.cfg) (frame p)).2)
    (ht : r.Tiles spare [] last) (hf : ¬last.length+recordSize p ≤ capacity qs.cfg)
    (h0 : last ≠ []) :
    ¬AbsoluteFrom last.length
      (⟨p,answer (r.append (capacity qs.cfg) (frame p)).1,qs.Size⟩::cs) := by
  intro hx
  have hbad := hx.2.1
  have hpos := List.length_pos_iff.mpr h0
  have hcap := capacity_lt qs.cfg
  have hlen : (frame p).length = recordSize p := frame_length p
  rw [h.size] at hbad
  rw [ht.append_rolls (by rw [hlen]; exact hf)] at hbad
  split at hbad
  · rename_i hp
    rw [answer,gain_ok,Rolling.push_active,ht.roll_active,List.nil_append,hlen,
      Int64.toInt_ofNat_of_lt (by omega)] at hbad
    omega
  · rw [answer,gain_error,ht.roll_active,List.length_nil] at hbad
    simp only [Int64.toInt_ofNat_of_lt (show 0 < 2^63 by decide)] at hbad
    omega

/-- While the first segment is active, the calls are absolute exactly when
their records stay there. -/
theorem absoluteFrom_appends (h : Follows ps d r) (ht : r.Tiles spare [] last) (pp : List Bytes) :
    AbsoluteFrom last.length (appends ps d pp).1 ↔
      Rolling.StaysInFirst (capacity ps.cfg) last.length (pp.map recordSize) := by
  induction pp generalizing ps d r last with
  | nil => simp [appends,AbsoluteFrom,Rolling.StaysInFirst]
  | cons p pp ih =>
      obtain ⟨qs,e,ha,-,hcfg,-,hq⟩ := h.append p
      have hlen : (frame p).length = recordSize p := frame_length p
      have hrun : (appends ps d (p::pp)).1 =
          ⟨p,answer (r.append (capacity ps.cfg) (frame p)).1,qs.Size⟩::(appends qs e pp).1 := by
        simp only [appends,ha]
      rw [hrun,List.map_cons,Rolling.StaysInFirst,← hcfg]
      rw [← hcfg] at hq
      split
      · rename_i hf
        rw [ht.append_fits (by rw [hlen]; exact hf)] at hq ⊢
        have hi := ih hq (ht.push (frame p))
        rw [List.length_append,hlen] at hi
        rw [← hi]
        exact absoluteFrom_stays hq ht hf
      · rename_i hf
        by_cases h0 : last = []
        · subst last
          obtain ⟨hnone,ht'⟩ := ht.append_empty (frame p)
            (by simpa [hlen] using hf)
          rw [hnone,answer,AbsoluteFrom,gain_error,hq.size,ht'.active,← ih hq ht']
          simp [refusal]
        · refine ⟨fun hx => (not_absoluteFrom_leaves hq ht hf h0 hx).elim,fun hx => ?_⟩
          exact (h0 (List.length_eq_zero_iff.mp hx.1)).elim

end Absolute

/-- Offsets and sizes are absolute in exactly the runs in which no record
leaves the first segment. -/
theorem absoluteOffsets_iff_staysInFirst (dir : List Bytes) (cfg : SegmentConfig) (d : Disk)
    (hd : d.Healthy) (hv : Vacant dir d) :
    ∃ ps e, openPartitionStore dir cfg d = (.ok ps,e) ∧
      ∀ payloads : List Bytes, AbsoluteOffsets (appends ps e payloads).1 ↔
        Rolling.StaysInFirst (capacity cfg) 0 (payloads.map recordSize) := by
  obtain ⟨ps,e,r,ho,-,hcfg,-,hf,ht⟩ := open_vacant hd hv cfg
  refine ⟨ps,e,ho,fun payloads => ?_⟩
  rw [absoluteOffsets_iff,← hcfg]
  exact absoluteFrom_appends hf ht payloads

theorem absoluteOffsets_two_records :
    ∃ ps e, openPartitionStore [] ⟨64⟩ .blank = (.ok ps,e) ∧
      AbsoluteOffsets (appends ps e [[1,2],[3]]).1 := by
  obtain ⟨ps,e,ho,h⟩ := absoluteOffsets_iff_staysInFirst [] ⟨64⟩ .blank rfl (vacant_blank [])
  exact ⟨ps,e,ho,(h _).mpr (by decide)⟩

/-- The calls of a run on a blank disk. -/
def callsOn (cfg : SegmentConfig) (payloads : List Bytes) : List Call :=
  match openPartitionStore [] cfg .blank with
  | (.error _,_) => []
  | (.ok ps,e) => (appends ps e payloads).1

/-- Two records of twenty bytes under a limit of twenty: the second is answered
with offset zero again, and the size does not grow. -/
theorem offset_repeats_after_rollover :
    (callsOn ⟨20⟩ [List.replicate 16 7,List.replicate 16 8]).map
        (fun c => (c.result.toOption,c.size)) = [(some 0,20),(some 0,20)] ∧
      ¬AbsoluteOffsets (callsOn ⟨20⟩ [List.replicate 16 7,List.replicate 16 8]) := by
  have hc : (callsOn ⟨20⟩ [List.replicate 16 7,List.replicate 16 8]).map
      (fun c => (c.result.toOption,c.size)) = [(some 0,20),(some 0,20)] := by decide +kernel
  have ho : offsets (callsOn ⟨20⟩ [List.replicate 16 7,List.replicate 16 8]) = [0,0] := by
    decide +kernel
  refine ⟨hc,fun h => ?_⟩
  have hi := h.increasing
  rw [ho] at hi
  revert hi
  decide

end Kage.PartitionRuns
