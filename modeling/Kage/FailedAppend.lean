import Kage.PartitionFaults

/-!
# Appends that fail

A store is used under any failures of the calls below it, closed, and opened
again with any configuration. In every state reached this way an append that is
refused, or whose rollover could not close or open a segment, is compared with
no append at all: the size, and every read made without further failures.

Nothing is undone after a failure. A refused record has already switched the
store to the next segment, so the reads stay the same only if that one holds
the same bytes. A failed rollover leaves a segment that cannot be read any
more, so the reads stay the same only if there was nothing to read.
-/
namespace Kage.FailedAppend
open ByteStrings LengthPrefixed FaultyDisk BufferedWriter SparseIndex SegmentLog PartitionLog
open SegmentFaults PartitionRuns PartitionFaults

/-- The size and every read are what they were. -/
def Unchanged (ps : PartitionStore) (d : Disk) (qs : PartitionStore) (e : Disk) : Prop :=
  ps.Size = qs.Size ∧ ∀ o n, ps.fetch o n d.calm = qs.fetch o n e.calm

section Reads
variable {dir : List Bytes} {ps qs : PartitionStore} {d e : Disk}

/-- Nothing can be read from a segment that is stuck. -/
theorem fetch_stuck (h : Stuck ps.active) (o : UInt64) (n : Int32) (d : Disk) :
    ∃ x, ps.fetch o n d = .error x := by
  rw [PartitionStore.fetch_eq]
  cases hr : readRange ps.Size o n with
  | error x => exact ⟨x,rfl⟩
  | ok k =>
      rcases hw : ps.active.bw.flush ps.active.file d with ⟨x,bw,d₁⟩
      cases x with
      | some x => exact ⟨_,rfl⟩
      | none =>
          have hpos := readRange_pos hr
          have hclosed : ps.active.file.closed = true := by
            refine h.resolve_right fun he => ?_
            rw [Writer.flush_err he] at hw
            exact he (Prod.mk.inj hw).1
          simp only [SectionReader.readFull,hclosed,if_true]
          rw [if_neg (by omega)]
          split
          · exact ⟨_,rfl⟩
          · split <;> exact ⟨_,rfl⟩

theorem size_eq_bytes (h : Stable dir ps d) (hs : ¬Stuck ps.active) :
    ps.active.size = (ps.active.bytes d).length := h.sound.1.counted hs

/-- A segment that is not stuck serves its bytes. -/
theorem fetch_live (h : Stable dir ps d) (hs : ¬Stuck ps.active) (o : UInt64) (n : Int32) :
    ps.fetch o n d.calm = view (ps.active.bytes d) o n := by
  have hf : ps.active.file.closed = false := by simpa using fun hx => hs (.inl hx)
  have he : ps.active.bw.err = none := by simpa using fun hx => hs (.inr hx)
  have hsize := size_eq_bytes h hs
  have hsmall := h.sound.2
  rw [hsize] at hsmall
  have hS : ps.Size = Int64.ofNat (ps.active.bytes d).length := by
    rw [PartitionStore.Size,Segment.Size,hsize]
  have hd : d.calm.Healthy := rfl
  have hc : (d.calm.appendTo ps.active.file.path ps.active.bw.buf).content ps.active.file.path =
      ps.active.bytes d := Disk.content_appendTo_self (d := d.calm) h.sound.1.mem _
  rw [PartitionStore.fetch_eq,hS,Writer.flush_healthy hd hf he]
  cases hr : readRange (Int64.ofNat (ps.active.bytes d).length) o n with
  | error x => simp only [view,hr]
  | ok k => exact readFull_view (by simpa using hd) hf hc hsmall hr

/-- With nothing stored, what a read answers does not depend on the file. -/
theorem fetch_empty (h0 : ps.active.size = 0) (hb : ps.active.bw.buf = [])
    (he : ps.active.bw.err = none) (o : UInt64) (n : Int32) (d : Disk) :
    ps.fetch o n d = view [] o n := by
  have hS : ps.Size = Int64.ofNat ([] : Bytes).length := by
    rw [PartitionStore.Size,Segment.Size,h0]
    rfl
  have hw : ps.active.bw.flush ps.active.file d = (none,ps.active.bw,d) := by
    simp [Writer.flush,he,hb]
  have hz : (0 : Int64).toInt = 0 := rfl
  rw [PartitionStore.fetch_eq,hS,hw,view]
  cases hr : readRange (Int64.ofNat ([] : Bytes).length) o n with
  | error x => rfl
  | ok k =>
      have hpos := readRange_pos hr
      have hneg : o.toInt64.toInt < 0 := (readRange_ok (by decide) hr).1
      simp only [SectionReader.readFull,Int64.lt_iff_toInt_lt,hz]
      rw [if_neg (by omega),if_neg (by omega),if_pos hneg,if_pos hneg]

/-- One byte of a log. -/
theorem view_byte {log : Bytes} (hl : log.length < 2^63) {i : ℕ} (hi : i < log.length) :
    view log (UInt64.ofNat i) 1 = .ok (window log i 1) := by
  have hone : (1 : Int32).toInt = 1 := rfl
  obtain ⟨k,hr,hk⟩ := readRange_of_lt hl hi (n := 1) (by rw [hone]; omega)
  have ho := toInt64_ofNat (n := i) (by omega)
  have hz : (0 : Int64).toInt = 0 := rfl
  rw [view,hr]
  simp only [Int64.lt_iff_toInt_lt,ho,hz,hk,hone]
  rw [if_neg (by omega),show min (1 : ℤ) ((log.length-i : ℕ) : ℤ) = 1 by omega]
  rfl

/-- Reading byte by byte tells different logs of one length apart. -/
theorem eq_of_view {log log' : Bytes} (hl : log.length < 2^63) (hlen : log.length = log'.length)
    (h : ∀ o n, view log o n = view log' o n) : log = log' := by
  refine List.ext_getElem hlen fun i hi hi' => ?_
  have hv := h (UInt64.ofNat i) 1
  rw [view_byte hl hi,view_byte (hlen ▸ hl) hi'] at hv
  have hw := Except.ok.inj hv
  rw [window,window,List.drop_eq_getElem_cons hi,List.drop_eq_getElem_cons hi'] at hw
  exact (List.cons.inj hw).1

end Reads

section Failures
variable {dir : List Bytes} {ps qs : PartitionStore} {d e : Disk} {data : Bytes}

/-- Only the size check answers that a segment is full, and it changes nothing. -/
theorem append_full_unchanged {s t : Segment} (h : s.append data d = (.error ErrSegmentFull,t,e)) :
    t = s ∧ e = d := by
  cases Segment.appending h with
  | full hf => exact ⟨rfl,rfl⟩
  | @written x bw₁ bw₂ idx d₁ d₂ e r hf h₁ h₂ h₃ hr => cases x <;> simp [ErrSegmentFull] at hr

/-- An append fails in its rollover, or on a segment; it is refused only after
a whole rollover. -/
theorem append_error {x : Err} (h : ps.append data d = (.error x,qs,e)) :
    ps.rollover d = (some x,qs,e) ∨
      ∃ y, x = .wrap "storage: partition store append" y ∧
        (y = ErrSegmentFull → ps.rollover d = (none,qs,e)) := by
  unfold PartitionStore.append at h
  rcases ha : ps.active.append data d with ⟨r,s,d₁⟩
  rw [ha] at h
  cases r with
  | ok o => simp at h
  | error y =>
      simp only at h
      split at h
      · rename_i hy
        subst hy
        obtain ⟨rfl,rfl⟩ := append_full_unchanged ha
        rcases hr : ps.rollover d₁ with ⟨z,rs,d₂⟩
        rw [hr] at h
        cases z with
        | some z =>
            simp only [Prod.mk.injEq,Except.error.injEq] at h
            obtain ⟨rfl,rfl,rfl⟩ := h
            exact .inl rfl
        | none =>
            simp only at h
            rcases hb : rs.active.append data d₂ with ⟨r,t,d₃⟩
            rw [hb] at h
            cases r with
            | ok o => simp at h
            | error w =>
                simp only [Prod.mk.injEq,Except.error.injEq] at h
                obtain ⟨rfl,rfl,rfl⟩ := h
                refine .inr ⟨w,rfl,?_⟩
                rintro rfl
                obtain ⟨rfl,rfl⟩ := append_full_unchanged hb
                rfl
      · rename_i hy
        simp only [Prod.mk.injEq,Except.error.injEq] at h
        exact .inr ⟨y,h.1.symm,fun hf => (hy hf).elim⟩

/-- Two stores that are not stuck answer alike exactly when they hold the same
bytes. -/
theorem unchanged_iff_bytes (h : Stable dir ps d) (hs : ¬Stuck ps.active) (k : Stable dir qs e)
    (ks : ¬Stuck qs.active) : Unchanged ps d qs e ↔ qs.active.bytes e = ps.active.bytes d := by
  have hsize := size_eq_bytes h hs
  have ksize := size_eq_bytes k ks
  have hsmall := h.sound.2
  have ksmall := k.sound.2
  constructor
  · rintro ⟨hS,hread⟩
    have hlen := congrArg Int64.toInt hS
    rw [PartitionStore.Size,PartitionStore.Size,Segment.Size,Segment.Size,
      Int64.toInt_ofNat_of_lt hsmall,Int64.toInt_ofNat_of_lt ksmall] at hlen
    refine (eq_of_view (hsize ▸ hsmall) (by omega) fun o n => ?_).symm
    rw [← fetch_live h hs,← fetch_live k ks,hread]
  · intro hb
    refine ⟨?_,fun o n => ?_⟩
    · rw [PartitionStore.Size,PartitionStore.Size,Segment.Size,Segment.Size,hsize,ksize,hb]
    · rw [fetch_live h hs,fetch_live k ks,hb]

/-- After a whole rollover the store reads the segment that begins where the
previous one ended. -/
theorem unchanged_iff_of_rollover (h : Stable dir ps d) (hr : ps.rollover d = (none,qs,e)) :
    Unchanged ps d qs e ↔
      d.content (logPath ps.dir (ps.nextBase+ps.active.size)) = ps.active.bytes d := by
  obtain rfl : ps.dir = dir := h.root
  have hq := h.rollover hr
  obtain ⟨x,t,d₁,hc,⟨c,-,hn,-⟩ | ⟨c,-,hn,-⟩ | ⟨s,rfl,-,ho,rfl⟩⟩ := rollover_cases hr
  · cases hn
  · cases hn
  have hcl := close_sound h.sound hc
  obtain ⟨hns,-,hbytes⟩ := hcl.success rfl
  have hopen : ps.active.file.closed = false := by simpa using fun hx => hns (.inl hx)
  have hbase := h.next hopen
  have hsize := size_eq_bytes h hns
  have hx := openSegment_extends ps.dir (ps.nextBase+ps.active.size) ps.cfg d₁
  rw [ho] at hx
  obtain ⟨-,hns',hbuf,-,hp,-⟩ :=
    openSegment_sound ((h.of_close hcl).small (ps.nextBase+ps.active.size)) ho
  have hcontent : d₁.content (logPath ps.dir (ps.nextBase+ps.active.size)) =
      d.content (logPath ps.dir (ps.nextBase+ps.active.size)) := by
    by_cases h0 : ps.active.size = 0
    · rw [h0,Nat.add_zero,← hbase,← h.path,hbytes]
      have hnil := List.length_eq_zero_iff.mp (hsize.symm.trans h0)
      rw [hnil]
      exact (List.append_eq_nil_iff.mp hnil).1.symm
    · exact h.content_ne hcl.leaves (by omega)
  rw [unchanged_iff_bytes h hns hq hns',← hcontent,
    ← (hx _ (logPath_ne_indexPath ps.dir ps.dir _ _)).1]
  simp only [Segment.bytes,hp,hbuf,List.append_nil]

/-- Once the active segment is stuck with nothing to show for it, only an empty
or stuck one had shown the same. -/
theorem unchanged_iff_of_stuck (h : Stable dir ps d) (hs : ¬Stuck ps.active)
    (ks : Stuck qs.active) (hsize : qs.active.size = ps.active.size)
    (h0 : ps.active.size = 0 → qs.active.bw.buf = [] ∧ qs.active.bw.err = none) :
    Unchanged ps d qs e ↔ ps.active.size = 0 ∨ Stuck ps.active := by
  have hb := size_eq_bytes h hs
  constructor
  · rintro ⟨-,hread⟩
    by_contra hne
    simp only [not_or] at hne
    obtain ⟨x,hx⟩ := fetch_stuck ks (UInt64.ofNat 0) 1 e.calm
    have hr := hread (UInt64.ofNat 0) 1
    rw [fetch_live h hs,view_byte (hb ▸ h.sound.2) (by omega),hx] at hr
    cases hr
  · intro hor
    have hz := hor.resolve_right hs
    obtain ⟨kb,ke⟩ := h0 hz
    have he : ps.active.bw.err = none := by simpa using fun hx => hs (.inr hx)
    refine ⟨?_,fun o n => ?_⟩
    · rw [PartitionStore.Size,PartitionStore.Size,Segment.Size,Segment.Size,hsize]
    · rw [fetch_empty hz (empty_buffer h.sound hs hz) he,fetch_empty (hsize.trans hz) kb ke]

theorem unchanged_refl (ps : PartitionStore) (d : Disk) : Unchanged ps d ps d :=
  ⟨rfl,fun _ _ => rfl⟩

/-- Closing a stuck segment fails and changes nothing to be seen. -/
theorem close_stuck (hs : Stuck ps.active) :
    ∃ x t, ps.active.close d = (some x,t,d) ∧ Unchanged ps d {ps with active := t} d := by
  cases he : ps.active.bw.err with
  | some x =>
      have hw : ps.active.bw.flush ps.active.file d = (some x,ps.active.bw,d) := by
        rw [Writer.flush_err (by simp [he]),he]
      exact ⟨.wrap "storage: flush on close" x,ps.active,by simp only [Segment.close,hw],
        unchanged_refl ps d⟩
  | none =>
      have hf : ps.active.file.closed = true := hs.resolve_right fun hx => hx he
      by_cases hb : ps.active.bw.buf = []
      · have hw : ps.active.bw.flush ps.active.file d = (none,ps.active.bw,d) := by
          simp [Writer.flush,he,hb]
        have hc : ps.active.file.close d = (some .closed,ps.active.file,d) := by
          simp [File.close,hf]
        exact ⟨.wrap "storage: close segment file" .closed,ps.active,
          by simp only [Segment.close,hw,hc],unchanged_refl ps d⟩
      · have hw : ∀ d, ps.active.bw.flush ps.active.file d =
            (some .closed,{ps.active.bw with err := some .closed},d) := by
          intro d
          simp [Writer.flush,he,hb,File.write_closed hf]
        refine ⟨.wrap "storage: flush on close" .closed,
          {ps.active with bw := {ps.active.bw with err := some .closed}},
          by simp only [Segment.close,hw],rfl,fun o n => ?_⟩
        rw [PartitionStore.fetch_eq,PartitionStore.fetch_eq,hw,
          Writer.flush_err (w := {ps.active.bw with err := some .closed}) (by simp)]
        rfl

theorem unchanged_iff_of_rollover_failed (h : Stable dir ps d) {x : Err}
    (hr : ps.rollover d = (some x,qs,e)) :
    Unchanged ps d qs e ↔ ps.active.size = 0 ∨ Stuck ps.active := by
  obtain ⟨y,t,d₁,hc,⟨c,rfl,-,rfl,rfl⟩ | ⟨c,rfl,-,ho,rfl⟩ | ⟨s,-,hn,-⟩⟩ := rollover_cases hr
  · by_cases hs : Stuck ps.active
    · obtain ⟨x,t',hc',hu⟩ := close_stuck (d := d) hs
      rw [hc'] at hc
      simp only [Prod.mk.injEq] at hc
      obtain ⟨-,rfl,rfl⟩ := hc
      exact ⟨fun _ => .inr hs,fun _ => hu⟩
    · have hcl := close_sound h.sound hc
      exact unchanged_iff_of_stuck h hs hcl.stuck hcl.size (hcl.empty hs)
  · have hcl := close_sound h.sound hc
    obtain ⟨hs,-⟩ := hcl.success rfl
    exact unchanged_iff_of_stuck h hs hcl.stuck hcl.size (hcl.empty hs)
  · cases hn

end Failures

/-- Exactly when a failed append goes unnoticed. A refused record has switched
to the segment that begins where the active one ends, so that one has to hold
the same bytes. After a failed rollover nothing can be read, so there has to be
nothing to read, or nothing could be read before. -/
theorem failed_append_unchanged_iff (dir : List Bytes) (ps : PartitionStore) (d : Disk)
    (h : Reachable dir ps d) (data : Bytes) (x : Err) (qs : PartitionStore) (e : Disk)
    (ha : ps.append data d = (.error x,qs,e)) :
    (x = refusal → (Unchanged ps d qs e ↔
      d.content (logPath ps.dir (ps.nextBase+ps.active.size)) = ps.active.bytes d)) ∧
    ((∃ c, x = .wrap "storage: rollover close" c ∨ x = .wrap "storage: rollover open" c) →
      (Unchanged ps d qs e ↔ ps.active.size = 0 ∨ Stuck ps.active)) := by
  have hst := h.stable
  rcases append_error ha with hr | ⟨y,rfl,hr⟩
  · refine ⟨?_,fun _ => unchanged_iff_of_rollover_failed hst hr⟩
    rintro rfl
    obtain ⟨y,t,d₁,-,⟨c,-,hn,-⟩ | ⟨c,-,hn,-⟩ | ⟨s,-,hn,-⟩⟩ := rollover_cases hr <;>
      simp [refusal] at hn
  · refine ⟨fun hx => ?_,?_⟩
    · simp only [refusal,Err.wrap.injEq,true_and] at hx
      exact unchanged_iff_of_rollover hst (hr hx)
    · rintro ⟨c,hx | hx⟩ <;> simp at hx

/-- What an append answers after some operations on a store opened on a blank
disk, with the size and the first four bytes read before and after it. -/
def trial (cfg : SegmentConfig) (ops : List Op) (data : Bytes) :
    Option (Except Err UInt64 × (Int64 × Except Err Bytes) × Int64 × Except Err Bytes) :=
  let σ := run [] ⟨none,.blank⟩ (.openStore cfg::ops)
  σ.store.map fun ps =>
    match ps.append data σ.disk with
    | (r,qs,e) => (r,(ps.Size,ps.fetch 0 4 σ.disk.calm),qs.Size,qs.fetch 0 4 e.calm)

theorem trial_reachable {cfg : SegmentConfig} {ops : List Op} {data : Bytes}
    {r : Except Err UInt64} {m n : Int64} {a b : Except Err Bytes}
    (h : trial cfg ops data = some (r,(m,a),n,b)) :
    ∃ ps d qs e, Reachable [] ps d ∧ ps.append data d = (r,qs,e) ∧ ps.Size = m ∧ qs.Size = n ∧
      ps.fetch 0 4 d.calm = a ∧ qs.fetch 0 4 e.calm = b := by
  unfold trial at h
  rcases hσ : run [] ⟨none,.blank⟩ (.openStore cfg::ops) with ⟨store,d⟩
  simp only [hσ] at h
  cases store with
  | none => cases h
  | some ps =>
      rcases ha : ps.append data d with ⟨r',qs,e⟩
      simp only [Option.map_some,ha,Option.some.injEq,Prod.mk.injEq] at h
      obtain ⟨rfl,⟨rfl,rfl⟩,rfl,rfl⟩ := h
      exact ⟨ps,d,qs,e,⟨.blank,_,vacant_blank [],hσ⟩,ha,rfl,rfl,rfl,rfl⟩

theorem failed_rollover_of_empty_unchanged :
    ∃ ps d qs e c, Reachable [] ps d ∧
      ps.append (List.replicate 17 8) d = (.error (.wrap "storage: rollover open" c),qs,e) ∧
      Unchanged ps d qs e := by
  have ht : trial ⟨20⟩ [.faults [none,none,some 0]] (List.replicate 17 8) =
      some (.error (.wrap "storage: rollover open" (.wrap "storage: open segment %q" .device)),
        (0,.error ErrInvalidOffset),0,.error ErrInvalidOffset) := by decide +kernel
  obtain ⟨ps,d,qs,e,hr,ha,hm,-⟩ := trial_reachable ht
  refine ⟨ps,d,qs,e,_,hr,ha,?_⟩
  refine ((failed_append_unchanged_iff [] ps d hr _ _ qs e ha).2 ⟨_,.inr rfl⟩).mpr (.inl ?_)
  have hz := congrArg Int64.toInt hm
  rw [PartitionStore.Size,Segment.Size,Int64.toInt_ofNat_of_lt hr.stable.sound.2] at hz
  exact Int.ofNat_eq_zero.mp hz

/-- Under a limit of twenty, a record of twenty bytes is stored. One of
twenty-one bytes is then refused, and the size drops to zero. Or the next
segment cannot be opened for one more byte, and the stored record cannot be
read any more. -/
theorem failed_append_visible :
    (∃ ps d qs e, Reachable [] ps d ∧
      ps.append (List.replicate 17 8) d = (.error refusal,qs,e) ∧
      ps.Size = 20 ∧ qs.Size = 0 ∧ ¬Unchanged ps d qs e) ∧
    (∃ ps d qs e c, Reachable [] ps d ∧
      ps.append [8] d = (.error (.wrap "storage: rollover open" c),qs,e) ∧
      ps.fetch 0 4 d.calm = .ok [0,0,0,16] ∧ qs.fetch 0 4 e.calm = .error .closed ∧
      ¬Unchanged ps d qs e) := by
  constructor
  · have ht : trial ⟨20⟩ [.append (List.replicate 16 7)] (List.replicate 17 8) =
        some (.error refusal,(20,.ok [0,0,0,16]),0,.error ErrInvalidOffset) := by decide +kernel
    obtain ⟨ps,d,qs,e,hr,ha,hm,hn,-⟩ := trial_reachable ht
    refine ⟨ps,d,qs,e,hr,ha,hm,hn,fun hu => ?_⟩
    have hsize := hu.1
    rw [hm,hn] at hsize
    exact absurd hsize (by decide)
  · have ht : trial ⟨20⟩ [.append (List.replicate 16 7),.faults [none,none,none,some 0]] [8] =
        some (.error (.wrap "storage: rollover open" (.wrap "storage: open segment %q" .device)),
          (20,.ok [0,0,0,16]),20,.error .closed) := by decide +kernel
    obtain ⟨ps,d,qs,e,hr,ha,-,-,hb,hq⟩ := trial_reachable ht
    refine ⟨ps,d,qs,e,_,hr,ha,hb,hq,fun hu => ?_⟩
    have hread := hu.2 0 4
    rw [hb,hq] at hread
    cases hread

end Kage.FailedAppend
