import Kage.LogCleaner

/-!
# Records within the retention time

While clients are served and the cleaner sweeps, a record that was accepted is in
its log for the retention time. A record leaves the buffer of its writer after it
was accepted, and its file is modified then. So a file that holds a record was
modified no earlier than the record was accepted, and the cleaner removes a file
only when its modification is as old as the retention time.

The invariant has two parts. `Retained` relates the records to the files and
their times. `Watched` says what the cleaner can rely on in the middle of a call.
The moves of clients and of the clock keep both because files before the active
one are never modified, and a new active one is modified now.
-/
namespace Kage.RetainedRecords
open ByteStrings LengthPrefixed FaultyDisk SparseIndex SegmentLog PartitionLog BrokerStores
open AtomicPrograms BrokerPrograms BrokerLedger LedgerJournal ClientSessions AcknowledgedRecords
open LogCleaner
open OffsetHandlers (newHandler)
open OffsetStorage (emptyRoot aTopic)
open ConcurrentClients (Ordinary Broker connections connections_allowed produceOne send
  ordinary_send single_produceOne)
open RequestHandlers (Socket)
open SegmentCleaner (Phase clean stamp logName indexName suffix_ne indexName_eq)

/-- An append that was accepted, when, and the base of the log that it went to. -/
structure Filed where
  time : ℤ
  append : Accepted
  base : ℕ

/-- The accepted append of a call, and its time. -/
def stamped {ι : Type*} (e : ℤ × ι × BrokerEvent) : Option (ℤ × Accepted) :=
  (accepted e.2.2).map (e.1,·)

section Definitions
variable {ι : Type*}

/-- A record is in its log for the retention time, and its file was not modified
before it if it holds it. -/
structure Remembered (root : List Bytes) (retention : ℤ) (w : World ι) (t : Ledger)
    (x : Filed) : Prop where
  past : x.time ≤ w.clock
  held : w.clock < x.time+retention → window (t.content x.append.key x.base)
    x.append.offset.toNat (frame x.append.data).length = frame x.append.data
  dated : x.append.offset.toNat+(frame x.append.data).length ≤
      (w.disk.content (logPath (root++[x.append.key]) x.base)).length →
    x.time ≤ w.modified (logPath (root++[x.append.key]) x.base)

structure Retained (root : List Bytes) (cfg : SegmentConfig) (retention : ℤ) (w : World ι)
    (t : Ledger) (as : List Filed) : Prop where
  represents : Represents root cfg w.broker.state t
  newest : Newest t
  calls : ∀ i, (w.broker.threads i).Calls Allowed
  noted : w.since ≤ w.clock
  listed : as.map (fun x => (x.time,x.append)) = w.log.filterMap stamped
  records : ∀ x ∈ as, Remembered root retention w t x

/-- The cutoff is older than the retention time, and the log that is extended is
the one that was read or was modified since. -/
structure Cutoff (retention : ℤ) (w : World ι) (dir : List Bytes) (base b : ℕ) (c : ℤ) : Prop where
  spared : base = b ∨ c < w.modified (logPath dir base)
  old : c+retention ≤ w.clock

/-- A log that is going to be removed is an earlier one and was modified before
the cutoff. -/
structure Doomed (w : World ι) (dir : List Bytes) (base : ℕ) (c : ℤ) (name : Bytes) : Prop where
  log : ascii ".log" <:+ name
  earlier : ∀ x, logName x = name → x < base
  expired : ∀ x, logName x = name → w.modified (logPath dir x) ≤ c

/-- What holds in the middle of the call for a partition whose log with this base
is extended. -/
def Careful (retention : ℤ) (w : World ι) (dir : List Bytes) (base : ℕ) : Phase → Prop
  | .timing b => base = b ∨ w.since ≤ w.modified (logPath dir base)
  | .listing b c => Cutoff retention w dir base b c
  | .scanning b c _ => Cutoff retention w dir base b c
  | .removingLog b c name _ => Cutoff retention w dir base b c ∧ Doomed w dir base c name
  | .removingIndex b c name _ => Cutoff retention w dir base b c ∧ Doomed w dir base c name
  | _ => True

def Watched (root : List Bytes) (retention : ℤ) (w : World ι) (t : Ledger) : Prop :=
  ∀ key phase deleted tps, w.cleaner = .sweeping key phase deleted tps →
    ∃ base, t.active key = some base ∧ Careful retention w (root++[key]) base phase

end Definitions

/-! ## The clock -/

section
variable {ι : Type*} {root : List Bytes} {cfg : SegmentConfig} {retention : ℤ}
variable {w v : World ι} {t : Ledger} {as : List Filed} {key : Bytes} {base base' : ℕ}

theorem active_mem {b : Shared} (h : Represents root cfg b t) (ha : t.active key = some base) :
    logPath (root++[key]) base ∈ b.disk.files := by
  have hsome := h.isSome_iff key
  rw [ha,Option.isSome_some] at hsome
  obtain ⟨ps,hl⟩ := Option.isSome_iff_exists.mp hsome
  obtain ⟨base',hb,-,hdir,-,hf,-⟩ := h.log_of_lookup hl
  obtain rfl := Option.some.inj (ha.symm.trans hb)
  have hm := hf.holds.mem
  rw [hf.path,hdir] at hm
  exact hm

theorem stamp_cases (m : Path → ℤ) (now : ℤ) (d e : Disk) (q : Path) :
    (e.files.lookup q = d.files.lookup q ∧ stamp m now d e q = m q) ∨ stamp m now d e q = now := by
  unfold stamp
  by_cases hq : e.files.lookup q = d.files.lookup q
  · exact .inl ⟨hq,if_pos hq⟩
  · exact .inr (if_neg hq)

/-- Time passes and files are modified, earlier logs excepted. -/
theorem Careful.later {dir : List Bytes} {phase : Phase}
    (h : Careful retention w dir base phase) (hpos : 0 < retention) (hn : w.since ≤ w.clock)
    (hs : v.since = w.since) (hc : w.clock ≤ v.clock) (hle : base ≤ base')
    (hact : base' = base ∧ v.modified (logPath dir base) = w.modified (logPath dir base) ∨
      w.clock ≤ v.modified (logPath dir base'))
    (hold : ∀ x < base, v.modified (logPath dir x) = w.modified (logPath dir x)) :
    Careful retention v dir base' phase := by
  have hcut {b : ℕ} {c : ℤ} (h : Cutoff retention w dir base b c) :
      Cutoff retention v dir base' b c := by
    refine ⟨?_,h.old.trans hc⟩
    rcases hact with ⟨rfl,hm⟩|hm
    · rw [hm]
      exact h.spared
    · exact .inr (by have := h.old; omega)
  have hdoomed {c : ℤ} {name : Bytes} (h : Doomed w dir base c name) :
      Doomed v dir base' c name := by
    refine ⟨h.log,fun x hx => (h.earlier x hx).trans_le hle,fun x hx => ?_⟩
    rw [hold x (h.earlier x hx)]
    exact h.expired x hx
  cases phase with
  | timing b =>
      rcases hact with ⟨rfl,hm⟩|hm
      · exact Or.imp_right (fun hx => by rw [hs,hm]; exact hx) h
      · exact .inr (by rw [hs]; exact hn.trans hm)
  | listing b c => exact hcut h
  | scanning b c names => exact hcut h
  | removingLog b c name names => exact ⟨hcut h.1,hdoomed h.2⟩
  | removingIndex b c name names => exact ⟨hcut h.1,hdoomed h.2⟩
  | idle => trivial
  | done r => trivial

theorem Retained.tick (h : Retained root cfg retention w t as) (hw : Watched root retention w t)
    (hpos : 0 < retention) (n : ℕ) :
    Retained root cfg retention {w with clock := w.clock+n} t as ∧
      Watched root retention {w with clock := w.clock+n} t := by
  have hle : w.clock ≤ w.clock+n := by omega
  refine ⟨⟨h.represents,h.newest,h.calls,h.noted.trans hle,h.listed,fun x hx => ?_⟩,
    fun key phase deleted tps hc => ?_⟩
  · have hr := h.records x hx
    exact ⟨hr.past.trans hle,fun hlt => hr.held (hle.trans_lt hlt),hr.dated⟩
  · obtain ⟨base,ha,hcare⟩ := hw key phase deleted tps hc
    exact ⟨base,ha,hcare.later hpos h.noted rfl hle le_rfl (.inl ⟨rfl,rfl⟩) fun _ _ => rfl⟩

/-- What a window shows stays when more is appended. -/
theorem window_grows {bytes more data : Bytes} {o : ℕ} (hd : data ≠ [])
    (h : window bytes o data.length = data) : window (bytes++more) o data.length = data := by
  have hlen := congrArg List.length h
  have hpos := List.length_pos_of_ne_nil hd
  rw [window_length] at hlen
  rw [window_append_left _ (by omega),h]

theorem frame_ne_nil (data : Bytes) : frame data ≠ [] := by
  intro h
  have hlen := congrArg List.length h
  rw [frame_length,List.length_nil] at hlen
  omega

/-! ## The cleaner -/

theorem Remembered.forget {name : Bytes} {x : Filed} (h : Remembered root retention w t x)
    (hw : Represents root cfg w.broker.state t) (ha : t.active key = some base)
    (hne : logName base ≠ name) (hexp : ∀ c, logName c = name →
      w.modified (logPath (root++[key]) c)+retention ≤ w.clock) :
    Remembered root retention (w.withDisk (w.disk.remove ⟨root++[key],name⟩))
      (LogCleaner.forget t key name) x := by
  refine ⟨h.past,fun hlt => ?_,fun hle => ?_⟩
  · have hheld := h.held hlt
    rw [forget_content]
    split
    · next hx =>
      -- the file was closed and held the record, so it was modified too late to be removed
      obtain ⟨rfl,rfl⟩ := hx
      have hbase : x.base ≠ base := fun hb => hne (by rw [hb])
      have hlen := congrArg List.length hheld
      rw [window_length,frame_length] at hlen
      have hdisk : w.disk.content (logPath (root++[x.append.key]) x.base) =
          t.content x.append.key x.base := by
        rw [Disk.content,Ledger.content]
        exact congrArg (Option.getD · []) (closed_lookup hw ha hbase)
      have hdate := h.dated (by rw [hdisk,frame_length]; omega)
      have hold := hexp x.base rfl
      change w.clock < _ at hlt
      omega
    · exact hheld
  · by_cases hp : logPath (root++[x.append.key]) x.base = ⟨root++[key],name⟩
    · have hgone : (w.withDisk (w.disk.remove ⟨root++[key],name⟩)).disk.content
          (logPath (root++[x.append.key]) x.base) = [] := by
        rw [hp]
        exact Disk.content_remove_self _ _
      rw [hgone,frame_length,List.length_nil] at hle
      omega
    · refine h.dated (hle.trans_eq ?_)
      exact congrArg List.length (Disk.content_remove_ne hp)

theorem Retained.forget {name : Bytes} (h : Retained root cfg retention w t as)
    (ha : t.active key = some base) (hne : logName base ≠ name) (hexp : ∀ c, logName c = name →
      w.modified (logPath (root++[key]) c)+retention ≤ w.clock) :
    Retained root cfg retention (w.withDisk (w.disk.remove ⟨root++[key],name⟩))
      (LogCleaner.forget t key name) as :=
  ⟨represents_forget h.represents ha hne,h.newest.forget key name,h.calls,h.noted,h.listed,
    fun x hx => (h.records x hx).forget h.represents ha hne hexp⟩

theorem Retained.moved (h : Retained root cfg retention w t as) (c : Cleaner) {n : ℤ}
    (hn : n ≤ w.clock) : Retained root cfg retention {w with cleaner := c, since := n} t as :=
  ⟨h.represents,h.newest,h.calls,hn,h.listed,fun x hx =>
    ⟨(h.records x hx).past,(h.records x hx).held,(h.records x hx).dated⟩⟩

/-- A name that is listed and expired is the one of an earlier log. -/
theorem Cutoff.doomed {name : Bytes} {b : ℕ} {c : ℤ} (h : Retained root cfg retention w t as)
    (hcut : Cutoff retention w (root++[key]) base b c) (ha : t.active key = some base)
    (hlog : ascii ".log" <:+ name) (hb : name ≠ logName b)
    (hm : (⟨root++[key],name⟩ : Path) ∈ w.disk.files)
    (hold : w.modified ⟨root++[key],name⟩ ≤ c) : Doomed w (root++[key]) base c name := by
  refine ⟨hlog,fun x hx => ?_,fun x hx => by rw [← hx] at hold; exact hold⟩
  subst hx
  have hxb : x ≠ base := by
    rintro rfl
    rcases hcut.spared with rfl|hlt
    · exact hb rfl
    · exact absurd hold (not_le.mpr hlt)
  have hsome : (t.files key x).isSome := by
    rw [← closed_lookup h.represents ha hxb]
    exact Finmap.lookup_isSome.mpr hm
  have hle := h.newest key x hsome
  rw [ha,Option.getD_some] at hle
  omega

/-- A step of a call, after which the ledger may have forgotten a log. -/
theorem Retained.cleans {ps : PartitionStore} {phase phase' : Phase} {deleted : ℕ}
    {removed : Option Bytes} {c : Cleaner} (h : Retained root cfg retention w t as)
    (ha : t.active key = some base) (hf : Follows ps w.disk ⟨t.files key,base⟩)
    (hdir : ps.dir = root++[key]) (hcare : Careful retention w (root++[key]) base phase)
    (hprompt : ∀ b, phase = .timing b → w.clock < w.since+retention)
    (hcl : Cleans retention (w.part ps phase deleted) phase removed phase') :
    ∃ t', t'.active = t.active ∧ Retained root cfg retention
        {w.withDisk (without w.disk (root++[key]) removed) with
          cleaner := c
          since := if phase = .idle then w.clock else w.since} t' as ∧
      Careful retention {w.withDisk (without w.disk (root++[key]) removed) with
        cleaner := c
        since := if phase = .idle then w.clock else w.since} (root++[key]) base phase' := by
  have hsince : (if phase = .idle then w.clock else w.since) ≤ w.clock := by
    split
    · exact le_rfl
    · exact h.noted
  have hsame := h.moved c hsince
  cases hcl with
  | read => exact ⟨t,rfl,hsame,.inl hf.base.symm⟩
  | time b =>
      have hlt := hprompt b rfl
      refine ⟨t,rfl,hsame,hcare.imp_right fun hx => ?_,(Int.sub_add_cancel _ _).le⟩
      exact lt_of_lt_of_le (by omega : w.clock-retention < w.since) hx
  | list b c => exact ⟨t,rfl,hsame,hcare.spared,hcare.old⟩
  | finish b c => exact ⟨t,rfl,hsame,trivial⟩
  | skip _ => exact ⟨t,rfl,hsame,hcare.spared,hcare.old⟩
  | condemn hlog hne hm hold =>
      rw [show (w.part ps _ deleted).store.dir = root++[key] from hdir] at hm hold
      have hdoom := hcare.doomed h ha hlog hne hm hold
      exact ⟨t,rfl,hsame,⟨hcare.spared,hcare.old⟩,⟨hdoom.log,hdoom.earlier,hdoom.expired⟩⟩
  | removeLog b c' name names =>
      obtain ⟨hcut,hdoom⟩ := hcare
      have hforget := h.forget ha (fun hx => lt_irrefl _ (hdoom.earlier _ hx)) fun x hx => by
        have h₁ := hdoom.expired x hx
        have h₂ := hcut.old
        omega
      exact ⟨LogCleaner.forget t key name,rfl,hforget.moved c hsince,⟨hcut.spared,hcut.old⟩,
        ⟨hdoom.log,hdoom.earlier,hdoom.expired⟩⟩
  | removeIndex b c' name names =>
      obtain ⟨hcut,hdoom⟩ := hcare
      have hnot (x : ℕ) : logName x ≠ indexName name := by
        obtain ⟨stem,hstem⟩ := hdoom.log
        rw [indexName_eq hstem]
        exact suffix_ne
      have hforget := h.forget ha (hnot base) fun x hx => (hnot x hx).elim
      exact ⟨LogCleaner.forget t key (indexName name),rfl,hforget.moved c hsince,hcut.spared,
        hcut.old⟩

theorem Retained.sweep (h : Retained root cfg retention w t as) (hw : Watched root retention w t)
    (hprompt : w.promptStep retention .sweep) :
    ∃ t', Retained root cfg retention (w.sweep retention) t' as ∧
      Watched root retention (w.sweep retention) t' := by
  cases hc : w.cleaner with
  | waiting =>
      rw [sweep_waiting hc]
      exact ⟨t,h,hw⟩
  | visiting tps =>
      cases tps with
      | nil =>
          rw [sweep_end hc]
          exact ⟨t,h.moved _ h.noted,fun _ _ _ _ hx => by cases hx⟩
      | cons tp tps =>
          cases hl : w.lookup (partitionKey tp.topic tp.partition) with
          | none =>
              rw [sweep_absent hc hl]
              exact ⟨t,h.moved _ h.noted,fun _ _ _ _ hx => by cases hx⟩
          | some ps =>
              rw [sweep_enter hc hl]
              obtain ⟨base,ha,-⟩ := h.represents.log_of_lookup hl
              refine ⟨t,h.moved _ h.noted,fun _ _ _ _ hx => ?_⟩
              cases hx
              exact ⟨base,ha,trivial⟩
  | sweeping key phase deleted tps =>
      obtain ⟨base,ha,hcare⟩ := hw key phase deleted tps hc
      by_cases hdone : ∃ r, phase = .done r
      · obtain ⟨r,rfl⟩ := hdone
        rw [sweep_return hc]
        exact ⟨t,h.moved _ h.noted,fun _ _ _ _ hx => by cases hx⟩
      · have hnot : ∀ r, phase ≠ .done r := fun r hr => hdone ⟨r,hr⟩
        have htime (b : ℕ) (hb : phase = .timing b) : w.clock < w.since+retention := by
          subst hb
          simpa [World.promptStep,hc] using hprompt
        obtain ⟨ps,removed,phase',deleted',hf,hdir,hcl,hs⟩ :=
          sweep_step retention h.represents ha hc hnot
        obtain ⟨t',hact,hret,hcare'⟩ := h.cleans ha hf hdir hcare htime hcl
        rw [hs]
        refine ⟨t',hret,fun _ _ _ _ hx => ?_⟩
        cases hx
        exact ⟨base,by rw [hact,ha],hcare'⟩

/-! ## The clients -/

variable [DecidableEq ι]

/-- A client has taken this call. -/
structure Called (w v : World ι) (i : ι) (o : Op)
    (next : Op.Reply o → BrokerProgram (Option Socket)) : Prop where
  thread : w.broker.threads i = .call o next
  threads : v.broker.threads =
    Function.update w.broker.threads i (next (respond o w.broker.state).1)
  state : v.broker.state = (respond o w.broker.state).2
  modified : v.modified = stamp w.modified w.clock w.disk v.disk
  clock : v.clock = w.clock
  cleaner : v.cleaner = w.cleaner
  since : v.since = w.since
  log : v.log = w.log++[(w.clock,i,⟨o,(respond o w.broker.state).1⟩)]

section Calling
variable {t' : Ledger} {i : ι} {o : Op} {next : Op.Reply o → BrokerProgram (Option Socket)}
variable {bs : List (Accepted × ℕ)}

theorem Called.older (hv : Called w v i o next) (hj : Journal t t' bs) {x : Filed}
    (hx : Remembered root retention w t x) : Remembered root retention v t' x := by
  refine ⟨hv.clock.ge.trans' hx.past,fun hlt => ?_,fun hle => ?_⟩
  · rw [hv.clock] at hlt
    rw [hj.content]
    exact window_grows (frame_ne_nil _) (hx.held hlt)
  · rw [hv.modified]
    rcases stamp_cases w.modified w.clock w.disk v.disk
      (logPath (root++[x.append.key]) x.base) with ⟨hsame,heq⟩|heq
    · rw [heq]
      rw [Disk.content,hsame] at hle
      exact hx.dated hle
    · rw [heq]
      exact hx.past

/-- A record that has just been accepted lies behind all that was in the file. -/
theorem Called.newer (hv : Called w v i o next) (hw : Represents root cfg w.broker.state t)
    (hj : Journal t t' bs) {a : Accepted} (ha : (a,base) ∈ bs) :
    Remembered root retention v t' ⟨w.clock,a,base⟩ := by
  refine ⟨hv.clock.ge,fun _ => hj.window ha,fun hle => ?_⟩
  rw [hv.modified]
  rcases stamp_cases w.modified w.clock w.disk v.disk (logPath (root++[a.key]) base) with
    ⟨hsame,-⟩|heq
  · obtain ⟨n,hn⟩ := List.mem_iff_getElem?.mp ha
    have hoff := hj.offset n a base hn
    have hdisk : (w.disk.content (logPath (root++[a.key]) base)).length ≤
        (t.content a.key base).length := disk_content_le hw a.key base
    rw [List.length_append] at hoff
    rw [Disk.content,hsame,← Disk.content,frame_length] at hle
    simp only at hle
    omega
  · exact heq.ge

/-- The log that is extended was modified now, or not at all. -/
theorem Called.active (hv : Called w v i o next) (hw : Represents root cfg w.broker.state t)
    (hr : Represents root cfg v.broker.state t') (ha : t.active key = some base)
    (ha' : t'.active key = some base') (hfresh : base' = base ∨ t.files key base' = none) :
    base' = base ∧ v.modified (logPath (root++[key]) base) =
        w.modified (logPath (root++[key]) base) ∨
      w.clock ≤ v.modified (logPath (root++[key]) base') := by
  rw [hv.modified]
  rcases stamp_cases w.modified w.clock w.disk v.disk (logPath (root++[key]) base') with
    ⟨hsame,heq⟩|heq
  · by_cases hbb : base' = base
    · subst hbb
      exact .inl ⟨rfl,heq⟩
    · -- a new log was not there before
      have hnone : w.disk.files.lookup (logPath (root++[key]) base') = none :=
        (closed_lookup hw ha hbb).trans (hfresh.resolve_left hbb)
      have hin := Finmap.lookup_isSome.mpr (active_mem hr ha')
      rw [show v.broker.state.disk.files.lookup _ = _ from hsame,hnone] at hin
      cases hin
  · exact .inr heq.ge

theorem Called.watched (hv : Called w v i o next) (hpos : 0 < retention)
    (h : Retained root cfg retention w t as) (hw : Watched root retention w t)
    (hr : Represents root cfg v.broker.state t') (hon : Onward t t') :
    Watched root retention v t' := by
  intro key phase deleted tps hc
  rw [hv.cleaner] at hc
  obtain ⟨base,ha,hcare⟩ := hw key phase deleted tps hc
  obtain ⟨base',ha',hle,hfresh,hbefore⟩ := hon key base ha
  refine ⟨base',ha',hcare.later hpos h.noted hv.since hv.clock.ge hle
    (hv.active h.represents hr ha ha' hfresh) fun x hx => ?_⟩
  have hsame : v.disk.files.lookup (logPath (root++[key]) x) =
      w.disk.files.lookup (logPath (root++[key]) x) :=
    (closed_lookup hr ha' (by omega)).trans
      ((hbefore x hx).trans (closed_lookup h.represents ha hx.ne).symm)
  rw [hv.modified]
  exact if_pos hsame

theorem Retained.call (h : Retained root cfg retention w t as) (hw : Watched root retention w t)
    (hpos : 0 < retention) (hv : Called w v i o next) :
    ∃ t' as', Retained root cfg retention v t' as' ∧ Watched root retention v t' := by
  have hcalls := h.calls i
  rw [hv.thread] at hcalls
  obtain ⟨t',hstep,hrep⟩ := represents_simulates root cfg _ t o h.represents hcalls.1
  obtain ⟨bs,hbs,hj⟩ := step_journal hstep
  obtain ⟨hnew,hon⟩ := step_onward h.newest hstep
  rw [← hv.state] at hrep
  refine ⟨t',as++bs.map fun x => ⟨w.clock,x.1,x.2⟩,⟨hrep,hnew,fun j => ?_,?_,?_,fun x hx => ?_⟩,
    hv.watched hpos h hw hrep hon⟩
  · rw [hv.threads]
    by_cases hji : j = i
    · subst hji
      rw [Function.update_self]
      exact hcalls.2 _
    · rw [Function.update_of_ne hji]
      exact h.calls j
  · rw [hv.since,hv.clock]
    exact h.noted
  · have hnewly : (bs.map fun x => (w.clock,x.1)) =
        (accepted ⟨o,(respond o w.broker.state).1⟩).toList.map (w.clock,·) := by
      rw [← hbs,List.map_map]
      rfl
    rw [hv.log,List.map_append,h.listed,List.filterMap_append,List.map_map]
    refine congrArg _ (hnewly.trans ?_)
    simp only [stamped,List.filterMap_cons,List.filterMap_nil]
    cases accepted ⟨o,(respond o w.broker.state).1⟩ <;> rfl
  · rcases List.mem_append.mp hx with hx|hx
    · exact hv.older hj (h.records x hx)
    · obtain ⟨⟨a,base⟩,hmem,rfl⟩ := List.mem_map.mp hx
      exact hv.newer h.represents hj hmem

end Calling

theorem Retained.client (h : Retained root cfg retention w t as) (hw : Watched root retention w t)
    (hpos : 0 < retention) {i : ι} (hv : w.step retention (.client i) = some v) :
    ∃ t' as', Retained root cfg retention v t' as' ∧ Watched root retention v t' := by
  simp only [World.step,Option.some.injEq] at hv
  cases hi : w.broker.threads i with
  | done a =>
      have hstep : w.broker.step respond i = ([],w.broker) := by
        unfold Pool.step
        rw [hi]
      have hm : stamp w.modified w.clock w.disk w.disk = w.modified := funext fun _ => if_pos rfl
      rw [hstep] at hv
      simp only [List.map_nil,List.append_nil] at hv
      have hdisk : w.broker.state.disk = w.disk := rfl
      rw [hdisk,hm] at hv
      subst hv
      exact ⟨t,as,h,hw⟩
  | call o next =>
      have hstep : w.broker.step respond i = ([(i,⟨o,(respond o w.broker.state).1⟩)],
          ⟨Function.update w.broker.threads i (next (respond o w.broker.state).1),
            (respond o w.broker.state).2⟩) := by
        unfold Pool.step
        rw [hi]
      rw [hstep] at hv
      subst hv
      exact h.call hw hpos ⟨hi,rfl,rfl,rfl,rfl,rfl,rfl,rfl⟩

/-! ## Whole runs -/

theorem Retained.step (h : Retained root cfg retention w t as) (hw : Watched root retention w t)
    (hpos : 0 < retention) {m : Move ι} (hv : w.step retention m = some v)
    (hprompt : w.promptStep retention m) :
    ∃ t' as', Retained root cfg retention v t' as' ∧ Watched root retention v t' := by
  cases m with
  | client i => exact h.client hw hpos hv
  | tick n =>
      obtain rfl := Option.some.inj hv
      exact ⟨t,as,h.tick hw hpos n⟩
  | wake tps =>
      simp only [World.step] at hv
      split at hv
      · obtain rfl := Option.some.inj hv
        exact ⟨t,as,h.moved _ h.noted,fun _ _ _ _ hx => by cases hx⟩
      · cases hv
  | sweep =>
      obtain rfl := Option.some.inj hv
      obtain ⟨t',hret,hwatch⟩ := h.sweep hw hprompt
      exact ⟨t',as,hret,hwatch⟩

theorem Retained.run (h : Retained root cfg retention w t as) (hw : Watched root retention w t)
    (hpos : 0 < retention) {ms : List (Move ι)} (hv : w.run retention ms = some v)
    (hprompt : w.prompt retention ms) :
    ∃ t' as', Retained root cfg retention v t' as' := by
  induction ms generalizing w t as with
  | nil =>
      obtain rfl := Option.some.inj hv
      exact ⟨t,as,h⟩
  | cons m ms ih =>
      obtain ⟨u,hu,huv⟩ := Option.bind_eq_some_iff.mp hv
      rw [World.prompt,hu,Option.all_some,Bool.and_eq_true] at hprompt
      obtain ⟨t',as',hret,hwatch⟩ := h.step hw hpos hu hprompt.1
      exact ih hret hwatch huv hprompt.2

/-- What a client does depends on its own calls only. -/
theorem run_path {ms : List (Move ι)} (hv : w.run retention ms = some v) (i : ι) :
    ∃ es, v.log = w.log++es ∧
      Path (w.broker.threads i) (own i (es.map Prod.snd)) (v.broker.threads i) := by
  induction ms generalizing w with
  | nil =>
      obtain rfl := Option.some.inj hv
      exact ⟨[],(List.append_nil _).symm,.nil _⟩
  | cons m ms ih =>
      obtain ⟨u,hu,huv⟩ := Option.bind_eq_some_iff.mp hv
      obtain ⟨es,hlog,hpath⟩ := ih huv
      cases m with
      | client j =>
          obtain rfl := Option.some.inj hu
          refine ⟨(w.broker.step respond j).1.map (w.clock,·)++es,?_,?_⟩
          · rw [hlog,List.append_assoc]
          · have hsnd : (Prod.snd ∘ fun x : ι × BrokerEvent => (w.clock,x)) = id := rfl
            rw [List.map_append,own_append,List.map_map,hsnd,List.map_id]
            exact (step_path respond w.broker j i).append hpath
      | tick n =>
          obtain rfl := Option.some.inj hu
          exact ⟨es,hlog,hpath⟩
      | wake tps =>
          simp only [World.step] at hu
          split at hu
          · obtain rfl := Option.some.inj hu
            exact ⟨es,hlog,hpath⟩
          · cases hu
      | sweep =>
          obtain rfl := Option.some.inj hu
          obtain ⟨d,c,n,hs⟩ := sweep_eq retention w
          rw [hs] at hlog hpath
          exact ⟨es,hlog,hpath⟩

end

/-- However connections, clock and cleaner are interleaved, a record that was
accepted within the retention time is in a log of its partition at its offset, and a
connection that has ended has appended what its responses tell of. -/
theorem recent_records_kept {ι : Type*} [DecidableEq ι] {root : List Bytes} {cfg : SegmentConfig}
    {b : Shared} {s : Ledger} (hb : Represents root cfg b s) (hs : Newest s) {retention : ℤ}
    (hpos : 0 < retention) (advertisedHost : Bytes) (inputs : ι → Bytes × Socket)
    (hn : Ordinary inputs) (modified : Path → ℤ) (clock : ℤ) {ms : List (Move ι)} {w : World ι}
    (hr : (World.start (connections advertisedHost inputs b) modified clock).run retention ms =
      some w)
    (hp : (World.start (connections advertisedHost inputs b) modified clock).prompt
      retention ms) :
    ∃ t, Represents root cfg w.broker.state t ∧
      (∀ e ∈ w.log, ∀ a, accepted e.2.2 = some a → w.clock < e.1+retention →
        ∃ base, window (t.content a.key base) a.offset.toNat (frame a.data).length =
          frame a.data) ∧
      ∀ i k, w.broker.threads i = .done (some k) →
        ∃ n resps, Served advertisedHost (requests (inputs i).1) (inputs i).2
            (own i (w.log.map Prod.snd)) k n resps ∧
          Each Acks (((requests (inputs i).1).take n).map Prod.snd) resps
            ((own i (w.log.map Prod.snd)).filterMap accepted) := by
  have hstart : Retained root cfg retention
      (World.start (connections advertisedHost inputs b) modified clock) s [] :=
    ⟨hb,hs,connections_allowed hn,le_rfl,rfl,fun x hx => (List.not_mem_nil hx).elim⟩
  obtain ⟨t,as,hret⟩ := hstart.run (fun _ _ _ _ hx => by cases hx) hpos hr hp
  refine ⟨t,hret.represents,fun e he a ha hlt => ?_,fun i k hk => ?_⟩
  · have hmem : (e.1,a) ∈ w.log.filterMap stamped :=
      List.mem_filterMap.mpr ⟨e,he,by rw [stamped,ha]; rfl⟩
    rw [← hret.listed] at hmem
    obtain ⟨x,hx,heq⟩ := List.mem_map.mp hmem
    obtain ⟨htime,rfl⟩ := Prod.mk.inj heq
    exact ⟨x.base,(hret.records x hx).held (by rw [htime]; exact hlt)⟩
  · obtain ⟨es,hlog,hpath⟩ := run_path hr i
    obtain rfl : w.log = es := hlog.trans (List.nil_append es)
    rw [hk] at hpath
    obtain ⟨n,resps,hserved⟩ := connection_served hpath
    exact ⟨n,resps,hserved,hserved.each.filterMap fun _ _ _ => serve_acks⟩

/-- A broker whose segments have room for one empty batch. -/
def narrow : Shared := ⟨newHandler ⟨[],⟨4⟩,∅⟩,emptyRoot,fun _ => 0⟩

theorem represents_narrow : Represents [] ⟨4⟩ narrow .blank :=
  represents_blank ⟨4⟩ rfl fun _ _ => rfl

/-- One client produces twice and the other one once. -/
def threeBatches (i : Bool) : Bytes × Socket :=
  send (if i then [produceOne 1 1,produceOne 1 3] else [produceOne 1 2])

theorem ordinary_threeBatches : Ordinary threeBatches := by
  refine fun i => ordinary_send fun c hc topic ht => ?_
  obtain ⟨correlationID,rfl⟩ : ∃ correlationID, c = produceOne 1 correlationID := by
    cases i with
    | true => exact (List.mem_pair.mp hc).elim (fun h => ⟨1,h⟩) fun h => ⟨3,h⟩
    | false => exact ⟨2,List.mem_singleton.mp hc⟩
  exact single_produceOne ht

/-- Two segments are filled, time passes, and a third one is opened in the middle
of a sweep. -/
def overtakenSweep : List (Move Bool) :=
  [.client true,.client true,.client true,.client false,.client false,.tick 20,
    .wake [⟨ascii "t",0⟩],.sweep,.sweep,.sweep,.client true,.client true,.sweep,.sweep,.sweep,
    .sweep,.sweep,.sweep,.sweep,.sweep,.sweep,.sweep,.sweep,.sweep]

/-- The sweep removes the first segment, and the last record is kept. -/
theorem recent_records_kept_overtaken :
    ∃ w, (World.start (connections [] threeBatches narrow) (fun _ => 0) 0).run 10
        overtakenSweep = some w ∧ w.cleaner = .waiting ∧
      logPath [ascii "t-0"] 0 ∉ w.disk.files ∧
      w.log.filterMap stamped = [(0,⟨ascii "t",0,[],0⟩),(0,⟨ascii "t",0,[],0⟩),
        (20,⟨ascii "t",0,[],0⟩)] ∧
      ∃ t, Represents [] ⟨4⟩ w.broker.state t ∧
        (∀ e ∈ w.log, ∀ a, accepted e.2.2 = some a → w.clock < e.1+10 →
          ∃ base, window (t.content a.key base) a.offset.toNat (frame a.data).length =
            frame a.data) ∧
        ∀ i k, w.broker.threads i = .done (some k) →
          ∃ n resps, Served [] (requests (threeBatches i).1) (threeBatches i).2
              (own i (w.log.map Prod.snd)) k n resps ∧
            Each Acks (((requests (threeBatches i).1).take n).map Prod.snd) resps
              ((own i (w.log.map Prod.snd)).filterMap accepted) := by
  have hrun : ((World.start (connections [] threeBatches narrow) (fun _ => 0) 0).run 10
      overtakenSweep).map (fun w => (w.cleaner,decide (logPath [ascii "t-0"] 0 ∈ w.disk.files),
        w.log.filterMap stamped)) = some (.waiting,false,[(0,⟨ascii "t",0,[],0⟩),
          (0,⟨ascii "t",0,[],0⟩),(20,⟨ascii "t",0,[],0⟩)]) := by decide +kernel
  have hprompt : (World.start (connections [] threeBatches narrow) (fun _ => 0)
      0).prompt 10 overtakenSweep = true := by decide +kernel
  obtain ⟨w,hw,heq⟩ := Option.map_eq_some_iff.mp hrun
  obtain ⟨hc,heq⟩ := Prod.mk.inj heq
  obtain ⟨hf,hl⟩ := Prod.mk.inj heq
  have hnewest : Newest .blank := fun _ _ hb => by cases hb
  exact ⟨w,hw,hc,of_decide_eq_false hf,hl,recent_records_kept represents_narrow hnewest
    (by decide) [] threeBatches ordinary_threeBatches _ 0 hw hprompt⟩

end Kage.RetainedRecords
