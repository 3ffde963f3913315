import Kage.BootedBroker
import Kage.FetchedBatches
import Kage.VisibleOffsets

/-!
# A broker over its lifetimes

Clients are served for a while, in any interleaving, and some of them may not
have finished when the broker goes down. It is stopped, which writes the buffers
out, or it crashes, which may lose what is in them. Then it is started over the
files that are left, and clients are served again.

As long as it is only stopped, the files account for every append that was ever
accepted. A crash may take the ends of the active files, but what a fetch has
returned once is in the file and stays there. As long as no crash cuts a record of
the log of offsets in two, the broker knows only offsets that records say which
were appended to it.
-/
namespace Kage.BrokerLifetimes
open ByteStrings LengthPrefixed FaultyDisk SparseIndex SegmentLog PartitionLog BrokerStores
open DirectoryNames
open RecordBatches FetchHandler FetchServing OffsetRecords OffsetHandlers OffsetStorage
open RequestParsers AtomicPrograms BrokerPrograms BrokerLedger LedgerJournal ClientSessions
open AcknowledgedRecords FetchedBatches VisibleOffsets BootedBroker
open OffsetCrash (boot)
open RequestHandlers (Socket)
open ConcurrentClients (Ordinary Broker connections ended ended_eq_some trace trace_calls
  exec_simulated exec_served own_sublist)

/-- Sessions, and the broker going down in one of these ways in between. The
events are those of all sessions. -/
inductive Lives (root : List Bytes) (cfg : SegmentConfig) (down : Shared → Disk → Prop) :
    Shared → List BrokerEvent → Shared → Prop
  | nil (b : Shared) : Lives root cfg down b [] b
  | session {ι : Type} [DecidableEq ι] {b c : Shared} {es : List BrokerEvent}
      (advertisedHost : Bytes) (inputs : ι → Bytes × Socket) (schedule : List ι) :
      Ordinary inputs →
      Lives root cfg down
        ((connections advertisedHost inputs b).exec respond schedule).2.state es c →
      Lives root cfg down b (trace (connections advertisedHost inputs b) schedule++es) c
  | reboot {b c : Shared} {es : List BrokerEvent} {d e : Disk} {h : Handler} : down b d →
      boot root cfg d = .ok (h,e) → Lives root cfg down ⟨h,e,fun _ => 0⟩ es c →
      Lives root cfg down b es c

/-! ## One step -/

/-- What was durable is still there, and durable. -/
def Preserves (s t : Ledger) : Prop :=
  ∀ k base n, Durable s k base n →
    Durable t k base n ∧ (t.content k base).take n = (s.content k base).take n

section
variable {root : List Bytes} {cfg : SegmentConfig} {b : Shared} {s t u : Ledger} {d e : Disk}
variable {es : List BrokerEvent} {h : Handler}

theorem Preserves.trans (h : Preserves s t) (k : Preserves t u) : Preserves s u := by
  intro x base n hd
  obtain ⟨hd₁,hc₁⟩ := h x base n hd
  obtain ⟨hd₂,hc₂⟩ := k x base n hd₁
  exact ⟨hd₂,hc₂.trans hc₁⟩

theorem Preserves.of_runs (h : Runs (Ledger.Step cfg) s es t) : Preserves s t := by
  intro k base n hd
  obtain ⟨as,-,hj⟩ := runs_journal h
  refine ⟨runs_durable h hd,?_⟩
  rw [hj.content,List.take_append_of_le_length hd.1]

/-- What is durable is in the file. -/
theorem durable_filed (h : Represents root cfg b s) {k : Bytes} {base n : ℕ}
    (hd : Durable s k base n) :
    (b.disk.content (logPath (root++[k]) base)).take n = (s.content k base).take n := by
  cases hl : b.handler.store.stores.lookup k with
  | none =>
      obtain ⟨-,-,hseg⟩ := h.log_of_none hl
      rw [Ledger.content,← hseg]
      rfl
  | some ps =>
      obtain ⟨base',ha,-,hdir,-,hf,hw⟩ := h.log_of_lookup hl
      by_cases hb : base = base'
      · subst hb
        have hbytes : ps.active.bytes b.disk = s.content k base := hf.holds.bytes
        rw [← hbytes,Segment.bytes,List.take_append_of_le_length (by rw [hw]; exact hd.2 ha),
          hf.path,hdir]
      · have ho : segments (root++[k]) b.disk base = s.files k base := hdir ▸ hf.others base hb
        rw [Ledger.content,← ho]
        rfl

/-- A broker that was stopped has left its logs in the files. -/
theorem stopped_content (hb : Kept root cfg b s) (hd : Stopped b d) (k : Bytes) (base : ℕ) :
    d.content (logPath (root++[k]) base) = s.content k base := by
  obtain ⟨-,-,-,hseg⟩ := hb.stopped hd
  exact congrArg (Option.getD · []) (congrFun (hseg k) base)

/-- A broker that was stopped comes back with the same files. -/
theorem kept_restarts (hb : Kept root cfg b s) (hd : Stopped b d)
    (hboot : boot root cfg d = .ok (h,e)) :
    ∃ t, Kept root cfg ⟨h,e,fun _ => 0⟩ t ∧ (∀ P, Logs P t → Spelled P t.offsets) ∧
      Preserves s t ∧
      (∀ k base, t.content k base = s.content k base) ∧
      ∀ k, (decodeName k).isSome → (s.active k).isSome → (t.active k).isSome := by
  obtain ⟨hh,hs,hsub,hseg⟩ := hb.stopped hd
  obtain ⟨t,ht,hset,hback,hc,hopen⟩ := boot_kept hh hs
    (fun k base bytes hx => hb.represents.small k base bytes (by rw [← hseg]; exact hx)) hboot
  have hsame (k : Bytes) (base : ℕ) : t.content k base = s.content k base := by
    rw [hc,← stopped_content hb hd]
    rfl
  refine ⟨t,ht,hback,fun k base n hdur => ⟨hset.durable (by rw [hsame]; exact hdur.1),
    by rw [hsame]⟩,hsame,fun k hk hx => hopen k ?_ hk⟩
  rw [hsub]
  exact hb.listed k hx

/-- The log of offsets on the disk is made of whole records. -/
def Whole (root : List Bytes) (d : Disk) : Prop :=
  ∀ base bytes, segments (root++[offsetsName]) d base = some bytes → Framed (fun _ => True) bytes

/-- A broker that has crashed comes back with what was durable, and with records of
the log of offsets that it had. -/
theorem kept_recovers (hb : Kept root cfg b s) (hd : Crashed b d)
    (hboot : boot root cfg d = .ok (h,e)) :
    ∃ t, Kept root cfg ⟨h,e,fun _ => 0⟩ t ∧ (∀ P, Logs P t → Spelled P t.offsets) ∧
      Preserves s t ∧ (Whole root d → ∀ P, Logs P s → Logs P t) := by
  have hshort : Short root d := by
    intro k base bytes hx
    obtain ⟨n,-,hseg⟩ := hb.crashed hd k
    rw [hseg] at hx
    split at hx
    · obtain rfl := Option.some.inj hx
      have hcontent := hb.represents.content_small k base
      rw [List.length_take]
      omega
    · exact hb.represents.small k base bytes hx
  obtain ⟨t,ht,hset,hspelled,hc,-⟩ :=
    boot_kept hd.healthy (hb.shelved.of_dirs hd.dirs) hshort hboot
  refine ⟨t,ht,hspelled,fun k base n hdur => ?_,fun hw P hP base => ?_⟩
  · have htake : (t.content k base).take n = (s.content k base).take n := by
      obtain ⟨m,hm,hseg⟩ := hb.crashed hd k
      rw [hc,hseg]
      split
      · rename_i ha
        rw [Option.getD_some,List.take_take,Nat.min_eq_left ((hdur.2 ha).trans hm)]
      · rfl
    refine ⟨hset.durable ?_,htake⟩
    have hlen := congrArg List.length htake
    rw [List.length_take_of_le hdur.1,List.length_take] at hlen
    omega
  · obtain ⟨m,-,hseg⟩ := hb.crashed hd offsetsName
    have hbase := hseg base
    rw [hc,hbase]
    split
    · rename_i ha
      rw [if_pos ha] at hbase
      exact (hP base).cut (hw base _ hbase)
    · exact hP base

/-! ## All lifetimes -/

/-- While the broker is only stopped, the accepted appends account for the files. -/
theorem lives_journal {c : Shared} (hl : Lives root cfg Stopped b es c)
    (hb : Kept root cfg b s) :
    ∃ t as, Kept root cfg c t ∧ Journal s t as ∧ as.map Prod.fst = es.filterMap accepted ∧
      ∀ k, (decodeName k).isSome → (s.active k).isSome → (t.active k).isSome := by
  induction hl generalizing s with
  | nil b => exact ⟨s,[],hb,.of_same fun _ _ => rfl,rfl,fun _ _ hk => hk⟩
  | session advertisedHost inputs schedule hn _ ih =>
      obtain ⟨t,hruns,ht⟩ := exec_simulated (kept_simulates root cfg) advertisedHost hb hn schedule
      obtain ⟨as,has,hj⟩ := runs_journal hruns
      obtain ⟨u,bs,hu,hk,hbs,hopen⟩ := ih ht
      refine ⟨u,as++bs,hu,hj.trans hk,?_,fun k hx ha => hopen k hx (runs_isSome hruns ha)⟩
      rw [List.map_append,has,hbs,List.filterMap_append]
  | reboot hd hboot _ ih =>
      obtain ⟨t,ht,-,-,hsame,hopen⟩ := kept_restarts hb hd hboot
      obtain ⟨u,as,hu,hk,has,hopen'⟩ := ih ht
      exact ⟨u,as,hu,(Journal.of_same hsame).trans hk,has,
        fun k hx ha => hopen' k hx (hopen k hx ha)⟩

/-- The broker was stopped or has crashed. -/
def Down (b : Shared) (d : Disk) : Prop := Stopped b d ∨ Crashed b d

/-- Whatever happens, durable bytes stay. -/
theorem lives_preserves {c : Shared} (hl : Lives root cfg Down b es c) (hb : Kept root cfg b s) :
    ∃ t, Kept root cfg c t ∧ Preserves s t := by
  induction hl generalizing s with
  | nil b => exact ⟨s,hb,fun _ _ _ hd => ⟨hd,rfl⟩⟩
  | session advertisedHost inputs schedule hn _ ih =>
      obtain ⟨t,hruns,ht⟩ := exec_simulated (kept_simulates root cfg) advertisedHost hb hn schedule
      obtain ⟨u,hu,hp⟩ := ih ht
      exact ⟨u,hu,(Preserves.of_runs hruns).trans hp⟩
  | reboot hd hboot _ ih =>
      obtain ⟨t,ht,hp⟩ : ∃ t, Kept root cfg _ t ∧ Preserves s t := by
        rcases hd with hd|hd
        · obtain ⟨t,ht,-,hp,-⟩ := kept_restarts hb hd hboot
          exact ⟨t,ht,hp⟩
        · obtain ⟨t,ht,-,hp,-⟩ := kept_recovers hb hd hboot
          exact ⟨t,ht,hp⟩
      obtain ⟨u,hu,hp'⟩ := ih ht
      exact ⟨u,hu,hp.trans hp'⟩

/-- The broker was stopped, or has crashed and left whole records of offsets. -/
def Clean (root : List Bytes) (b : Shared) (d : Disk) : Prop :=
  Stopped b d ∨ Crashed b d ∧ Whole root d

/-- What is held and durable stays in the file. -/
theorem held_filed {k : Bytes} {base : ℕ} {offset : Int64} {batch : Bytes}
    (h : Held s k base offset batch)
    (hd : Durable s k base (offset.toInt.toNat+(recHdr+batch.length))) (hp : Preserves s t)
    (ht : Represents root cfg b t) :
    ∃ raw, recHdr ≤ raw.length ∧ batch = patch offset.toUInt64 (raw.drop recHdr) ∧
      window (b.disk.content (logPath (root++[k]) base)) offset.toInt.toNat raw.length = raw := by
  obtain ⟨raw,hw,hlen,hb⟩ := h.bytes
  have hraw : raw.length = recHdr+batch.length := by
    rw [hb,patch,patchLoop_length,List.length_drop,Nat.add_sub_cancel' hlen]
  obtain ⟨hdur,hc⟩ := hp k base _ hd
  refine ⟨raw,hlen,hb,?_⟩
  rw [← window_take _ (Nat.add_le_add_left hraw.le _),durable_filed ht hdur,hc,
    window_take _ (by rw [hraw]),hw]

end

/-- A broker that is started over the files of an earlier one, and only stopped
in an orderly way, keeps all that they hold and adds the appends that it accepts,
in order, each where its offset says; when it is stopped, all of this is in the
files; and its partitions stay. -/
theorem restarts_keep_records {root : List Bytes} {cfg : SegmentConfig} {d e : Disk} {h : Handler}
    (hd : d.Healthy) (hs : Shelved root d) (hshort : Short root d)
    (hboot : boot root cfg d = .ok (h,e)) {es : List BrokerEvent} {c : Shared}
    (hl : Lives root cfg Stopped ⟨h,e,fun _ => 0⟩ es c) :
    ∃ t as, Represents root cfg c t ∧ as.map Prod.fst = es.filterMap accepted ∧
      (∀ k base, t.content k base =
        d.content (logPath (root++[k]) base)++gained as k base) ∧
      (∀ a base, (a,base) ∈ as → window (t.content a.key base) a.offset.toNat
        (frame a.data).length = frame a.data) ∧
      (∀ d', Stopped c d' → ∀ k base, d'.content (logPath (root++[k]) base) =
        t.content k base) ∧
      ∀ k ∈ d.subdirectories root, (decodeName k).isSome → (t.active k).isSome := by
  obtain ⟨s,hk,-,-,hc,hopen⟩ := boot_kept hd hs hshort hboot
  obtain ⟨t,as,ht,hj,has,hopen'⟩ := lives_journal hl hk
  refine ⟨t,as,ht.represents,has,fun k base => ?_,fun a base ha => hj.window ha,
    fun d' hd' => stopped_content ht hd',fun k hm hx => hopen' k hx (hopen k hm hx)⟩
  rw [hj.content,hc]
  rfl

/-- The producer is served, and then the consumer. -/
def turns : List Bool := [true,true,true,false,false,false,false]

/-- A broker starts, serves two clients, and goes down. -/
def afterSession (inputs : Bool → Bytes × Socket) (schedule : List Bool)
    (next : Shared → Except Err (Handler × Disk)) : Except Err (Handler × Disk) :=
  match boot [] ⟨0⟩ bare with
  | .error x => .error x
  | .ok (h,e) => next ((connections [] inputs ⟨h,e,fun _ => 0⟩).exec respond schedule).2.state

theorem afterSession_ok {inputs : Bool → Bytes × Socket} {schedule : List Bool}
    {next : Shared → Except Err (Handler × Disk)}
    (h : (afterSession inputs schedule next).isOk = true) :
    ∃ h e h' e', boot [] ⟨0⟩ bare = .ok (h,e) ∧
      next ((connections [] inputs ⟨h,e,fun _ => 0⟩).exec respond schedule).2.state =
        .ok (h',e') := by
  unfold afterSession at h
  rcases hb : boot [] ⟨0⟩ bare with x|⟨h₁,e₁⟩
  · rw [hb] at h
    cases h
  · rw [hb] at h
    rcases hn : next ((connections [] inputs ⟨h₁,e₁,fun _ => 0⟩).exec respond schedule).2.state with
      x|⟨h₂,e₂⟩
    · simp only [hn] at h
      cases h
    · exact ⟨h₁,e₁,h₂,e₂,rfl,hn⟩

theorem stopped_of_restart {root : List Bytes} {cfg : SegmentConfig} {b : Shared} {h : Handler}
    {e : Disk} (hr : OffsetRestart.restart root cfg b.handler b.disk = .ok (h,e)) :
    ∃ d, Stopped b d ∧ boot root cfg d = .ok (h,e) := by
  unfold OffsetRestart.restart at hr
  rcases hc : b.handler.store.close b.disk with ⟨x,d⟩
  rw [hc] at hr
  cases x with
  | some x => cases hr
  | none => exact ⟨d,hc,hr⟩

theorem restarts_keep_records_pair :
    ∃ h e es c, boot [] ⟨0⟩ bare = .ok (h,e) ∧
      Lives [] ⟨0⟩ Stopped ⟨h,e,fun _ => 0⟩ es c ∧
      ∃ t as, Represents [] ⟨0⟩ c t ∧ as.map Prod.fst = es.filterMap accepted ∧
        (∀ k base, t.content k base = bare.content (logPath ([]++[k]) base)++gained as k base) ∧
        (∀ a base, (a,base) ∈ as → window (t.content a.key base) a.offset.toNat
          (frame a.data).length = frame a.data) ∧
        (∀ d', Stopped c d' → ∀ k base, d'.content (logPath ([]++[k]) base) = t.content k base) ∧
        ∀ k ∈ bare.subdirectories [], (decodeName k).isSome → (t.active k).isSome := by
  obtain ⟨h,e,h',e',hb,hr⟩ := afterSession_ok (show (afterSession pair turns fun b =>
    OffsetRestart.restart [] ⟨0⟩ b.handler b.disk).isOk = true by decide +kernel)
  obtain ⟨d,hd,hboot⟩ := stopped_of_restart hr
  have hl := Lives.session [] pair turns ordinary_pair (.reboot hd hboot (.nil _))
  exact ⟨h,e,_,_,hb,hl,restarts_keep_records healthy_bare shelved_bare short_bare hb hl⟩

/-- Every batch of the responses is in a file of its partition, behind the prefix of
its record, at the offset that was asked for. -/
def OnFile (root : List Bytes) (d : Disk) : Request → Response → Prop
  | .fetch req,.fetch resps =>
      List.Forall₂ (fun topic resp => List.Forall₂ (fun part resp => ∀ batch,
        resp.recordBatch = some batch → ∃ base raw, recHdr ≤ raw.length ∧
          batch = patch part.fetchOffset.toUInt64 (raw.drop recHdr) ∧
          window (d.content (logPath (root++[partitionKey topic.topicName part.partition]) base))
            part.fetchOffset.toInt.toNat raw.length = raw)
        topic.partitions resp.partitions) req.topics resps
  | _,_ => True

theorem fetchedBy_onFile {root : List Bytes} {cfg : SegmentConfig} {b : Shared} {s t u : Ledger}
    {es : List BrokerEvent} {r : Request} {resp : Response} (h : FetchedBy cfg s u es r resp)
    (hp : Preserves u t) (ht : Represents root cfg b t) : OnFile root b.disk r resp := by
  cases r with
  | fetch req =>
      cases resp with
      | fetch resps =>
          refine h.1.imp fun topic resp hr => hr.2.imp fun part resp hpart batch hb => ?_
          obtain ⟨v,fs,gs,-,-,-,-,-,hbatch⟩ := hpart.2.moments
          obtain ⟨w,gs₁,gs₂,base,-,-,-,-,-,hheld,hdur⟩ := hbatch batch hb
          exact ⟨base,held_filed hheld hdur hp ht⟩
      | _ => trivial
  | _ => trivial

/-- What a client was sent by a fetch stays in the files, whatever other clients
do, and however often the broker is stopped or crashes and is started again. -/
theorem fetched_batches_survive {ι : Type*} [DecidableEq ι] {root : List Bytes}
    {cfg : SegmentConfig} {b : Shared} {s : Ledger} (hb : Kept root cfg b s)
    (advertisedHost : Bytes) (inputs : ι → Bytes × Socket) (hn : Ordinary inputs)
    (schedule : List ι) {es : List BrokerEvent} {c : Shared}
    (hl : Lives root cfg Down
      ((connections advertisedHost inputs b).exec respond schedule).2.state es c)
    (i : ι) (k : Socket)
    (hk : ((connections advertisedHost inputs b).exec respond schedule).2.threads i =
      .done (some k)) :
    ∃ n resps, Served advertisedHost (requests (inputs i).1) (inputs i).2
        (own i ((connections advertisedHost inputs b).exec respond schedule).1) k n resps ∧
      List.Forall₂ (OnFile root c.disk) (((requests (inputs i).1).take n).map Prod.snd)
        resps := by
  obtain ⟨u,hruns,hu⟩ := exec_simulated (kept_simulates root cfg) advertisedHost hb hn schedule
  obtain ⟨t,ht,hp⟩ := lives_preserves hl hu
  obtain ⟨n,resps,hs⟩ := exec_served hk
  refine ⟨n,resps,hs,hs.each.forall₂ fun r resp l hsub hpath => ?_⟩
  exact fetchedBy_onFile (serve_fetched hpath (hsub.trans (own_sublist i _)) hruns) hp
    ht.represents

/-- A crash may lose every buffer. -/
theorem crashed_unflushed {root : List Bytes} {cfg : SegmentConfig} {b : Shared} {s : Ledger}
    (hb : Represents root cfg b s) : Crashed b b.disk where
  healthy := hb.healthy
  dirs := rfl
  cut := by
    intro k ps hl
    obtain ⟨base,-,-,-,-,hf,-⟩ := hb.log_of_lookup hl
    refine ⟨_,le_rfl,?_⟩
    rw [Segment.bytes,List.take_left]
    exact Disk.lookup_of_mem hf.holds.mem
  rest := fun _ _ => rfl

/-- A consumer was sent a batch, and the broker crashes. -/
theorem fetched_batches_survive_crash :
    ∃ h e c k, boot [] ⟨0⟩ bare = .ok (h,e) ∧
      Lives [] ⟨0⟩ Down ((connections [] pair ⟨h,e,fun _ => 0⟩).exec respond turns).2.state [] c ∧
      ∃ n resps, Served [] (requests (pair false).1) (pair false).2
          (own false ((connections [] pair ⟨h,e,fun _ => 0⟩).exec respond turns).1) k n resps ∧
        List.Forall₂ (OnFile [] c.disk) (((requests (pair false).1).take n).map Prod.snd)
          resps := by
  obtain ⟨h,e,h',e',hb,hboot⟩ := afterSession_ok
    (show (afterSession pair turns fun b => boot [] ⟨0⟩ b.disk).isOk = true by decide +kernel)
  obtain ⟨s,hs,-⟩ := boot_kept healthy_bare shelved_bare short_bare hb
  obtain ⟨t,-,ht⟩ := exec_simulated (kept_simulates [] ⟨0⟩) [] hs ordinary_pair turns
  have hl : Lives [] ⟨0⟩ Down ((connections [] pair ⟨h,e,fun _ => 0⟩).exec respond turns).2.state []
      ⟨h',e',fun _ => 0⟩ := .reboot (.inr (crashed_unflushed ht.represents)) hboot (.nil _)
  have hended : ((boot [] ⟨0⟩ bare).toOption.bind fun x => ended ((connections [] pair
      ⟨x.1,x.2,fun _ => 0⟩).exec respond turns).2 false).isSome = true := by decide +kernel
  rw [hb] at hended
  obtain ⟨k,hk⟩ := Option.isSome_iff_exists.mp hended
  exact ⟨h,e,_,k,hb,hl,fetched_batches_survive hs [] pair ordinary_pair turns hl false k
    (ended_eq_some hk)⟩

end Kage.BrokerLifetimes
