import Kage.BrokerLifetimes
import Kage.WorkerPool

/-!
# A shutdown loses nothing that was acknowledged

The connections of a server are served by the worker pool, the server is shut
down, the stores are closed, and a broker is started over the files. What was
acknowledged to a connection that was served to its end is in the files then.
-/
namespace Kage.OrderlyShutdown
open ByteStrings LengthPrefixed FaultyDisk SegmentLog PartitionLog OffsetHandlers AtomicPrograms
open BrokerPrograms BrokerLedger LedgerJournal AcknowledgedRecords ClientSessions BootedBroker
open WorkerPool
open RequestHandlers (Socket)
open OffsetCrash (boot)
open SparseIndex (logPath)
open BrokerLifetimes (stopped_content kept_restarts stopped_of_restart)
open ConcurrentClients (Ordinary connections exec_simulated exec_served own_sublist twoProducers
  ordinary_twoProducers empty represents_empty)

/-- However the goroutines of the server are interleaved until the stores are
closed, every record that was acknowledged to a connection that was served to its
end is in the files, and a broker that is started over them has it. -/
theorem shutdown_keeps_acknowledged {ι : Type*} [DecidableEq ι] {root : List Bytes}
    {cfg : SegmentConfig} {b : Shared} {s : Ledger} (hb : Kept root cfg b s)
    (workerPoolSize : ℕ) (advertisedHost : Bytes) (inputs : ι → Bytes × Socket)
    (hn : Ordinary inputs) {es : List (WorkerPool.Event ι)} {t : Server ι}
    (hr : run workerPoolSize (Server.init (connections advertisedHost inputs b)) es = some t)
    {d e : Disk} {h : Handler} (hd : Stopped t.broker.state d)
    (hboot : boot root cfg d = .ok (h,e)) :
    ∃ u, Represents root cfg ⟨h,e,fun _ => 0⟩ u ∧
      (∀ k base, u.content k base = d.content (logPath (root++[k]) base)) ∧
      ∀ c ∈ t.served, ∃ k n resps as, t.broker.threads c = .done (some k) ∧
        k.sent <+: (inputs c).2.sent++
          replies advertisedHost ((requests (inputs c).1).take n) resps ∧
        Each Acks (((requests (inputs c).1).take n).map Prod.snd) resps as ∧
        ∀ a ∈ as, ∃ base, window (d.content (logPath (root++[a.key]) base)) a.offset.toNat
          (frame a.data).length = frame a.data := by
  obtain ⟨hatt,hbroker⟩ := (attended_init (connections advertisedHost inputs b)).run hr
  have hinit : (Server.init (connections advertisedHost inputs b)).broker =
      connections advertisedHost inputs b := rfl
  rw [hinit] at hbroker
  obtain ⟨v,hruns,hv⟩ := exec_simulated (kept_simulates root cfg) advertisedHost hb hn
    (es.filterMap worked)
  rw [← hbroker] at hv
  obtain ⟨js,hjs,hj⟩ := runs_journal hruns
  obtain ⟨u,hu,-,-,hsame,-⟩ := kept_restarts hv hd hboot
  have hfile := stopped_content hv hd
  refine ⟨u,hu.represents,fun k base => by rw [hsame,hfile],fun c hc => ?_⟩
  obtain ⟨k,hk⟩ := hatt.ended c (.inr hc)
  have hended := hk
  rw [hbroker] at hended
  obtain ⟨n,resps,hend⟩ := exec_served hended
  refine ⟨k,n,resps,_,hk,hend.sent,hend.each.filterMap fun _ _ _ => serve_acks,fun a ha => ?_⟩
  -- the accepted appends of one client are among those of all
  have hmem : a ∈ js.map Prod.fst := by
    rw [hjs]
    exact ((own_sublist c _).filterMap _).subset ha
  obtain ⟨⟨a',base⟩,hx,rfl⟩ := List.mem_map.mp hmem
  exact ⟨base,by rw [hfile]; exact hj.window hx⟩

/-- Two connections are served side by side, and the signal comes before they have
left. -/
def servedBoth : List (WorkerPool.Event Bool) :=
  [.accept true,.select,.add,.go,.accept false,.select,.add,.go,.work true,.work false,.work true,
    .work false,.work true,.work false,.signal,.receive true,.close,.done true,.acceptError,
    .receive false,.done false,.wait,.drain]

/-- What has become of them, if the broker can be started again. -/
def afterShutdown : Option (Main × List Bool) :=
  (run 2 (Server.init (connections [] twoProducers empty)) servedBoth).bind fun t =>
    match OffsetRestart.restart [] ⟨0⟩ t.broker.state.handler t.broker.state.disk with
    | .error _ => none
    | .ok _ => some (t.main,t.served)

theorem shutdown_keeps_acknowledged_both :
    ∃ t d h e, run 2 (Server.init (connections [] twoProducers empty)) servedBoth = some t ∧
      t.main = .drained ∧ t.served = [false,true] ∧
      Stopped t.broker.state d ∧ boot [] ⟨0⟩ d = .ok (h,e) ∧
      ∃ u, Represents [] ⟨0⟩ ⟨h,e,fun _ => 0⟩ u ∧
        (∀ k base, u.content k base = d.content (logPath ([]++[k]) base)) ∧
        ∀ c ∈ t.served, ∃ k n resps as, t.broker.threads c = .done (some k) ∧
          k.sent <+: (twoProducers c).2.sent++
            replies [] ((requests (twoProducers c).1).take n) resps ∧
          Each Acks (((requests (twoProducers c).1).take n).map Prod.snd) resps as ∧
          ∀ a ∈ as, ∃ base, window (d.content (logPath ([]++[a.key]) base)) a.offset.toNat
            (frame a.data).length = frame a.data := by
  have hafter : afterShutdown = some (.drained,[false,true]) := by decide +kernel
  have hkept : Kept [] ⟨0⟩ empty .blank := ⟨represents_empty,shelved_bare,fun k hk => by cases hk⟩
  obtain ⟨t,ht,hx⟩ := Option.bind_eq_some_iff.mp hafter
  rcases hr : OffsetRestart.restart [] ⟨0⟩ t.broker.state.handler t.broker.state.disk with
    y|⟨h,e⟩
  · rw [hr] at hx
    cases hx
  · rw [hr] at hx
    obtain ⟨hm,hs⟩ := Prod.mk.inj (Option.some.inj hx)
    obtain ⟨d,hd,hboot⟩ := stopped_of_restart hr
    exact ⟨t,d,h,e,ht,hm,hs,hd,hboot,shutdown_keeps_acknowledged hkept 2 [] twoProducers
      ordinary_twoProducers ht hd hboot⟩

end Kage.OrderlyShutdown
