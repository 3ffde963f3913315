import Kage.ServedAlone
import Kage.ConcurrentClients

/-!
# One connection after another

The handlers were modelled in sequence, one request after another, and as
programs that run side by side. When each connection is served without
interruption both give the same: the same bytes are sent, and the stores, the
offsets and the disk are left the same, whatever the connections send and
whichever calls of the disk and of the sockets fail.
-/
namespace Kage.ConnectionsInTurn
open ByteStrings FaultyDisk OffsetHandlers RequestHandlers PipelinedRequests AtomicPrograms
open BrokerPrograms ServedAlone ClientSessions
open ConcurrentClients (Broker connections twoProducers empty)

/-- The connections are handled in sequence, unless one of them panics. -/
def handleAll {ι : Type*} (advertised : Bytes) (inputs : ι → Bytes × Socket) :
    List ι → Handler → Disk → Option (List Socket × Handler × Disk)
  | [],h,d => some ([],h,d)
  | i::is,h,d =>
      match handle (inputs i).1 ⟨h,d,(inputs i).2,advertised⟩ with
      | .panic => none
      | .closed st =>
          match handleAll advertised inputs is st.handler st.disk with
          | none => none
          | some (ks,h,d) => some (st.socket::ks,h,d)

section
variable {ι : Type*} {advertised : Bytes} {inputs : ι → Bytes × Socket}
variable {c : Broker ι} {i : ι} {is : List ι} {h h' : Handler} {d d' : Disk} {ks : List Socket}

theorem handleAll_cons
    (hs : handleAll advertised inputs (i::is) h d = some (ks,h',d')) :
    ∃ st ks', ks = st.socket::ks' ∧
      handle (inputs i).1 ⟨h,d,(inputs i).2,advertised⟩ = .closed st ∧
      handleAll advertised inputs is st.handler st.disk = some (ks',h',d') := by
  rw [handleAll] at hs
  cases hh : handle (inputs i).1 ⟨h,d,(inputs i).2,advertised⟩ with
  | panic =>
      rw [hh] at hs
      cases hs
  | closed st =>
      simp only [hh] at hs
      cases hrest : handleAll advertised inputs is st.handler st.disk with
      | none =>
          rw [hrest] at hs
          cases hs
      | some out =>
          simp only [hrest] at hs
          cases hs
          exact ⟨st,out.1,rfl,rfl,hrest⟩

variable [DecidableEq ι]

/-- The calls of a connection are taken in a row. -/
theorem exec_handle {s : Bytes} {k : Socket} {st : State}
    (hi : c.threads i = connection (hostOf advertised) s k)
    (hs : handle s ⟨c.state.handler,c.state.disk,k,advertised⟩ = .closed st) :
    ∃ n opened, (c.exec respond (List.replicate n i)).2 =
      ⟨Function.update c.threads i (.done (some st.socket)),⟨st.handler,st.disk,opened⟩⟩ := by
  have ha := connectionLoop_alone (s.length+1) s
    ⟨c.state.handler,c.state.disk,k,advertised⟩ c.state.opened
  rw [← handle,hs] at ha
  obtain ⟨opened,hr⟩ := ha.eq
  obtain ⟨n,hn⟩ := exec_alone respond c i
  have hrun : (c.threads i).run respond c.state =
      (some st.socket,⟨st.handler,st.disk,opened⟩) := by
    rw [hi]
    exact hr
  exact ⟨n,opened,by rw [hn,hrun]⟩

/-- Connections that have not started take their turns. -/
theorem exec_handleAll (hn : is.Nodup)
    (hc : ∀ i ∈ is, c.threads i = connection (hostOf advertised) (inputs i).1 (inputs i).2)
    (hs : handleAll advertised inputs is c.state.handler c.state.disk = some (ks,h,d)) :
    ∃ schedule opened, (c.exec respond schedule).2.state = ⟨h,d,opened⟩ ∧
      List.Forall₂ (fun i k => (c.exec respond schedule).2.threads i = .done (some k)) is ks ∧
      ∀ j ∉ is, (c.exec respond schedule).2.threads j = c.threads j := by
  induction is generalizing c ks with
  | nil =>
      cases hs
      exact ⟨[],c.state.opened,rfl,.nil,fun _ _ => rfl⟩
  | cons i is ih =>
      obtain ⟨hi,hn⟩ := List.nodup_cons.mp hn
      obtain ⟨hci,hc⟩ := List.forall_mem_cons.mp hc
      obtain ⟨st,ks',rfl,hh,hrest⟩ := handleAll_cons hs
      obtain ⟨n,opened,hexec⟩ := exec_handle hci hh
      have hsame : ∀ j, j ≠ i →
          (c.exec respond (List.replicate n i)).2.threads j = c.threads j := by
        intro j hj
        rw [hexec]
        exact Function.update_of_ne hj _ _
      obtain ⟨schedule,opened',hstate,hdone,hother⟩ := ih
        (c := (c.exec respond (List.replicate n i)).2) hn (fun j hj => by
          rw [hsame j fun hji => hi (hji ▸ hj)]
          exact hc j hj) (by rw [hexec]; exact hrest)
      refine ⟨List.replicate n i++schedule,opened',?_,.cons ?_ ?_,fun j hj => ?_⟩
      · rw [exec_append,hstate]
      · rw [exec_append,hother i hi,hexec]
        exact Function.update_self ..
      · simpa only [exec_append] using hdone
      · rw [List.mem_cons,not_or] at hj
        rw [exec_append,hother j hj.2,hsame j hj.1]

end

/-- Any number of connections that are handled in sequence leave the stores, the
disk and what was sent as the broker does that serves them side by side, under a
schedule in which each of them is served without interruption. -/
theorem connections_in_turn {ι : Type*} [DecidableEq ι] {advertised : Bytes}
    {inputs : ι → Bytes × Socket} {order : List ι} {b : Shared} {ks : List Socket} {h : Handler}
    {d : Disk} (hn : order.Nodup)
    (hs : handleAll advertised inputs order b.handler b.disk = some (ks,h,d)) :
    ∃ schedule opened,
      ((connections (hostOf advertised) inputs b).exec respond schedule).2.state = ⟨h,d,opened⟩ ∧
      List.Forall₂ (fun i k => ((connections (hostOf advertised) inputs b).exec respond
        schedule).2.threads i = .done (some k)) order ks ∧
      ∀ j ∉ order, ((connections (hostOf advertised) inputs b).exec respond schedule).2.threads j =
        (connections (hostOf advertised) inputs b).threads j :=
  exec_handleAll hn (fun _ _ => rfl) hs

/-- Both producers are answered. -/
theorem connections_in_turn_producers :
    ∃ ks h d, handleAll [] twoProducers [true,false] empty.handler empty.disk = some (ks,h,d) ∧
      ks.map (fun k => k.sent.length) = [45,45] ∧ ∃ schedule opened,
      ((connections (hostOf []) twoProducers empty).exec respond schedule).2.state =
        ⟨h,d,opened⟩ ∧
      List.Forall₂ (fun i k => ((connections (hostOf []) twoProducers empty).exec respond
        schedule).2.threads i = .done (some k)) [true,false] ks ∧
      ∀ j ∉ [true,false], ((connections (hostOf []) twoProducers empty).exec respond
        schedule).2.threads j = (connections (hostOf []) twoProducers empty).threads j := by
  have hsent : (handleAll [] twoProducers [true,false] empty.handler empty.disk).map
      (fun out => out.1.map fun k => k.sent.length) = some [45,45] := by decide +kernel
  obtain ⟨⟨ks,h,d⟩,hs,hlen⟩ := Option.map_eq_some_iff.mp hsent
  exact ⟨ks,h,d,hs,hlen,connections_in_turn (by decide) hs⟩

end Kage.ConnectionsInTurn
