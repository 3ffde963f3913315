import Kage.BootedBroker
import Kage.ConcurrentClients

/-!
# What clients are told about partitions

A request for metadata creates the topics that it names and then lists the
partitions, once, under the lock of the map. So its answer is the catalogue of
one moment: it has every partition that is open and can be named, once, and the
topics that were asked for are among them. A request for the latest offset of a
partition is answered with the length of its active segment at some moment.

Partitions are never shut while the broker runs, so what was listed once is
listed by every later request.
-/
namespace Kage.ListedTopics
open ByteStrings FaultyDisk SegmentLog PartitionLog BrokerStores PartitionNames DirectoryNames
open OffsetRecords OffsetHandlers RequestParsers ResponseEncoders RequestHandlers AtomicPrograms
open BrokerPrograms BrokerLedger LedgerJournal ClientSessions AcknowledgedRecords BootedBroker
open RequestEncodings
open OffsetStorage (aTopic)
open ConcurrentClients (Ordinary connections connections_allowed trace trace_calls exec_simulated
  exec_served own_sublist send ordinary_send)

/-! ## Catalogues -/

/-- The partition is in the answer. -/
def Listed (topics : List TopicMetadata) (tp : TopicPartition) : Prop :=
  ∃ m ∈ topics, m.name = tp.topic ∧ ∃ p ∈ m.partitions, p.partition = tp.partition

/-- The answer has the open partitions, each once. -/
structure Catalogue (s : Ledger) (topics : List TopicMetadata) : Prop where
  names : (topics.map TopicMetadata.name).Nodup
  numbers : ∀ m ∈ topics, (m.partitions.map PartitionMetadata.partition).Nodup
  listed : ∀ tp, Listed topics tp ↔ Plain tp ∧ (s.active (keyOf tp)).isSome

theorem nodup_eraseDups {α : Type*} [BEq α] [LawfulBEq α] (l : List α) : l.eraseDups.Nodup := by
  induction hn : l.length using Nat.strong_induction_on generalizing l with
  | h n ih =>
      cases l with
      | nil => simp
      | cons a l =>
          rw [List.eraseDups_cons]
          have hlen : (l.filter fun b => !b == a).length < n := by
            have := List.length_filter_le (fun b => !b == a) l
            rw [List.length_cons] at hn
            omega
          refine List.nodup_cons.mpr ⟨fun hm => ?_,ih _ hlen _ rfl⟩
          simp at hm

theorem byTopic_listed {tps : List TopicPartition} (tp : TopicPartition) :
    Listed (byTopic tps) tp ↔ tp ∈ tps := by
  constructor
  · rintro ⟨m,hm,hname,p,hp,hpart⟩
    obtain ⟨topic,-,rfl⟩ := List.mem_map.mp hm
    obtain ⟨tp',htp,rfl⟩ := List.mem_map.mp hp
    obtain ⟨htp,ht⟩ := List.mem_filter.mp htp
    have ht : tp'.topic = topic := by simpa using ht
    obtain rfl : tp' = tp := by
      cases tp'
      cases tp
      simp_all
    exact htp
  · intro htp
    refine ⟨_,List.mem_map.mpr ⟨tp.topic,List.mem_eraseDups.mpr (List.mem_map_of_mem htp),rfl⟩,
      rfl,_,List.mem_map.mpr ⟨tp,List.mem_filter.mpr ⟨htp,by simp⟩,rfl⟩,rfl⟩

theorem byTopic_catalogue {s : Ledger} {tps : List TopicPartition} (hn : tps.Nodup)
    (h : ∀ tp, tp ∈ tps ↔ Plain tp ∧ (s.active (keyOf tp)).isSome) :
    Catalogue s (byTopic tps) where
  names := by
    rw [byTopic,List.map_map]
    exact (List.map_id _).symm ▸ nodup_eraseDups _
  numbers := by
    intro m hm
    obtain ⟨topic,-,rfl⟩ := List.mem_map.mp hm
    rw [List.map_map]
    refine List.Nodup.map_on ?_ (hn.filter _)
    intro a ha b hb hab
    have ha : a.topic = topic := by simpa using (List.mem_filter.mp ha).2
    have hb : b.topic = topic := by simpa using (List.mem_filter.mp hb).2
    cases a
    cases b
    simp_all
  listed := fun tp => (byTopic_listed tp).trans (h tp)

/-- Every key of an open partition was printed. -/
def Printed (s : Ledger) : Prop :=
  ∀ k, (s.active k).isSome → ∃ topic partition, Single topic ∧ k = partitionKey topic partition

theorem Catalogue.of_lists {s : Ledger} {tps : List TopicPartition} (hs : Printed s)
    (h : s.Lists tps) : Catalogue s (byTopic tps) := by
  obtain ⟨keys,hn,hkeys,rfl⟩ := h
  have hdec {k : Bytes} (hk : k ∈ keys) {tp : TopicPartition} (ht : decodeName k = some tp) :
      keyOf tp = k ∧ Plain tp := by
    obtain ⟨topic,partition,hsingle,rfl⟩ := hs k ((hkeys k).mp hk)
    exact decodeName_printed hsingle ht
  refine byTopic_catalogue ?_ fun tp => ?_
  · rw [← List.attach_map_subtype_val keys,List.filterMap_map]
    refine List.Nodup.filterMap (fun a b tp ha hb => Subtype.ext ?_)
      (List.nodup_attach.mpr hn)
    rw [← (hdec a.2 ha).1,(hdec b.2 hb).1]
  · rw [List.mem_filterMap]
    constructor
    · rintro ⟨k,hk,ht⟩
      obtain ⟨rfl,hplain⟩ := hdec hk ht
      exact ⟨hplain,(hkeys _).mp hk⟩
    · rintro ⟨hplain,ha⟩
      exact ⟨keyOf tp,(hkeys _).mpr ha,decodeName_keyOf hplain⟩

/-! ## Over a run -/

section
variable {cfg : SegmentConfig} {s t u : Ledger} {es l : List BrokerEvent} {topic : Bytes}
variable {partition : Int32}

theorem runs_printed (h : Runs (Ledger.Step cfg) s es t)
    (ha : ∀ e ∈ es, Allowed e.op) (hs : Printed s) : Printed t := by
  induction h with
  | nil s => exact hs
  | @cons s t u o r es hstep _ ih =>
      obtain ⟨ho,hes⟩ := List.forall_mem_cons.mp ha
      refine ih hes fun k hk => ?_
      rcases (step_isSome hstep k).mp hk with hk|⟨topic,partition,rfl,rfl⟩
      · exact hs k hk
      · exact ⟨topic,partition,ho,rfl⟩

theorem ensureTopics_opens {topics : List WireString} {x : Unit}
    (h : Path (ensureTopicsProgram topics) l (.done x)) (hl : l.Sublist es)
    (hruns : Runs (Ledger.Step cfg) s es t) :
    ∀ topic ∈ topics, (t.active (partitionKey topic.1 0)).isSome := by
  induction topics generalizing l with
  | nil => simp
  | cons topic topics ih =>
      obtain ⟨r,fs,gs,rfl,hfs,hgs⟩ := Path.of_bind h
      refine List.forall_mem_cons.mpr ⟨?_,ih hgs ((List.sublist_append_right _ _).trans hl)⟩
      exact (getOrCreate_opens hfs ((List.sublist_append_left _ _).trans hl) hruns).2

/-- What an answer about partitions says is true at some moment. -/
def Told (cfg : SegmentConfig) (s t : Ledger) (es : List BrokerEvent) : Request → Response → Prop
  | .metadata req,.metadata topics => ∃ u fs gs, es = fs++gs ∧ Runs (Ledger.Step cfg) s fs u ∧
      Runs (Ledger.Step cfg) u gs t ∧ Catalogue u topics ∧
      ∀ topic ∈ req.topics, Plain ⟨topic.1,0⟩ → Listed topics ⟨topic.1,0⟩
  | .listOffsets req,.listOffsets resps =>
      List.Forall₂ (fun topic tresp => tresp.topicName = topic.topicName ∧
        List.Forall₂ (fun part presp => presp.partition = part.partition ∧ presp.errorCode = 0 ∧
          (part.timestamp ≠ TimestampLatest → presp.offset = 0) ∧
          (part.timestamp = TimestampLatest → ∃ u fs gs, es = fs++gs ∧
            Runs (Ledger.Step cfg) s fs u ∧ Runs (Ledger.Step cfg) u gs t ∧
            (u.active (partitionKey topic.topicName.1 part.partition)).isSome ∧
            presp.offset = Int64.ofNat (u.size (partitionKey topic.topicName.1 part.partition))))
          topic.partitions tresp.partitions) req.topics resps
  | _,_ => True

theorem listOffsets_told {topicName : WireString} {part : ListOffsetsPartitionRequest}
    {resp : ListOffsetsPartitionResponse}
    (h : Path (listOffsetsPartitionProgram topicName part) l (.done (some resp)))
    (hl : l.Sublist es) (hruns : Runs (Ledger.Step cfg) s es t) :
    resp.partition = part.partition ∧ resp.errorCode = 0 ∧
      (part.timestamp ≠ TimestampLatest → resp.offset = 0) ∧
      (part.timestamp = TimestampLatest → ∃ u fs gs, es = fs++gs ∧
        Runs (Ledger.Step cfg) s fs u ∧ Runs (Ledger.Step cfg) u gs t ∧
        (u.active (partitionKey topicName.1 part.partition)).isSome ∧
        resp.offset = Int64.ofNat (u.size (partitionKey topicName.1 part.partition))) := by
  have hne : TimestampEarliest ≠ TimestampLatest := by decide
  unfold listOffsetsPartitionProgram at h
  simp only at h
  split at h
  · rename_i he
    cases (Path.of_done h).2
    exact ⟨rfl,rfl,fun _ => rfl,fun hx => (hne (he.symm.trans hx)).elim⟩
  · split at h
    · rename_i hlatest
      obtain ⟨r,fs,gs,rfl,hfs,hgs⟩ := Path.of_bind h
      obtain ⟨rfl,-⟩ := getOrCreate_opens hfs ((List.sublist_append_left _ _).trans hl) hruns
      obtain ⟨size,hs,rfl,hd⟩ := Path.of_perform hgs
      cases (Path.of_done hd).2
      obtain ⟨u,u',fs',gs',rfl,hsub,-,hfs',hstep,hgs'⟩ := hruns.pick_after hl
      exact ⟨rfl,rfl,fun hx => (hx hlatest).elim,fun _ => ⟨u,fs',_::gs',rfl,hfs',
        .cons hstep hgs',(getOrCreate_opens hfs hsub hfs').2,hstep.1⟩⟩
    · rename_i hno
      cases (Path.of_done h).2
      exact ⟨rfl,rfl,fun _ => rfl,fun hx => (hno hx).elim⟩

theorem serve_told {r : Request} {resp : Response} (h : Path (serve r) l (.done (some resp)))
    (hl : l.Sublist es) (hruns : Runs (Ledger.Step cfg) s es t)
    (ha : ∀ e ∈ es, Allowed e.op) (hs : Printed s) : Told cfg s t es r resp := by
  cases r with
  | metadata req =>
      obtain ⟨topics,hp,hmap⟩ := Path.of_map h
      cases hmap
      obtain ⟨x,fs,gs,rfl,hfs,hgs⟩ := Path.of_bind hp
      obtain ⟨tps,hs',rfl,hd⟩ := Path.of_perform hgs
      cases (Path.of_done hd).2
      -- the topics were ensured before the listing, so they are open by then
      obtain ⟨u,u',us,vs,rfl,hsub,-,hu,hstep,hrest⟩ := hruns.pick_after hl
      have hopen := ensureTopics_opens hfs hsub hu
      have hcat := Catalogue.of_lists
        (runs_printed hu (fun e he => ha e (List.mem_append_left _ he)) hs) hstep.1
      exact ⟨u,us,_::vs,rfl,hu,.cons hstep hrest,hcat,
        fun topic ht hplain => (hcat.listed _).mpr ⟨hplain,hopen topic ht⟩⟩
  | listOffsets req =>
      obtain ⟨out,hout,hmap⟩ := Path.of_map h
      obtain ⟨resps,rfl,rfl⟩ := Option.map_eq_some_iff.mp hmap
      refine (forEach_path hout).forall₂ fun topic tresp fs hsub ht => ?_
      obtain ⟨parts',hp,hmap⟩ := Path.of_map ht
      obtain ⟨parts,rfl,rfl⟩ := Option.map_eq_some_iff.mp hmap
      exact ⟨rfl,(forEach_path hp).forall₂ fun part presp gs hsub' hpart =>
        listOffsets_told hpart (hsub'.trans (hsub.trans hl)) hruns⟩
  | _ => trivial

end

/-- In every interleaving the requests for metadata of a connection that has ended
were answered with the catalogue of one moment, with the topics that they name in
it, and its requests for latest offsets with lengths that the active segments
had. -/
theorem partitions_listed_once {ι : Type*} [DecidableEq ι] {root : List Bytes}
    {cfg : SegmentConfig} {b : Shared} {s : Ledger} (hb : Kept root cfg b s)
    (advertisedHost : Bytes) (inputs : ι → Bytes × Socket) (hn : Ordinary inputs)
    (schedule : List ι) :
    ∃ t, Runs (Ledger.Step cfg) s (trace (connections advertisedHost inputs b) schedule) t ∧
      Kept root cfg ((connections advertisedHost inputs b).exec respond schedule).2.state t ∧
      ∀ i k, ((connections advertisedHost inputs b).exec respond schedule).2.threads i =
          .done (some k) →
        ∃ n resps, Served advertisedHost (requests (inputs i).1) (inputs i).2
            (own i ((connections advertisedHost inputs b).exec respond schedule).1) k n resps ∧
          List.Forall₂ (Told cfg s t (trace (connections advertisedHost inputs b) schedule))
            (((requests (inputs i).1).take n).map Prod.snd) resps := by
  obtain ⟨t,hruns,ht⟩ := exec_simulated (kept_simulates root cfg) advertisedHost hb hn schedule
  have hprinted : Printed s := fun k hk => hb.shelved.named k (hb.listed k hk)
  refine ⟨t,hruns,ht,fun i k hk => ?_⟩
  obtain ⟨n,resps,hs⟩ := exec_served hk
  refine ⟨n,resps,hs,hs.each.forall₂ fun r resp l hl hp => ?_⟩
  refine serve_told hp (hl.trans (own_sublist i _)) hruns (fun e he => ?_) hprinted
  exact trace_calls (connections_allowed hn) he

/-- A request for the metadata of a topic. -/
def askMetadata : Call where
  apiVersion := 1
  correlationID := 3
  clientID := none
  request := .metadata ⟨[aTopic]⟩
  body := writeMetadataRequest 1 true ⟨[aTopic]⟩
  encoded := ⟨by simp [InRange],true,rfl⟩

/-- A request for the latest offset of a partition. -/
def askLatest : Call where
  apiVersion := 0
  correlationID := 4
  clientID := none
  request := .listOffsets ⟨-1,[⟨aTopic,[⟨0,TimestampLatest⟩]⟩]⟩
  body := writeListOffsetsRequest ⟨-1,[⟨aTopic,[⟨0,TimestampLatest⟩]⟩]⟩
  encoded := ⟨by simp [InRange],rfl⟩

def askers (i : Bool) : Bytes × Socket := send [if i then askMetadata else askLatest]

theorem ordinary_askers : Ordinary askers := by
  refine fun i => ordinary_send fun c hc topic ht => ?_
  obtain rfl := List.mem_singleton.mp hc
  cases i with
  | true =>
      obtain ⟨t,hm,rfl⟩ := ht
      obtain rfl : t = aTopic := by simpa [askMetadata] using hm
      unfold Single
      decide +kernel
  | false =>
      obtain ⟨t,hm,rfl⟩ := ht
      obtain rfl : t = ⟨aTopic,[⟨0,TimestampLatest⟩]⟩ := by simpa [askLatest] using hm
      unfold Single
      decide +kernel

/-- Both clients find the topic missing, and both create it. -/
theorem partitions_listed_once_askers :
    ∃ t, Runs (Ledger.Step ⟨0⟩) (onDisk [] bare) (trace (connections [] askers
        ⟨newHandler ⟨[],⟨0⟩,∅⟩,bare,fun _ => 0⟩) [true,false,true,false,true,false]) t ∧
      Kept [] ⟨0⟩ ((connections [] askers ⟨newHandler ⟨[],⟨0⟩,∅⟩,bare,fun _ => 0⟩).exec respond
        [true,false,true,false,true,false]).2.state t ∧
      ∀ i k, ((connections [] askers ⟨newHandler ⟨[],⟨0⟩,∅⟩,bare,fun _ => 0⟩).exec respond
          [true,false,true,false,true,false]).2.threads i = .done (some k) →
        ∃ n resps, Served [] (requests (askers i).1) (askers i).2 (own i ((connections [] askers
            ⟨newHandler ⟨[],⟨0⟩,∅⟩,bare,fun _ => 0⟩).exec respond
              [true,false,true,false,true,false]).1) k n resps ∧
          List.Forall₂ (Told ⟨0⟩ (onDisk [] bare) t (trace (connections [] askers
            ⟨newHandler ⟨[],⟨0⟩,∅⟩,bare,fun _ => 0⟩) [true,false,true,false,true,false]))
            (((requests (askers i).1).take n).map Prod.snd) resps :=
  partitions_listed_once (onDisk_kept ⟨0⟩ healthy_bare shelved_bare short_bare) [] askers
    ordinary_askers _

end Kage.ListedTopics
