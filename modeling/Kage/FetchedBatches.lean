import Kage.ConcurrentClients
import Kage.FetchBudgets

/-!
# What a fetch returns while others append

A fetch looks at the size of a partition, then asks for a section of its active
segment, and then reads the section. Other clients append in between, and the
partition may have moved on to another segment. Still, the batch that is returned
was in the active segment at the offset that was asked for when it was read,
because a section of a file that is closed cannot be read. The high watermark is
the size of the active segment at an earlier moment, and what is returned is in the
file, not only in the buffer of its writer. The budgets of the request
hold as they do without other clients.
-/
namespace Kage.FetchedBatches
open ByteStrings FaultyDisk SegmentLog PartitionLog BrokerStores RecordBatches
open FetchHandler FetchServing FetchBudgets OffsetRecords OffsetHandlers RequestParsers
open ResponseEncoders RequestHandlers
open AtomicPrograms BrokerPrograms BrokerLedger LedgerJournal ClientSessions AcknowledgedRecords
open ConcurrentClients (Ordinary Broker connections trace exec_ledger exec_served own_sublist send
  ordinary_send produceOne single_produceOne)

/-! ## The calls of a fetch -/

/-- Why a partition of this size is not served. -/
inductive Unserved (topic : Bytes) (part : FetchPartitionData) (cap : Int32) (size : Int64) :
    Int16 → List BrokerEvent → Prop
  | caughtUp {es : List BrokerEvent} : part.fetchOffset = size →
      Unserved topic part cap size ErrCodeNone es
  | beyond {es : List BrokerEvent} : part.fetchOffset > size →
      Unserved topic part cap size ErrCodeOffsetOutOfRange es
  | exhausted {es : List BrokerEvent} : cap ≤ 0 → Unserved topic part cap size ErrCodeNone es
  | unread {es : List BrokerEvent} (e : Err) : ¬cap ≤ 0 →
      List.Sublist [⟨.size topic part.partition,size⟩,
        ⟨.read topic part.partition part.fetchOffset.toUInt64 (cap+4),.error e⟩] es →
      Unserved topic part cap size ErrCodeOffsetOutOfRange es
  | broken {es : List BrokerEvent} (r : Section) (n : Int32) (result : Except Err Bytes) :
      ¬cap ≤ 0 → (∀ raw, result = .ok raw → raw.length < recHdr) →
      List.Sublist [⟨.size topic part.partition,size⟩,
        ⟨.read topic part.partition part.fetchOffset.toUInt64 (cap+4),.ok (r,n)⟩,
        ⟨.readFull r n.toInt.toNat,result⟩] es →
      Unserved topic part cap size ErrCodeOffsetOutOfRange es

/-- The calls behind the answer for a partition: it could not be opened, or its
size was looked at and nothing was served, or a batch was read. -/
inductive Looks (topic : Bytes) (part : FetchPartitionData) (remaining : Int32) :
    FetchPartitionResponse → Int32 → List BrokerEvent → Prop
  | refused {es : List BrokerEvent} (e : Err) :
      ⟨.create topic part.partition,some e⟩ ∈ es →
      Looks topic part remaining
        {partition := part.partition, errorCode := ErrCodeOffsetOutOfRange} remaining es
  | unserved {es opening : List BrokerEvent} (size : Int64) (code : Int16) (cap : Int32) :
      cap = (if remaining < part.partitionMaxBytes then remaining else part.partitionMaxBytes) →
      Path (getOrCreatePartitionProgram topic part.partition) opening (.done none) →
      List.Sublist (opening++[⟨.size topic part.partition,size⟩]) es →
      Unserved topic part cap size code es →
      Looks topic part remaining
        {partition := part.partition, errorCode := code, highWatermark := size} remaining es
  | served {es opening : List BrokerEvent} (size : Int64) (cap : Int32) (r : Section)
      (n : Int32) (raw : Bytes) :
      cap = (if remaining < part.partitionMaxBytes then remaining else part.partitionMaxBytes) →
      ¬cap ≤ 0 → ¬raw.length < recHdr →
      Path (getOrCreatePartitionProgram topic part.partition) opening (.done none) →
      List.Sublist (opening++[⟨.size topic part.partition,size⟩,
        ⟨.read topic part.partition part.fetchOffset.toUInt64 (cap+4),.ok (r,n)⟩,
        ⟨.readFull r n.toInt.toNat,.ok raw⟩]) es →
      Looks topic part remaining
        {partition := part.partition, errorCode := ErrCodeNone, highWatermark := size,
          recordBatch := some (patch part.fetchOffset.toUInt64 (raw.drop recHdr)),
          batchSize := Int32.ofNat (patch part.fetchOffset.toUInt64 (raw.drop recHdr)).length}
        (remaining-Int32.ofNat (patch part.fetchOffset.toUInt64 (raw.drop recHdr)).length) es

section
variable {es : List BrokerEvent} {topic : Bytes} {part : FetchPartitionData}

theorem getOrCreate_path {partition : Int32} {e : Err}
    (h : Path (getOrCreatePartitionProgram topic partition) es (.done (some e))) :
    ⟨.create topic partition,some e⟩ ∈ es := by
  obtain ⟨found,fs,rfl,hfs⟩ := Path.of_perform h
  cases found with
  | true => cases (Path.of_done hfs).2
  | false =>
      obtain ⟨r,gs,rfl,hgs⟩ := Path.of_call hfs
      obtain ⟨rfl,hd⟩ := Path.of_done hgs
      cases hd
      simp

theorem fetchPartition_path {remaining left : Int32} {resp : FetchPartitionResponse}
    (h : Path (fetchPartitionProgram topic part remaining) es (.done (some (resp,left)))) :
    Looks topic part remaining resp left es := by
  obtain ⟨r,fs,gs,rfl,hfs,hgs⟩ := Path.of_bind h
  cases r with
  | some e =>
      obtain ⟨rfl,hd⟩ := Path.of_done hgs
      cases hd
      exact .refused e (by simpa using getOrCreate_path hfs)
  | none =>
      obtain ⟨size,hs,rfl,hhs⟩ := Path.of_perform hgs
      have hsize : List.Sublist (fs++[⟨.size topic part.partition,size⟩])
          (fs++⟨.size topic part.partition,size⟩::hs) := by simp
      simp only at hhs
      generalize hcap : (if remaining < part.partitionMaxBytes then remaining
        else part.partitionMaxBytes) = cap at hhs
      split at hhs
      · rename_i heq
        cases (Path.of_done hhs).2
        exact .unserved _ _ cap hcap.symm hfs hsize (.caughtUp heq)
      · split at hhs
        · rename_i hgt
          cases (Path.of_done hhs).2
          exact .unserved _ _ cap hcap.symm hfs hsize (.beyond hgt)
        · split at hhs
          · rename_i hle
            cases (Path.of_done hhs).2
            exact .unserved _ _ cap hcap.symm hfs hsize (.exhausted hle)
          · rename_i hpos
            obtain ⟨result,us,rfl,hus⟩ := Path.of_perform hhs
            rcases result with e|⟨r,n⟩
            · obtain ⟨rfl,hd⟩ := Path.of_done hus
              cases hd
              exact .unserved _ _ cap hcap.symm hfs hsize
                (.unread e hpos (List.sublist_append_right _ _))
            · obtain ⟨bytes,vs,rfl,hvs⟩ := Path.of_perform hus
              cases bytes with
              | error e =>
                  obtain ⟨rfl,hd⟩ := Path.of_done hvs
                  cases hd
                  exact .unserved _ _ cap hcap.symm hfs hsize
                    (.broken r n _ hpos (fun _ hx => by cases hx) (List.sublist_append_right _ _))
              | ok raw =>
                  simp only at hvs
                  split at hvs
                  · rename_i hraw
                    obtain ⟨rfl,hd⟩ := Path.of_done hvs
                    cases hd
                    refine .unserved _ _ cap hcap.symm hfs hsize
                      (.broken r n (.ok raw) hpos (fun x hx => ?_) (List.sublist_append_right _ _))
                    obtain rfl := Except.ok.inj hx
                    exact hraw
                  · rename_i hraw
                    split at hvs
                    · cases (Path.of_done hvs).2
                    · obtain ⟨rfl,hd⟩ := Path.of_done hvs
                      cases hd
                      exact .served size cap r n raw hcap.symm hpos hraw hfs (.refl _)

end

theorem fetchPartitions_path {topic : Bytes} {parts : List FetchPartitionData}
    {remaining left : Int32} {resps : List FetchPartitionResponse} {es : List BrokerEvent}
    (h : Path (fetchPartitionsProgram topic parts remaining) es (.done (some (resps,left)))) :
    Chained (Looks topic) parts remaining resps left es := by
  induction parts generalizing remaining resps es with
  | nil =>
      obtain ⟨rfl,hd⟩ := Path.of_done h
      cases hd
      exact .nil _
  | cons part parts ih =>
      obtain ⟨r,fs,gs,rfl,hfs,hgs⟩ := Path.of_bind h
      rcases r with _|⟨resp,left₁⟩
      · cases (Path.of_done hgs).2
      · obtain ⟨out,hout,hmap⟩ := Path.of_map hgs
        obtain ⟨⟨resps₁,left₂⟩,rfl,hx⟩ := Option.map_eq_some_iff.mp hmap
        cases hx
        exact .cons (fetchPartition_path hfs) (ih hout)

/-- An answer for each partition of a topic. -/
def LooksAll (topic : FetchTopicData) (remaining : Int32) (resp : FetchTopicResponse)
    (left : Int32) (es : List BrokerEvent) : Prop :=
  resp.topicName = topic.topicName ∧
    Chained (Looks topic.topicName) topic.partitions remaining resp.partitions left es

theorem fetchTopics_path {topics : List FetchTopicData} {remaining : Int32}
    {resps : List FetchTopicResponse} {es : List BrokerEvent}
    (h : Path (fetchTopicsProgram topics remaining) es (.done (some resps))) :
    ∃ left, Chained LooksAll topics remaining resps left es := by
  induction topics generalizing remaining resps es with
  | nil =>
      obtain ⟨rfl,hd⟩ := Path.of_done h
      cases hd
      exact ⟨remaining,.nil _⟩
  | cons topic topics ih =>
      obtain ⟨r,fs,gs,rfl,hfs,hgs⟩ := Path.of_bind h
      rcases r with _|⟨parts,left₁⟩
      · cases (Path.of_done hgs).2
      · obtain ⟨out,hout,hmap⟩ := Path.of_map hgs
        obtain ⟨resps₁,rfl,rfl⟩ := Option.map_eq_some_iff.mp hmap
        obtain ⟨left,hc⟩ := ih hout
        exact ⟨left,.cons ⟨rfl,fetchPartitions_path hfs⟩ hc⟩

/-! ## What the ledger makes of them -/

/-- The batch was in the active segment at this offset, behind the prefix of its
record. -/
structure Held (s : Ledger) (k : Bytes) (base : ℕ) (offset : Int64) (batch : Bytes) : Prop where
  nonneg : 0 ≤ offset.toInt
  bytes : ∃ raw, window (s.content k base) offset.toInt.toNat raw.length = raw ∧
    recHdr ≤ raw.length ∧ batch = patch offset.toUInt64 (raw.drop recHdr)

/-- How an answer comes about in the course of a run. -/
structure Delivered (cfg : SegmentConfig) (s t : Ledger) (es : List BrokerEvent) (topic : Bytes)
    (part : FetchPartitionData) (resp : FetchPartitionResponse) : Prop where
  moments : ∃ u fs gs, es = fs++gs ∧ Runs (Ledger.Step cfg) s fs u ∧
    Runs (Ledger.Step cfg) u gs t ∧
    (u.active (partitionKey topic part.partition)).isSome ∧
    resp.highWatermark = Int64.ofNat (u.size (partitionKey topic part.partition)) ∧
    ∀ batch, resp.recordBatch = some batch → ∃ w gs₁ gs₂ base, gs = gs₁++gs₂ ∧
      Runs (Ledger.Step cfg) u gs₁ w ∧ Runs (Ledger.Step cfg) w gs₂ t ∧
      w.active (partitionKey topic part.partition) = some base ∧
      Held w (partitionKey topic part.partition) base part.fetchOffset batch ∧
      Held t (partitionKey topic part.partition) base part.fetchOffset batch ∧
      Durable t (partitionKey topic part.partition) base
        (part.fetchOffset.toInt.toNat+(recHdr+batch.length))

section
variable {cfg : SegmentConfig} {s t u : Ledger} {es l : List BrokerEvent} {topic : Bytes}
variable {part : FetchPartitionData} {remaining left : Int32} {resp : FetchPartitionResponse}

/-- Files are only extended, so what was held stays. -/
theorem Held.later {k : Bytes} {base : ℕ} {offset : Int64} {batch : Bytes}
    (h : Held s k base offset batch) (hruns : Runs (Ledger.Step cfg) s es t) :
    Held t k base offset batch := by
  obtain ⟨raw,hw,hlen,hb⟩ := h.bytes
  obtain ⟨as,-,hj⟩ := runs_journal hruns
  refine ⟨h.nonneg,raw,?_,hlen,hb⟩
  have hle := congrArg List.length hw
  rw [window_length] at hle
  have hpos : 0 < raw.length := Nat.lt_of_lt_of_le (by decide) hlen
  rw [hj.content,window_append_left _ (by omega),hw]

theorem readSection_ok {content : Option Bytes} {pos limit : ℤ} {n : ℕ} {raw : Bytes}
    (h : readSection content pos limit n = .ok raw) (hraw : raw ≠ []) :
    ∃ bytes, content = some bytes ∧ 0 ≤ pos ∧ raw.length = n ∧
      pos.toNat+n ≤ bytes.length ∧ raw = window bytes pos.toNat n := by
  unfold readSection at h
  split at h
  · obtain rfl := Except.ok.inj h
    exact (hraw rfl).elim
  · split at h
    · cases h
    · split at h
      · cases h
      · cases content with
        | none => cases h
        | some bytes =>
            simp only at h
            split at h
            · rename_i hn hlim hpos hlen
              obtain rfl := Except.ok.inj h
              have hw := window_length bytes pos.toNat (min n (limit-pos).toNat)
              have hm : min n (limit-pos).toNat = n := by omega
              rw [hm] at hw hlen ⊢
              exact ⟨bytes,rfl,by omega,hlen,by omega,rfl⟩
            · split at h <;> cases h

/-- Bytes that were read from a section lie in the active file. -/
theorem readFull_held {r : Section} {n : ℕ} {raw : Bytes} (h : s.sectionOf r n = .ok raw)
    (hraw : ¬raw.length < recHdr) :
    ∃ base, s.active (partitionKey r.topic r.partition) = some base ∧ 0 ≤ r.pos ∧
      raw.length = n ∧
      window (s.content (partitionKey r.topic r.partition) base) r.pos.toNat raw.length = raw ∧
      Durable s (partitionKey r.topic r.partition) base (r.pos.toNat+raw.length) := by
  have hne : raw ≠ [] := by
    rintro rfl
    exact hraw (by decide)
  unfold Ledger.sectionOf Ledger.log at h
  cases ha : s.active (partitionKey r.topic r.partition) with
  | none =>
      simp only [ha,Option.map_none] at h
      cases h
  | some base =>
      simp only [ha,Option.map_some] at h
      obtain ⟨bytes,hb,hpos,hlen,hle,hw⟩ := readSection_ok h hne
      split at hb
      · obtain rfl := Option.some.inj hb
        rw [List.length_take] at hle
        rw [window_take _ (by omega)] at hw
        rw [RollingLog.Rolling.active,RollingLog.Rolling.part] at hle
        refine ⟨base,rfl,hpos,hlen,?_,?_,fun _ => ?_⟩
        · rw [hlen]
          exact hw.symm
        · rw [Ledger.content,hlen]
          exact hle.trans (min_le_right _ _)
        · rw [hlen]
          exact hle.trans (min_le_left _ _)
      · cases hb

/-- A section that was handed out begins at the offset and is within the limit. -/
theorem read_section {partition : Int32} {o : UInt64} {cap n : Int32} {r : Section}
    (h : s.Read topic partition o cap (.ok (r,n)) t) :
    r.topic = topic ∧ r.partition = partition ∧ r.pos = o.toInt64.toInt ∧ 0 < n.toInt ∧
      (0 ≤ o.toInt64.toInt → n.toInt ≤ cap.toInt) := by
  simp only [Ledger.Read] at h
  split at h
  · cases h.1
  · split at h
    · cases h.1
    · rename_i hr
      cases h.1
      exact ⟨rfl,rfl,rfl,readRange_pos hr,readRange_le hr⟩

theorem Looks.delivered (h : Looks topic part remaining resp left l) (hl : l.Sublist es)
    (hruns : Runs (Ledger.Step cfg) s es t) :
    Answered part remaining resp left ∧ Delivered cfg s t es topic part resp := by
  cases h with
  | refused e he =>
      obtain ⟨u,u',fs,gs,-,-,-,hstep,-⟩ :=
        hruns.pick ((List.singleton_sublist.mpr he).trans hl)
      cases hstep.1
  | unserved size code cap _ hopen hm _ =>
      obtain ⟨u,u',fs,gs,rfl,hbefore,-,hfs,hstep,hgs⟩ := hruns.pick_after (hm.trans hl)
      exact ⟨.unserved rfl rfl rfl,⟨u,fs,_::gs,rfl,hfs,.cons hstep hgs,
        (getOrCreate_opens hopen hbefore hfs).2,hstep.1,fun _ hb => by cases hb⟩⟩
  | served size cap r n raw hcap hpos hraw hopen hs =>
      obtain ⟨u,u',fs,gs,rfl,hbefore,hsub,hfs,hstep,hgs⟩ := hruns.pick_after (hs.trans hl)
      obtain ⟨v,v',fs₁,gs₁,rfl,hsub₁,hfs₁,hstep₁,hgs₁⟩ := hgs.pick hsub
      obtain ⟨w,w',fs₂,gs₂,rfl,-,hfs₂,hstep₂,hgs₂⟩ := hgs₁.pick hsub₁
      obtain ⟨ht,hp,hr,hn,hle⟩ := read_section hstep₁
      obtain ⟨base,hbase,hr0,hlen,hw,hdur⟩ := readFull_held hstep₂.1.symm hraw
      rw [Int64.toInt64_toUInt64] at hr hle
      rw [hr] at hr0 hw hdur
      rw [ht,hp] at hbase hw hdur
      refine ⟨.served _ rfl rfl rfl ?_,⟨u,fs,_,rfl,hfs,.cons hstep hgs,
        (getOrCreate_opens hopen hbefore hfs).2,hstep.1,?_⟩⟩
      · have hc := cap_toInt remaining part.partitionMaxBytes
        rw [← hcap] at hc
        have hz : (0 : Int32).toInt = 0 := rfl
        rw [Int32.le_iff_toInt_le,not_le,hz] at hpos
        have h4 := window_le hpos
        have hn4 := hle hr0
        rw [← hc,patch,patchLoop_length,List.length_drop,hlen,recHdr]
        omega
      · intro batch hb
        obtain rfl := Option.some.inj hb
        have hrun := Runs.cons hstep (hfs₁.append (.cons hstep₁ hfs₂))
        have hrest := Runs.cons hstep₂ hgs₂
        have hheld : Held w (partitionKey topic part.partition) base part.fetchOffset
            (patch part.fetchOffset.toUInt64 (raw.drop recHdr)) :=
          ⟨hr0,raw,hw,Nat.le_of_not_lt hraw,rfl⟩
        refine ⟨w,_,_,base,?_,hrun,hrest,hbase,hheld,hheld.later hrest,?_⟩
        · simp
        · have hraw := Nat.le_of_not_lt hraw
          rw [patch,patchLoop_length,List.length_drop,Nat.add_sub_cancel' hraw]
          exact runs_durable hrest hdur

theorem partitions_delivered {parts : List FetchPartitionData}
    {resps : List FetchPartitionResponse}
    (h : Chained (Looks topic) parts remaining resps left l) (hl : l.Sublist es)
    (hruns : Runs (Ledger.Step cfg) s es t) :
    List.Forall₂ (fun part resp => Bounded part resp ∧ Delivered cfg s t es topic part resp)
        parts resps ∧
      (resps.map charge).sum+max 0 left.toInt ≤ max 0 remaining.toInt := by
  induction h with
  | nil r => exact ⟨.nil,by simp⟩
  | cons h _ ih =>
      obtain ⟨ha,hd⟩ := h.delivered ((List.sublist_append_left _ _).trans hl) hruns
      obtain ⟨hs,hsum⟩ := ih ((List.sublist_append_right _ _).trans hl)
      have hc := ha.within.charged
      refine ⟨.cons ⟨ha.within.bounded,hd⟩ hs,?_⟩
      rw [List.map_cons,List.sum_cons]
      omega

/-- A fetch as a whole: every answer within its limit and delivered from the
ledger, and all of them within the limit of the request. -/
def FetchedBy (cfg : SegmentConfig) (s t : Ledger) (es : List BrokerEvent) :
    Request → Response → Prop
  | .fetch req,.fetch resps =>
      List.Forall₂ (fun topic resp => resp.topicName = topic.topicName ∧
        List.Forall₂ (fun part resp => Bounded part resp ∧
          Delivered cfg s t es topic.topicName part resp) topic.partitions resp.partitions)
        req.topics resps ∧ totalCharge resps ≤ max 0 req.maxBytes.toInt
  | _,_ => True

theorem topics_delivered {topics : List FetchTopicData} {resps : List FetchTopicResponse}
    (h : Chained LooksAll topics remaining resps left l) (hl : l.Sublist es)
    (hruns : Runs (Ledger.Step cfg) s es t) :
    List.Forall₂ (fun topic resp => resp.topicName = topic.topicName ∧
        List.Forall₂ (fun part resp => Bounded part resp ∧
          Delivered cfg s t es topic.topicName part resp) topic.partitions resp.partitions)
        topics resps ∧
      totalCharge resps+max 0 left.toInt ≤ max 0 remaining.toInt := by
  induction h with
  | nil r => exact ⟨.nil,by simp [totalCharge]⟩
  | cons h _ ih =>
      obtain ⟨hs,hc⟩ := partitions_delivered h.2 ((List.sublist_append_left _ _).trans hl) hruns
      obtain ⟨hss,hsum⟩ := ih ((List.sublist_append_right _ _).trans hl)
      refine ⟨.cons ⟨h.1,hs⟩ hss,?_⟩
      rw [totalCharge] at hsum ⊢
      simp only [List.flatMap_cons,List.map_append,List.sum_append]
      omega

theorem serve_fetched {r : Request} {resp : Response}
    (h : Path (serve r) l (.done (some resp))) (hl : l.Sublist es)
    (hruns : Runs (Ledger.Step cfg) s es t) : FetchedBy cfg s t es r resp := by
  cases r with
  | fetch req =>
      obtain ⟨out,hout,hmap⟩ := Path.of_map h
      obtain ⟨resps,rfl,rfl⟩ := Option.map_eq_some_iff.mp hmap
      obtain ⟨left,hc⟩ := fetchTopics_path hout
      obtain ⟨hs,hsum⟩ := topics_delivered hc hl hruns
      exact ⟨hs,by omega⟩
  | _ => trivial

end

/-- In every interleaving the fetches of a client whose connection has ended have
returned what the active segments held when they were read. -/
theorem fetched_batches_delivered {ι : Type*} [DecidableEq ι] {root : List Bytes}
    {cfg : SegmentConfig} {b : Shared} {s : Ledger} (hb : Represents root cfg b s)
    (advertisedHost : Bytes) (inputs : ι → Bytes × Socket) (hn : Ordinary inputs)
    (schedule : List ι) :
    ∃ t, Runs (Ledger.Step cfg) s (trace (connections advertisedHost inputs b) schedule) t ∧
      Represents root cfg
        ((connections advertisedHost inputs b).exec respond schedule).2.state t ∧
      ∀ i k, ((connections advertisedHost inputs b).exec respond schedule).2.threads i =
          .done (some k) →
        ∃ n resps, Served advertisedHost (requests (inputs i).1) (inputs i).2
            (own i ((connections advertisedHost inputs b).exec respond schedule).1) k n resps ∧
          List.Forall₂ (FetchedBy cfg s t (trace (connections advertisedHost inputs b) schedule))
            (((requests (inputs i).1).take n).map Prod.snd) resps := by
  obtain ⟨t,hruns,ht⟩ := exec_ledger hb hn schedule
  refine ⟨t,hruns,ht,fun i k hk => ?_⟩
  obtain ⟨n,resps,hs⟩ := exec_served hk
  refine ⟨n,resps,hs,hs.each.forall₂ fun r resp l hl hp => ?_⟩
  exact serve_fetched hp (hl.trans (own_sublist i _)) hruns

/-- The first batch of a partition. -/
def fetchFirst : Call where
  apiVersion := 4
  correlationID := 7
  clientID := none
  request := .fetch ⟨⟨100,[⟨ascii "t",[⟨0,0,100⟩]⟩]⟩,-1,0,0,0⟩
  body := RequestEncodings.writeFetchRequest ⟨⟨100,[⟨ascii "t",[⟨0,0,100⟩]⟩]⟩,-1,0,0,0⟩
  encoded := ⟨by simp [RequestEncodings.InRange,ascii],rfl⟩

/-- A producer and a consumer of the same partition. -/
def pair (i : Bool) : Bytes × Socket := if i then send [produceOne 1 5] else send [fetchFirst]

theorem ordinary_pair : Ordinary pair := by
  intro i
  cases i with
  | true =>
      refine ordinary_send fun c hc topic ht => ?_
      obtain rfl := List.mem_singleton.mp hc
      exact single_produceOne ht
  | false =>
      refine ordinary_send fun c hc topic ht => ?_
      obtain rfl := List.mem_singleton.mp hc
      obtain ⟨t,hm,rfl⟩ := ht
      obtain rfl : t = ⟨ascii "t",[⟨0,0,100⟩]⟩ := by simpa [fetchFirst] using hm
      unfold Single
      decide +kernel

theorem fetched_batches_delivered_pair :
    ∃ t, Runs (Ledger.Step ⟨0⟩) .blank (trace (connections [] pair ConcurrentClients.empty)
        [true,true,true,false,false,false,false]) t ∧
      Represents [] ⟨0⟩ ((connections [] pair ConcurrentClients.empty).exec respond
        [true,true,true,false,false,false,false]).2.state t ∧
      ∀ i k, ((connections [] pair ConcurrentClients.empty).exec respond
          [true,true,true,false,false,false,false]).2.threads i = .done (some k) →
        ∃ n resps, Served [] (requests (pair i).1) (pair i).2
            (own i ((connections [] pair ConcurrentClients.empty).exec respond
              [true,true,true,false,false,false,false]).1) k n resps ∧
          List.Forall₂ (FetchedBy ⟨0⟩ .blank t (trace (connections [] pair
              ConcurrentClients.empty) [true,true,true,false,false,false,false]))
            (((requests (pair i).1).take n).map Prod.snd) resps :=
  fetched_batches_delivered ConcurrentClients.represents_empty [] pair ordinary_pair _

end Kage.FetchedBatches
