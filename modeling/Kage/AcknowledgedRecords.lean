import Kage.ClientSessions
import Kage.LedgerJournal

/-!
# What a response says about the log

The records that a session has put into logs can be read off its responses. An
entry of a produce request that is answered without an error was appended once,
with the offset of the answer, and an entry with an error was not appended. The
same holds of the entries of a commit, whose answers carry no offset. No other
request appends anything.
-/
namespace Kage.AcknowledgedRecords
open ByteStrings FaultyDisk PartitionLog BrokerStores FetchHandler RecordBatches OffsetRecords
open OffsetHandlers RequestParsers ProduceHandler ResponseEncoders RequestHandlers
open AtomicPrograms BrokerPrograms BrokerLedger LedgerJournal ClientSessions

/-! ## The calls that a request may make -/

/-- Partitions of these topics are created, these records are written, and offsets
are cached only if `caching` holds. -/
def Touches (names writing : Bytes → Prop) (caching : Prop) : Op → Prop
  | .create topic _ => names topic
  | .append _ _ data => writing data
  | .cache _ => caching
  | _ => True

def Names : Request → Bytes → Prop
  | .produce req,topic => ∃ t ∈ req.topics, t.topicName.1 = topic
  | .fetch req,topic => ∃ t ∈ req.topics, t.topicName = topic
  | .listOffsets req,topic => ∃ t ∈ req.topics, t.topicName.1 = topic
  | .metadata req,topic => ∃ t ∈ req.topics, t.1 = topic
  | .offsetCommit _,topic => topic = ConsumerOffsetsTopic
  | _,_ => False

def Writes : Request → Bytes → Prop
  | .produce req,data => ∃ t ∈ req.topics, ∃ p ∈ t.partitions, p.recordBatch = data
  | .offsetCommit _,data => ∃ c : Commit, c.record = data
  | _,_ => False

def Caches : Request → Prop
  | .offsetCommit _ => True
  | _ => False

section
variable {names writing : Bytes → Prop} {caching : Prop} {topic : Bytes}

theorem getOrCreate_calls (h : names topic) (partition : Int32) :
    (getOrCreatePartitionProgram topic partition).Calls (Touches names writing caching) := by
  refine .bind (Program.calls_perform trivial) fun found => ?_
  cases found with
  | false => exact Program.calls_perform h
  | true => trivial

theorem forEach_calls {α β : Type} {P : Op → Prop} {f : α → BrokerProgram (Option β)}
    {as : List α} (h : ∀ a ∈ as, (f a).Calls P) : (forEach f as).Calls P := by
  induction as with
  | nil => trivial
  | cons a as ih =>
      obtain ⟨ha,has⟩ := List.forall_mem_cons.mp h
      refine .bind ha fun b => ?_
      cases b with
      | none => trivial
      | some b => exact .bind (ih has) fun _ => trivial

/-- A loop over topics and their partitions. -/
theorem forEach_topics_calls {α β γ δ : Type} {P : Op → Prop} {parts : α → List γ}
    {f : α → γ → BrokerProgram (Option δ)} {g : α → List δ → β} {as : List α}
    (h : ∀ a ∈ as, ∀ c ∈ parts a, (f a c).Calls P) :
    (forEach (fun a => do return (← forEach (f a) (parts a)).map (g a)) as).Calls P :=
  forEach_calls fun a ha => .bind (forEach_calls (h a ha)) fun _ => trivial

theorem producePartition_calls {topicName : WireString} {part : ProducePartitionData}
    (h : names topicName.1) (hw : writing part.recordBatch) :
    (producePartitionProgram topicName part).Calls (Touches names writing caching) := by
  have hstore (n : Int32) :
      (storeBatchProgram topicName part n).Calls (Touches names writing caching) := by
    refine .bind (getOrCreate_calls h _) fun r => ?_
    cases r with
    | some e => trivial
    | none =>
        refine .bind (Program.calls_perform hw) fun result => ?_
        split
        · trivial
        · cases result with
          | error e => trivial
          | ok o =>
              simp only
              split <;> trivial
  unfold producePartitionProgram
  split
  · split
    · trivial
    · trivial
    · exact hstore _
  · exact hstore 0

theorem fetchPartition_calls (h : names topic) (part : FetchPartitionData) (remaining : Int32) :
    (fetchPartitionProgram topic part remaining).Calls (Touches names writing caching) := by
  refine .bind (getOrCreate_calls h _) fun r => ?_
  cases r with
  | some e => trivial
  | none =>
      refine .bind (Program.calls_perform trivial) fun size => ?_
      simp only
      generalize (if remaining < part.partitionMaxBytes then remaining
        else part.partitionMaxBytes) = cap
      split
      · trivial
      · split
        · trivial
        · split
          · trivial
          · refine .bind (Program.calls_perform trivial) fun result => ?_
            rcases result with e|⟨r,n⟩
            · trivial
            · refine .bind (Program.calls_perform trivial) fun bytes => ?_
              cases bytes with
              | error e => trivial
              | ok raw =>
                  simp only
                  split
                  · trivial
                  · split <;> trivial

theorem fetchPartitions_calls (h : names topic) (parts : List FetchPartitionData)
    (remaining : Int32) :
    (fetchPartitionsProgram topic parts remaining).Calls (Touches names writing caching) := by
  induction parts generalizing remaining with
  | nil => trivial
  | cons part parts ih =>
      refine .bind (fetchPartition_calls h part remaining) fun r => ?_
      rcases r with _|⟨resp,remaining⟩
      · trivial
      · exact .bind (ih remaining) fun _ => trivial

theorem fetchTopics_calls {topics : List FetchTopicData} (h : ∀ t ∈ topics, names t.topicName)
    (remaining : Int32) :
    (fetchTopicsProgram topics remaining).Calls (Touches names writing caching) := by
  induction topics generalizing remaining with
  | nil => trivial
  | cons t topics ih =>
      obtain ⟨ht,hts⟩ := List.forall_mem_cons.mp h
      refine .bind (fetchPartitions_calls ht t.partitions remaining) fun r => ?_
      rcases r with _|⟨parts,remaining⟩
      · trivial
      · exact .bind (ih hts remaining) fun _ => trivial

theorem listOffsetsPartition_calls {topicName : WireString} (h : names topicName.1)
    (part : ListOffsetsPartitionRequest) :
    (listOffsetsPartitionProgram topicName part).Calls (Touches names writing caching) := by
  unfold listOffsetsPartitionProgram
  split
  · trivial
  · split
    · refine .bind (getOrCreate_calls h _) fun r => ?_
      cases r with
      | some e => trivial
      | none => exact .bind (Program.calls_perform trivial) fun _ => trivial
    · trivial

theorem ensureTopics_calls {topics : List WireString} (h : ∀ t ∈ topics, names t.1) :
    (ensureTopicsProgram topics).Calls (Touches names writing caching) := by
  induction topics with
  | nil => trivial
  | cons t topics ih =>
      obtain ⟨ht,hts⟩ := List.forall_mem_cons.mp h
      exact .bind (getOrCreate_calls ht 0) fun _ => ih hts

theorem commitPartition_calls {c : Commit} (h : names ConsumerOffsetsTopic)
    (hw : writing c.record) : (commitPartitionProgram c).Calls (Touches names writing True) := by
  refine .bind (getOrCreate_calls h 0) fun r => ?_
  cases r with
  | some e => trivial
  | none =>
      refine .bind (Program.calls_perform hw) fun result => ?_
      cases result with
      | error e => trivial
      | ok o => exact ⟨trivial,fun _ => trivial⟩

end

/-- A request stays with the topics and the records that it names. -/
theorem serve_calls (r : Request) : (serve r).Calls (Touches (Names r) (Writes r) (Caches r)) := by
  cases r with
  | produce req =>
      refine .bind (forEach_topics_calls fun t ht part hp => ?_) fun _ => trivial
      exact producePartition_calls ⟨t,ht,rfl⟩ ⟨t,ht,part,hp,rfl⟩
  | fetch req => exact .bind (fetchTopics_calls (fun t ht => ⟨t,ht,rfl⟩) _) fun _ => trivial
  | listOffsets req =>
      refine .bind (forEach_topics_calls fun t ht part _ => ?_) fun _ => trivial
      exact listOffsetsPartition_calls ⟨t,ht,rfl⟩ part
  | metadata req =>
      refine .bind (.bind (ensureTopics_calls fun t ht => ⟨t,ht,rfl⟩) fun _ => ?_) fun _ => trivial
      exact .bind (Program.calls_perform trivial) fun _ => trivial
  | offsetCommit req =>
      refine .bind (forEach_topics_calls fun t ht part _ => ?_) fun _ => trivial
      exact commitPartition_calls (show Names (.offsetCommit req) ConsumerOffsetsTopic from rfl)
        ⟨_,rfl⟩
  | offsetFetch req => exact .bind (Program.calls_perform trivial) fun _ => trivial
  | findCoordinator req => trivial
  | joinGroup req => trivial
  | heartbeat req => trivial
  | leaveGroup req => trivial
  | syncGroup req => trivial
  | apiVersions => trivial

/-- Calls that write nothing are not accepted appends. -/
theorem accepted_of_quiet {α : Type} {names : Bytes → Prop} {caching : Prop}
    {p q : BrokerProgram α} {es : List BrokerEvent} (h : Path p es q)
    (hp : p.Calls (Touches names (fun _ => False) caching)) :
    es.filterMap accepted = [] := by
  refine List.filterMap_eq_nil_iff.mpr fun e he => ?_
  have hop := (h.allowed hp).1 e he
  rcases e with ⟨o,r⟩
  cases o <;> first | rfl | exact hop.elim

/-- An entry with this code was appended with this offset, or was not. -/
def Entry (topic : Bytes) (partition : Int32) (data : Bytes) (errorCode : Int16)
    (offset : UInt64) (l : List Accepted) : Prop :=
  l = if errorCode = 0 then [⟨topic,partition,data,offset⟩] else []

/-- The appends that a response tells of. -/
def Acks : Request → Response → List Accepted → Prop
  | .produce req,.produce topics,l => Each (fun topic tresp l => tresp.topicName = topic.topicName ∧
      Each (fun part presp l => presp.partition = part.partition ∧
        Entry topic.topicName.1 part.partition part.recordBatch presp.errorCode
          presp.baseOffset.toUInt64 l) topic.partitions tresp.partitions l) req.topics topics l
  | .offsetCommit req,.offsetCommit topics,l => Each (fun topic tresp l =>
      tresp.topicName = topic.topicName ∧
      Each (fun part presp l => presp.partition = part.partition ∧
        ∃ offset, Entry ConsumerOffsetsTopic 0 (Commit.record ⟨req.request.groupID,topic.topicName,
          part.partition,part.committedOffset⟩) presp.errorCode offset l)
        topic.partitions tresp.partitions l) req.request.topics topics l
  | _,_,l => l = []

section
variable {es : List BrokerEvent}

theorem getOrCreate_accepted {topic : Bytes} {partition : Int32} {r : Option Err}
    (h : Path (getOrCreatePartitionProgram topic partition) es (.done r)) :
    es.filterMap accepted = [] :=
  accepted_of_quiet h (show (getOrCreatePartitionProgram topic partition).Calls
    (Touches (fun _ => True) (fun _ => False) True) from getOrCreate_calls trivial partition)

/-- Looking a partition up or creating it succeeds and leaves it open. -/
theorem getOrCreate_opens {cfg : SegmentLog.SegmentConfig} {s t : Ledger} {l : List BrokerEvent}
    {topic : Bytes} {partition : Int32} {r : Option Err}
    (h : Path (getOrCreatePartitionProgram topic partition) l (.done r)) (hl : l.Sublist es)
    (hruns : Runs (Ledger.Step cfg) s es t) :
    r = none ∧ (t.active (partitionKey topic partition)).isSome := by
  obtain ⟨found,fs,rfl,hfs⟩ := Path.of_perform h
  obtain ⟨u,u',gs,gs',rfl,hsub,-,hstep,hrest⟩ := hruns.pick hl
  cases found with
  | true =>
      cases (Path.of_done hfs).2
      exact ⟨rfl,runs_isSome hrest ((step_isSome hstep _).mpr (.inl hstep.1.symm))⟩
  | false =>
      obtain ⟨r',hs,rfl,hd⟩ := Path.of_call hfs
      obtain ⟨v,v',hs₁,hs₂,-,-,-,hstep',hrest'⟩ := hrest.pick hsub
      cases (Path.of_done hd).2
      exact ⟨hstep'.1,
        runs_isSome hrest' ((step_isSome hstep' _).mpr (.inr ⟨topic,partition,rfl,rfl⟩))⟩

/-- Each entry of a loop makes its calls and has its result. -/
theorem forEach_path {α β : Type} {f : α → BrokerProgram (Option β)} {as : List α} {bs : List β}
    (h : Path (forEach f as) es (.done (some bs))) :
    Each (fun a b l => Path (f a) l (.done (some b))) as bs es := by
  induction as generalizing bs es with
  | nil =>
      obtain ⟨rfl,hb⟩ := Path.of_done h
      cases hb
      exact .nil
  | cons a as ih =>
      obtain ⟨b,fs,gs,rfl,hb,hrest⟩ := Path.of_bind h
      cases b with
      | none => cases (Path.of_done hrest).2
      | some b =>
          obtain ⟨bs',hbs,hmap⟩ := Path.of_map hrest
          obtain ⟨bs,rfl,rfl⟩ := Option.map_eq_some_iff.mp hmap
          exact .cons hb (ih hbs)

theorem storeBatch_accepted {topicName : WireString} {part : ProducePartitionData} {n : Int32}
    {resp : ProducePartitionResponse}
    (h : Path (storeBatchProgram topicName part n) es (.done (some resp))) :
    resp.partition = part.partition ∧ Entry topicName.1 part.partition part.recordBatch
      resp.errorCode resp.baseOffset.toUInt64 (es.filterMap accepted) := by
  obtain ⟨r,fs,gs,rfl,hfs,hgs⟩ := Path.of_bind h
  rw [List.filterMap_append,getOrCreate_accepted hfs,List.nil_append]
  cases r with
  | some e =>
      obtain ⟨rfl,hd⟩ := Path.of_done hgs
      cases hd
      exact ⟨rfl,rfl⟩
  | none =>
      obtain ⟨result,hs,rfl,hr⟩ := Path.of_perform hgs
      split at hr
      · cases (Path.of_done hr).2
      · cases result with
        | error e =>
            obtain ⟨rfl,hd⟩ := Path.of_done hr
            cases hd
            exact ⟨rfl,rfl⟩
        | ok o =>
            simp only at hr
            split at hr
            · cases (Path.of_done hr).2
            · obtain ⟨rfl,hd⟩ := Path.of_done hr
              cases hd
              exact ⟨rfl,by simp [Entry,accepted]⟩

theorem producePartition_accepted {topicName : WireString} {part : ProducePartitionData}
    {resp : ProducePartitionResponse}
    (h : Path (producePartitionProgram topicName part) es (.done (some resp))) :
    resp.partition = part.partition ∧ Entry topicName.1 part.partition part.recordBatch
      resp.errorCode resp.baseOffset.toUInt64 (es.filterMap accepted) := by
  unfold producePartitionProgram at h
  split at h
  · split at h
    · cases (Path.of_done h).2
    · obtain ⟨rfl,hr⟩ := Path.of_done h
      cases hr
      exact ⟨rfl,rfl⟩
    · exact storeBatch_accepted h
  · exact storeBatch_accepted h

theorem commitPartition_accepted {c : Commit} {resp : OffsetCommitPartitionResponse}
    (h : Path (commitPartitionProgram c) es (.done (some resp))) :
    resp.partition = c.partition ∧ ∃ offset,
      Entry ConsumerOffsetsTopic 0 c.record resp.errorCode offset (es.filterMap accepted) := by
  obtain ⟨r,fs,gs,rfl,hfs,hgs⟩ := Path.of_bind h
  rw [List.filterMap_append,getOrCreate_accepted hfs,List.nil_append]
  cases r with
  | some e =>
      obtain ⟨rfl,hd⟩ := Path.of_done hgs
      cases hd
      exact ⟨rfl,0,rfl⟩
  | none =>
      obtain ⟨result,hs,rfl,hr⟩ := Path.of_perform hgs
      cases result with
      | error e =>
          obtain ⟨rfl,hd⟩ := Path.of_done hr
          cases hd
          exact ⟨rfl,0,rfl⟩
      | ok o =>
          obtain ⟨u,us,rfl,hu⟩ := Path.of_call hr
          obtain ⟨rfl,hd⟩ := Path.of_done hu
          cases hd
          exact ⟨rfl,o,rfl⟩

/-- The appends of a request that was answered are those its response tells of. -/
theorem serve_acks {r : Request} {resp : Response}
    (h : Path (serve r) es (.done (some resp))) : Acks r resp (es.filterMap accepted) := by
  have hquiet (hw : ∀ data, ¬Writes r data) : es.filterMap accepted = [] :=
    accepted_of_quiet h ((serve_calls r).mono fun o ho => by
      cases o <;> first | exact ho | exact (hw _ ho).elim)
  cases r with
  | produce req =>
      obtain ⟨out,hout,hmap⟩ := Path.of_map h
      obtain ⟨topics,rfl,rfl⟩ := Option.map_eq_some_iff.mp hmap
      refine (forEach_path hout).filterMap fun topic tresp fs ht => ?_
      obtain ⟨parts',hp,hmap⟩ := Path.of_map ht
      obtain ⟨parts,rfl,rfl⟩ := Option.map_eq_some_iff.mp hmap
      exact ⟨rfl,(forEach_path hp).filterMap fun _ _ _ => producePartition_accepted⟩
  | offsetCommit req =>
      obtain ⟨out,hout,hmap⟩ := Path.of_map h
      obtain ⟨topics,rfl,rfl⟩ := Option.map_eq_some_iff.mp hmap
      refine (forEach_path hout).filterMap fun topic tresp fs ht => ?_
      obtain ⟨parts',hp,hmap⟩ := Path.of_map ht
      obtain ⟨parts,rfl,rfl⟩ := Option.map_eq_some_iff.mp hmap
      exact ⟨rfl,(forEach_path hp).filterMap fun _ _ _ => commitPartition_accepted⟩
  | _ => exact hquiet fun _ => id

end

end Kage.AcknowledgedRecords
