import Kage.OffsetRestart

/-!
# Committed offsets as a map

Commits and fetches of offsets are handled one at a time, with any failures of the
storage among them. Seen from outside they are a map in which the last accepted
commit of a key wins: a fetch is answered from the commits that were answered
without an error so far, and from no others.

One entry of a commit goes to the log first and to the cache only if that did not
fail, so the cache follows the answers whatever the log is like.
-/
namespace Kage.OffsetRefinement
open FaultyDisk BrokerStores LastWrite OffsetRecords OffsetHandlers OffsetRestart

inductive Op
  | commit (req : OffsetCommitRequest)
  | fetch (req : OffsetFetchRequest)

/-- A request and its answer. -/
inductive Exchange
  | commit (req : OffsetCommitRequest) (resp : List OffsetCommitTopicResponse)
  | fetch (req : OffsetFetchRequest) (resp : List OffsetFetchTopicResponse)

def Exchange.op : Exchange → Op
  | commit req _ => .commit req
  | fetch req _ => .fetch req

def step : Op → Handler → Disk → Exchange × Handler × Disk
  | .commit req,h,d =>
      match handleOffsetCommit req h d with
      | (resp,h,d) => (.commit req resp,h,d)
  | .fetch req,h,d => (.fetch req (handleOffsetFetch req h),h,d)

/-- What is said while the requests are handled. -/
def run : List Op → Handler → Disk → List Exchange
  | [],_,_ => []
  | op::ops,h,d =>
      match step op h d with
      | (x,h,d) => x::run ops h d

/-- The entries of a topic that were answered without an error. -/
def acceptedPartitions (groupID topicName : WireString) (parts : List OffsetCommitPartition)
    (resps : List OffsetCommitPartitionResponse) : List Commit :=
  (parts.zip resps).filterMap fun x =>
    if x.2.errorCode = 0 then some ⟨groupID,topicName,x.1.partition,x.1.committedOffset⟩ else none

def acceptedTopics (groupID : WireString) (topics : List OffsetCommitTopic)
    (resps : List OffsetCommitTopicResponse) : List Commit :=
  (topics.zip resps).flatMap fun x =>
    acceptedPartitions groupID x.1.topicName x.1.partitions x.2.partitions

def Exchange.accepted : Exchange → List Commit
  | commit req resp => acceptedTopics req.groupID req.topics resp
  | fetch _ _ => []

/-- Every entry of the request is answered in its place. -/
def Aligned (topics : List OffsetCommitTopic) (resps : List OffsetCommitTopicResponse) : Prop :=
  resps.map (fun t => (t.topicName,t.partitions.map fun p => p.partition)) =
    topics.map fun t => (t.topicName,t.partitions.map fun p => p.partition)

/-- The cache is what these commits made of the one in the beginning. -/
def Refines (cache : OffsetCache) (h : Handler) (cs : List Commit) : Prop :=
  h.offsetCache = replay cache (cs.map Commit.write)

section Steps
variable {cache : OffsetCache} {h h' : Handler} {d d' : Disk} {cs : List Commit}

theorem Refines.refl (h : Handler) : Refines h.offsetCache h [] := rfl

theorem Refines.add (hr : Refines cache h cs) (c : Commit) (bs : BrokerStore) :
    Refines cache ⟨cacheCommit c h.offsetCache,bs⟩ (cs++[c]) := by
  rw [Refines,List.map_append,replay,List.foldl_append]
  exact congrArg (cacheCommit c) hr

/-- One entry: the cache changes exactly when the answer is no error. -/
theorem commitPartition_refines (hr : Refines cache h cs) (groupID topicName : WireString)
    (part : OffsetCommitPartition) {resp : OffsetCommitPartitionResponse}
    (hc : commitPartition ⟨groupID,topicName,part.partition,part.committedOffset⟩ h d =
      (resp,h',d')) :
    resp.partition = part.partition ∧
      Refines cache h' (cs++acceptedPartitions groupID topicName [part] [resp]) := by
  unfold commitPartition at hc
  rcases ha : appendCommit ⟨groupID,topicName,part.partition,part.committedOffset⟩ h.store d with
    ⟨err,bs,e⟩
  rw [ha] at hc
  cases err with
  | some x =>
      cases hc
      refine ⟨rfl,?_⟩
      have hnone : acceptedPartitions groupID topicName [part] [⟨part.partition,1⟩] = [] := rfl
      rw [hnone,List.append_nil]
      exact hr
  | none =>
      cases hc
      exact ⟨rfl,hr.add _ bs⟩

theorem commitPartitions_refines (hr : Refines cache h cs) (groupID topicName : WireString)
    (parts : List OffsetCommitPartition) {resps : List OffsetCommitPartitionResponse}
    (hc : commitPartitions groupID topicName parts h d = (resps,h',d')) :
    resps.map (fun p => p.partition) = parts.map (fun p => p.partition) ∧
      Refines cache h' (cs++acceptedPartitions groupID topicName parts resps) := by
  induction parts generalizing h d cs resps with
  | nil =>
      cases hc
      exact ⟨rfl,by rwa [acceptedPartitions,List.zip_nil_left,List.filterMap_nil,List.append_nil]⟩
  | cons part parts ih =>
      rw [commitPartitions] at hc
      rcases hp : commitPartition ⟨groupID,topicName,part.partition,part.committedOffset⟩ h d with
        ⟨resp,h₁,d₁⟩
      rcases hq : commitPartitions groupID topicName parts h₁ d₁ with ⟨resps₁,h₂,d₂⟩
      simp only [hp,hq] at hc
      cases hc
      obtain ⟨hn,hr₁⟩ := commitPartition_refines hr groupID topicName part hp
      obtain ⟨hns,hr₂⟩ := ih hr₁ hq
      refine ⟨by rw [List.map_cons,List.map_cons,hn,hns],?_⟩
      have hsplit : acceptedPartitions groupID topicName (part::parts) (resp::resps₁) =
          acceptedPartitions groupID topicName [part] [resp]++
            acceptedPartitions groupID topicName parts resps₁ := by
        unfold acceptedPartitions
        rw [← List.filterMap_append]
        rfl
      rwa [hsplit,← List.append_assoc]

theorem commitTopics_refines (hr : Refines cache h cs) (groupID : WireString)
    (topics : List OffsetCommitTopic) {resps : List OffsetCommitTopicResponse}
    (hc : commitTopics groupID topics h d = (resps,h',d')) :
    Aligned topics resps ∧ Refines cache h' (cs++acceptedTopics groupID topics resps) := by
  induction topics generalizing h d cs resps with
  | nil =>
      cases hc
      exact ⟨rfl,by rwa [acceptedTopics,List.zip_nil_left,List.flatMap_nil,List.append_nil]⟩
  | cons topic topics ih =>
      rw [commitTopics] at hc
      rcases hp : commitPartitions groupID topic.topicName topic.partitions h d with ⟨parts,h₁,d₁⟩
      rcases hq : commitTopics groupID topics h₁ d₁ with ⟨resps₁,h₂,d₂⟩
      simp only [hp,hq] at hc
      cases hc
      obtain ⟨hn,hr₁⟩ := commitPartitions_refines hr groupID topic.topicName topic.partitions hp
      obtain ⟨hns,hr₂⟩ := ih hr₁ hq
      refine ⟨?_,?_⟩
      · rw [Aligned] at hns ⊢
        rw [List.map_cons,List.map_cons,hns,hn]
      · rw [acceptedTopics,List.zip_cons_cons,List.flatMap_cons,← List.append_assoc]
        exact hr₂

/-- One request: a fetch is answered from the map, and the map goes on with what
was accepted. -/
theorem step_refines (hr : Refines (fun _ => none) h cs) (op : Op) {x : Exchange}
    (hs : step op h d = (x,h',d')) : x.op = op ∧ Refines (fun _ => none) h' (cs++x.accepted) ∧
      (∀ req resp, x = .fetch req resp → resp = expected cs req) ∧
      ∀ req resp, x = .commit req resp → Aligned req.topics resp := by
  cases op with
  | commit req =>
      rw [step] at hs
      rcases hc : handleOffsetCommit req h d with ⟨resp,h₁,d₁⟩
      simp only [hc] at hs
      cases hs
      obtain ⟨ha,hr₁⟩ := commitTopics_refines hr req.groupID req.topics hc
      refine ⟨rfl,hr₁,fun _ _ hx => ?_,fun _ _ hx => ?_⟩
      · cases hx
      · cases hx
        exact ha
  | fetch req =>
      cases hs
      refine ⟨rfl,?_,fun _ _ hx => ?_,fun _ _ hx => ?_⟩
      · rwa [Exchange.accepted,List.append_nil]
      · cases hx
        exact handleOffsetFetch_eq hr req
      · cases hx

/-- Every exchange of a run is as the map that the run before it left says. -/
theorem run_refines (hr : Refines (fun _ => none) h cs) (ops : List Op) :
    (run ops h d).map Exchange.op = ops ∧
      (∀ before req resp after, run ops h d = before++.fetch req resp::after →
        resp = expected (cs++before.flatMap Exchange.accepted) req) ∧
      ∀ req resp, .commit req resp ∈ run ops h d → Aligned req.topics resp := by
  induction ops generalizing h d cs with
  | nil =>
      refine ⟨rfl,fun before req resp after hx => ?_,fun _ _ hx => (List.not_mem_nil hx).elim⟩
      exact absurd hx.symm (List.append_ne_nil_of_right_ne_nil _ (List.cons_ne_nil _ _))
  | cons op ops ih =>
      rcases hs : step op h d with ⟨x,h₁,d₁⟩
      obtain ⟨hop,hr₁,hfetch,hcommit⟩ := step_refines hr op hs
      obtain ⟨hops,hfetches,hcommits⟩ := ih (d := d₁) hr₁
      simp only [run,hs]
      refine ⟨by rw [List.map_cons,hop,hops],?_,?_⟩
      · intro before req resp after hx
        cases before with
        | nil =>
            obtain ⟨rfl,-⟩ := List.cons.inj hx
            rw [List.flatMap_nil,List.append_nil]
            exact hfetch req resp rfl
        | cons y before =>
            obtain ⟨rfl,hrest⟩ := List.cons.inj hx
            rw [List.flatMap_cons,← List.append_assoc]
            exact hfetches before req resp after hrest
      · intro req resp hx
        rcases List.mem_cons.mp hx with hx|hx
        · exact hcommit req resp hx.symm
        · exact hcommits req resp hx

end Steps

/-- Whatever the storage does, a fetch of a run is answered from the commits that
were answered without an error before it, the last one of each key, and every
entry of a commit has its answer in its place. -/
theorem offsets_refine_map (ops : List Op) (bs : BrokerStore) (d : Disk) :
    (run ops (newHandler bs) d).map Exchange.op = ops ∧
      (∀ before req resp after,
        run ops (newHandler bs) d = before++.fetch req resp::after →
          resp = expected (before.flatMap Exchange.accepted) req) ∧
      ∀ req resp, .commit req resp ∈ run ops (newHandler bs) d → Aligned req.topics resp :=
  run_refines (Refines.refl (newHandler bs)) ops

end Kage.OffsetRefinement
