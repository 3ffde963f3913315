import Kage.OffsetStorage

/-!
# Committed offsets across a restart

A broker handles requests that commit offsets, is closed and opened again, and
a new handler fills its cache from the log. A consumer then expects the offset
it committed last. What it gets is what it committed last among the records
that lie whole in the first `2^31-1` bytes of the first segment, and when those
bytes end in the body of a record the broker does not start at all.

`Survives` states what the consumer expects and the result says exactly for
which sequences of commits it holds.
-/
namespace Kage.OffsetRestart
open ByteStrings LengthPrefixed FaultyDisk SegmentLog PartitionLog RollingLog PartitionRuns
open BrokerStores LastWrite OffsetRecords OffsetHandlers OffsetStorage

/-- Requests handled one after another. -/
def serve : List OffsetCommitRequest → Handler → Disk →
    List (List OffsetCommitTopicResponse) × Handler × Disk
  | [],h,d => ([],h,d)
  | req::reqs,h,d =>
      match handleOffsetCommit req h d with
      | (resp,h,d) =>
          match serve reqs h d with
          | (resps,h,d) => (resp::resps,h,d)

/-- No commit was answered with an error. -/
def Accepted (resps : List (List OffsetCommitTopicResponse)) : Prop :=
  ∀ resp ∈ resps, ∀ t ∈ resp, ∀ p ∈ t.partitions, p.errorCode = 0

/-- Close the broker, open it again and load the cache of a new handler. -/
def restart (root : List Bytes) (cfg : SegmentConfig) (h : Handler) (d : Disk) :
    Except Err (Handler × Disk) :=
  match h.store.close d with
  | (some e,_) => .error e
  | (none,d) =>
      match openBrokerStore root cfg d with
      | (.error e,_) => .error e
      | (.ok bs,d) =>
          match loadOffsetsCache (newHandler bs) d with
          | (some e,_,_) => .error e
          | (none,h,d) => .ok (h,d)

/-- The offset of the last commit for a key, or the unknown offset. -/
def lastOffset (cs : List Commit) (k : OffsetCacheKey) : Int64 :=
  ((cs.reverse.find? fun c => decide (c.key = k)).map Commit.offset).getD OffsetUnknown

/-- What a consumer should be told after these commits. -/
def expected (cs : List Commit) (req : OffsetFetchRequest) : List OffsetFetchTopicResponse :=
  req.topics.map fun topic => ⟨topic.topicName,topic.partitions.map fun partition =>
    ⟨partition,lastOffset cs ⟨req.groupID.1,topic.topicName.1,partition⟩,[],0⟩⟩

/-- The restart succeeds and every request for offsets is answered from all the
commits. -/
def Survives (root : List Bytes) (cfg : SegmentConfig) (h : Handler) (d : Disk)
    (cs : List Commit) : Prop :=
  ∃ h' e, restart root cfg h d = .ok (h',e) ∧ ∀ req, handleOffsetFetch req h' = expected cs req

/-- The commits whose records stay in the first segment. -/
def inFirstSegment (cfg : SegmentConfig) (cs : List Commit) : List Commit :=
  Rolling.fitting commitSize (capacity cfg) 0 cs

/-- The handled commits went to the log in order, and each fits in a segment. -/
def Logs (root : List Bytes) (cfg : SegmentConfig) (cs : List Commit) (h : Handler) (d : Disk)
    (h' : Handler) (d' : Disk) : Prop :=
  ∀ r, Keeps root cfg h.store d r →
    Keeps root cfg h'.store d' (r.run (capacity cfg) (cs.map fun c => frame c.record)) ∧
      ∀ c ∈ cs, commitSize c ≤ capacity cfg

section Serving
variable {root : List Bytes} {cfg : SegmentConfig} {h h₁ h₂ : Handler} {d d₁ d₂ : Disk}

theorem Logs.refl (h : Handler) (d : Disk) : Logs root cfg [] h d h d :=
  fun _ hr => ⟨hr,fun _ hc => (List.not_mem_nil hc).elim⟩

theorem Logs.trans {cs cs' : List Commit} (a : Logs root cfg cs h d h₁ d₁)
    (b : Logs root cfg cs' h₁ d₁ h₂ d₂) : Logs root cfg (cs++cs') h d h₂ d₂ := by
  intro r hr
  obtain ⟨hr₁,hc₁⟩ := a r hr
  obtain ⟨hr₂,hc₂⟩ := b _ hr₁
  rw [List.map_append,Rolling.run_append]
  exact ⟨hr₂,List.forall_mem_append.mpr ⟨hc₁,hc₂⟩⟩

theorem commitPartition_logs (c : Commit) {resp : OffsetCommitPartitionResponse}
    (hc : commitPartition c h d = (resp,h₁,d₁)) (h0 : resp.errorCode = 0) :
    Logs root cfg [c] h d h₁ d₁ := by
  intro r hr
  obtain ⟨err,bs,e,ha,herr,hk⟩ := hr.appendCommit c
  rw [commitPartition,ha] at hc
  cases err with
  | some x =>
      obtain ⟨rfl,-⟩ := Prod.mk.inj hc
      exact absurd h0 (show (1 : Int16) ≠ 0 by decide)
  | none =>
      obtain ⟨-,hc⟩ := Prod.mk.inj hc
      obtain ⟨rfl,rfl⟩ := Prod.mk.inj hc
      refine ⟨hk,fun c' hc' => ?_⟩
      rw [List.mem_singleton.mp hc']
      exact Rolling.length_le_of_isSome (herr.mp rfl)

theorem commitPartitions_logs (groupID topicName : WireString) (parts : List OffsetCommitPartition)
    {resps : List OffsetCommitPartitionResponse}
    (hc : commitPartitions groupID topicName parts h d = (resps,h₁,d₁))
    (h0 : ∀ p ∈ resps, p.errorCode = 0) :
    Logs root cfg (topicCommits groupID ⟨topicName,parts⟩) h d h₁ d₁ := by
  induction parts generalizing h d resps with
  | nil =>
      obtain ⟨-,hc⟩ := Prod.mk.inj hc
      obtain ⟨rfl,rfl⟩ := Prod.mk.inj hc
      exact .refl h d
  | cons part parts ih =>
      rcases h₁' : commitPartition ⟨groupID,topicName,part.partition,part.committedOffset⟩ h d with
        ⟨resp,h',d'⟩
      rcases h₂' : commitPartitions groupID topicName parts h' d' with ⟨resps',h'',d''⟩
      simp only [commitPartitions,h₁',h₂'] at hc
      obtain ⟨rfl,hs⟩ := Prod.mk.inj hc
      obtain ⟨rfl,rfl⟩ := Prod.mk.inj hs
      rw [List.forall_mem_cons] at h0
      exact (commitPartition_logs _ h₁' h0.1).trans (ih h₂' h0.2)

theorem commitTopics_logs (groupID : WireString) (topics : List OffsetCommitTopic)
    {resps : List OffsetCommitTopicResponse}
    (hc : commitTopics groupID topics h d = (resps,h₁,d₁))
    (h0 : ∀ t ∈ resps, ∀ p ∈ t.partitions, p.errorCode = 0) :
    Logs root cfg (topics.flatMap (topicCommits groupID)) h d h₁ d₁ := by
  induction topics generalizing h d resps with
  | nil =>
      obtain ⟨-,hc⟩ := Prod.mk.inj hc
      obtain ⟨rfl,rfl⟩ := Prod.mk.inj hc
      exact .refl h d
  | cons topic topics ih =>
      rcases h₁' : commitPartitions groupID topic.topicName topic.partitions h d with ⟨parts,h',d'⟩
      rcases h₂' : commitTopics groupID topics h' d' with ⟨resps',h'',d''⟩
      simp only [commitTopics,h₁',h₂'] at hc
      obtain ⟨rfl,hs⟩ := Prod.mk.inj hc
      obtain ⟨rfl,rfl⟩ := Prod.mk.inj hs
      rw [List.forall_mem_cons] at h0
      rw [List.flatMap_cons]
      exact (commitPartitions_logs groupID topic.topicName topic.partitions h₁' h0.1).trans
        (ih h₂' h0.2)

theorem serve_logs (reqs : List OffsetCommitRequest)
    {resps : List (List OffsetCommitTopicResponse)} (hc : serve reqs h d = (resps,h₁,d₁))
    (h0 : Accepted resps) : Logs root cfg (reqs.flatMap commits) h d h₁ d₁ := by
  induction reqs generalizing h d resps with
  | nil =>
      obtain ⟨-,hc⟩ := Prod.mk.inj hc
      obtain ⟨rfl,rfl⟩ := Prod.mk.inj hc
      exact .refl h d
  | cons req reqs ih =>
      rcases h₁' : handleOffsetCommit req h d with ⟨resp,h',d'⟩
      rcases h₂' : serve reqs h' d' with ⟨resps',h'',d''⟩
      simp only [serve,h₁',h₂'] at hc
      obtain ⟨rfl,hs⟩ := Prod.mk.inj hc
      obtain ⟨rfl,rfl⟩ := Prod.mk.inj hs
      rw [Accepted,List.forall_mem_cons] at h0
      rw [List.flatMap_cons]
      exact (commitTopics_logs req.groupID req.topics h₁' h0.1).trans (ih h₂' h0.2)

end Serving

section Answers

theorem lastOffset_eq (cs : List Commit) (k : OffsetCacheKey) :
    lastOffset cs k = (replay (fun _ => none) (cs.map Commit.write) k).getD OffsetUnknown := by
  rw [replay_eq_lastValue,lastOffset,lastValue,← List.map_reverse,List.find?_map,Option.map_map]
  rfl

/-- A handler that replayed some commits answers with the last of those. -/
theorem handleOffsetFetch_eq {h : Handler} {cs : List Commit}
    (hc : h.offsetCache = replay (fun _ => none) (cs.map Commit.write)) (req : OffsetFetchRequest) :
    handleOffsetFetch req h = expected cs req := by
  unfold handleOffsetFetch expected
  simp only [lastOffset_eq,← hc]
  refine List.map_congr_left fun topic _ => ?_
  congr 1
  refine List.map_congr_left fun partition _ => ?_
  cases h.offsetCache ⟨req.groupID.1,topic.topicName.1,partition⟩ <;> rfl

/-- Two histories answer every request alike when they agree on every key that
a request can name. -/
theorem expected_eq_iff (cs cs' : List Commit) :
    (∀ req, expected cs req = expected cs' req) ↔
      ∀ (g t : WireString) (p : Int32), lastOffset cs ⟨g.1,t.1,p⟩ = lastOffset cs' ⟨g.1,t.1,p⟩ := by
  constructor
  · intro h g t p
    have hr := h ⟨g,[⟨t,[p]⟩]⟩
    simpa [expected] using hr
  · intro h req
    unfold expected
    simp only [h]

end Answers

/-- The log that a restart finds after some commits. -/
theorem restart_spec {root : List Bytes} {cfg : SegmentConfig} {d d₁ : Disk} {h₁ : Handler}
    {cs : List Commit} (hf : Fresh root d)
    (hl : Logs root cfg cs (newHandler ⟨root,cfg,∅⟩) d h₁ d₁) :
    ∃ err h₂ d₂, restart root cfg h₁ d₁ = (match err with
        | some e => .error e
        | none => .ok (h₂,d₂)) ∧
      h₂.offsetCache =
        replay (fun _ => none) ((hydrated (inFirstSegment cfg cs)).map Commit.write) ∧
      (err = none ↔ min (totalSize (inFirstSegment cfg cs)) hydrationWindow <
        totalSize (hydrated (inFirstSegment cfg cs))+4) := by
  obtain ⟨hk,hsize⟩ := hl _ (.unopened hf)
  obtain ⟨e,bs₂,e₂,ps,bs₃,e₃,r',hc,ho,hg,hfol,hact⟩ := hk.reopen
  have hpart := Rolling.Tiles.empty.run_part_zero (fun c : Commit => frame c.record) hsize
  have hlog : r'.active = commitLog (inFirstSegment cfg cs) := by
    rw [hact,hpart,commitLog,frames,List.flatMap_map]
    rfl
  have hlen : r'.active.length < 2^63 := by
    have hs := Rolling.sum_fitting_le commitSize (Nat.zero_le (capacity cfg)) cs
    rw [Nat.zero_add] at hs
    rw [hlog,commitLog_length]
    exact lt_of_le_of_lt hs (capacity_lt cfg)
  obtain ⟨err,h₂,d₂,hload,hcache,herr⟩ := loadOffsetsCache_spec hg hfol.holds hlog hlen
  refine ⟨err,h₂,d₂,?_,hcache,herr⟩
  simp only [restart,hc,ho,hload]
  cases err <;> rfl

/-- Committed offsets survive a restart exactly when the bytes that are read
back do not end in the body of a record and no key was last committed in a
record behind them, unless with the offset that is read back. -/
theorem offsets_survive_iff (root : List Bytes) (cfg : SegmentConfig) (d : Disk)
    (hf : Fresh root d) :
    ∃ bs, openBrokerStore root cfg d = (.ok bs,d) ∧
      ∀ reqs resps h e, serve reqs (newHandler bs) d = (resps,h,e) → Accepted resps →
        (Survives root cfg h e (reqs.flatMap commits) ↔
          min (totalSize (inFirstSegment cfg (reqs.flatMap commits))) hydrationWindow <
              totalSize (hydrated (inFirstSegment cfg (reqs.flatMap commits)))+4 ∧
            ∀ (g t : WireString) (p : Int32),
              lastOffset (hydrated (inFirstSegment cfg (reqs.flatMap commits))) ⟨g.1,t.1,p⟩ =
                lastOffset (reqs.flatMap commits) ⟨g.1,t.1,p⟩) := by
  refine ⟨⟨root,cfg,∅⟩,openBrokerStore_fresh hf cfg,fun reqs resps h e hs ha => ?_⟩
  obtain ⟨err,h₂,d₂,hr,hcache,herr⟩ := restart_spec hf (serve_logs reqs hs ha)
  rw [Survives,hr,← herr,← expected_eq_iff]
  cases err with
  | some x =>
      refine ⟨fun hx => ?_,fun hx => absurd hx.1 nofun⟩
      obtain ⟨_,_,hx,-⟩ := hx
      cases hx
  | none =>
      simp only [true_and]
      constructor
      · rintro ⟨h',e',hx,hreq⟩ req
        obtain ⟨rfl,-⟩ := Prod.mk.inj (Except.ok.inj hx)
        rw [← hreq,handleOffsetFetch_eq hcache]
      · intro hreq
        exact ⟨h₂,d₂,rfl,fun req => (handleOffsetFetch_eq hcache req).trans (hreq req)⟩

theorem hydrated_eq_self (cfg : SegmentConfig) (cs : List Commit)
    (h : totalSize cs ≤ min (capacity cfg) hydrationWindow) :
    hydrated (inFirstSegment cfg cs) = cs := by
  have hf : inFirstSegment cfg cs = cs :=
    Rolling.fitting_eq_self (by rw [Nat.zero_add]; exact h.trans (min_le_left _ _))
  rw [hf]
  exact Rolling.fitting_eq_self (by rw [Nat.zero_add]; exact h.trans (min_le_right _ _))

def fetchRequest : OffsetFetchRequest := ⟨aGroup,[⟨aTopic,[0]⟩]⟩

/-- Two commits in a segment of the default size. -/
theorem offsets_survive_two_commits :
    Survives [] ⟨0⟩ (serve [commitRequest 1,commitRequest 2] (newHandler ⟨[],⟨0⟩,∅⟩) emptyRoot).2.1
      (serve [commitRequest 1,commitRequest 2] (newHandler ⟨[],⟨0⟩,∅⟩) emptyRoot).2.2
      ([commitRequest 1,commitRequest 2].flatMap commits) := by
  obtain ⟨bs,ho,h⟩ := offsets_survive_iff [] ⟨0⟩ emptyRoot fresh_emptyRoot
  rw [openBrokerStore_fresh fresh_emptyRoot] at ho
  obtain rfl := Except.ok.inj (Prod.mk.inj ho).1
  have hall := hydrated_eq_self ⟨0⟩ ([commitRequest 1,commitRequest 2].flatMap commits)
    (by decide +kernel)
  refine (h _ _ _ _ rfl ?_).mpr ⟨by decide +kernel,fun g t p => by rw [hall]⟩
  unfold Accepted
  decide +kernel

/-- The responses of a run and the answer after the restart. -/
def observed (cfg : SegmentConfig) (reqs : List OffsetCommitRequest) (fetch : OffsetFetchRequest) :
    List (List OffsetCommitTopicResponse) × Option (List OffsetFetchTopicResponse) :=
  match serve reqs (newHandler ⟨[],cfg,∅⟩) emptyRoot with
  | (resps,h,d) => (resps,(restart [] cfg h d).toOption.map fun r => handleOffsetFetch fetch r.1)

/-- Two commits under a limit of thirty bytes, which is the size of one record:
the second goes to the second segment, and after the restart the first one is
answered. -/
theorem first_commit_answered_after_restart :
    Accepted (serve [commitRequest 1,commitRequest 2] (newHandler ⟨[],⟨30⟩,∅⟩) emptyRoot).1 ∧
      (observed ⟨30⟩ [commitRequest 1,commitRequest 2] fetchRequest).2 =
        some [⟨aTopic,[⟨0,1,[],0⟩]⟩] ∧
      expected ([commitRequest 1,commitRequest 2].flatMap commits) fetchRequest =
        [⟨aTopic,[⟨0,2,[],0⟩]⟩] ∧
      ¬Survives [] ⟨30⟩
        (serve [commitRequest 1,commitRequest 2] (newHandler ⟨[],⟨30⟩,∅⟩) emptyRoot).2.1
        (serve [commitRequest 1,commitRequest 2] (newHandler ⟨[],⟨30⟩,∅⟩) emptyRoot).2.2
        ([commitRequest 1,commitRequest 2].flatMap commits) := by
  have ha : Accepted (serve [commitRequest 1,commitRequest 2] (newHandler ⟨[],⟨30⟩,∅⟩)
      emptyRoot).1 := by
    unfold Accepted
    decide +kernel
  have ho : (observed ⟨30⟩ [commitRequest 1,commitRequest 2] fetchRequest).2 =
      some [⟨aTopic,[⟨0,1,[],0⟩]⟩] := by decide +kernel
  have he : expected ([commitRequest 1,commitRequest 2].flatMap commits) fetchRequest =
      [⟨aTopic,[⟨0,2,[],0⟩]⟩] := by decide +kernel
  refine ⟨ha,ho,he,?_⟩
  rintro ⟨h',e,hr,hreq⟩
  have hx := hreq fetchRequest
  rw [observed] at ho
  simp only [hr,Except.toOption,Option.map_some,hx,he] at ho
  exact absurd ho (by decide +kernel)

end Kage.OffsetRestart
