import Kage.OffsetRestart

/-!
# Committed offsets after a crash

A commit is in a buffer before it is in the file, so a crash can leave any
beginning of the log, with the last record cut anywhere. The broker should then
start with the commits whose records are complete in it. It does when the cut is
between two records or inside a length prefix, which the replay takes for the
end of the log; a cut behind the prefix, with the body missing in part or as a
whole, is an error that keeps the broker from starting.

`Recovers` states what should hold after the restart and the result says exactly
for which commits and cuts it does. Beyond `2^31-1` bytes the cut that counts is
the end of what is read.
-/
namespace Kage.OffsetCrash
open ByteStrings LengthPrefixed FaultyDisk SparseIndex SegmentLog PartitionLog RollingLog
open PartitionRuns BrokerStores LastWrite OffsetRecords OffsetHandlers OffsetStorage OffsetRestart

/-- The bytes of the log of the offsets, on disk and buffered. -/
def offsetsLog (bs : BrokerStore) (d : Disk) : Bytes :=
  match bs.stores.lookup offsetsName with
  | some ps => ps.active.bytes d
  | none => []

/-- The disk after a crash that left these bytes in the log file. -/
def crashed (root : List Bytes) (left : Bytes) (d : Disk) : Disk :=
  {d with files := d.files.insert (logPath (offsetsDir root) 0) left}

/-- Open the broker and load the cache of a new handler. -/
def boot (root : List Bytes) (cfg : SegmentConfig) (d : Disk) : Except Err (Handler × Disk) :=
  match openBrokerStore root cfg d with
  | (.error e,_) => .error e
  | (.ok bs,d) =>
      match loadOffsetsCache (newHandler bs) d with
      | (some e,_,_) => .error e
      | (none,h,d) => .ok (h,d)

/-- The offset of the last commit for every key. -/
def lastCommit (cs : List Commit) : OffsetCache :=
  fun k => (cs.reverse.find? fun c => decide (c.key = k)).map Commit.offset

/-- The commits whose records are complete in the first bytes of their log. -/
def completeIn (n : ℕ) (cs : List Commit) : List Commit := Rolling.fitting commitSize n 0 cs

/-- The broker starts and has the last commits among these. -/
def Recovers (root : List Bytes) (cfg : SegmentConfig) (d : Disk) (cs : List Commit) : Prop :=
  ∃ h e, boot root cfg d = .ok (h,e) ∧ h.offsetCache = lastCommit cs

theorem lastCommit_eq (cs : List Commit) :
    lastCommit cs = replay (fun _ => none) (cs.map Commit.write) := by
  funext k
  rw [replay_eq_lastValue,lastCommit,lastValue,← List.map_reverse,List.find?_map,Option.map_map]
  rfl

section Crash
variable {root : List Bytes} {cfg : SegmentConfig} {bs : BrokerStore} {d : Disk}
variable {r : Rolling UInt8}

theorem crashed_content (left : Bytes) :
    (crashed root left d).content (logPath (offsetsDir root) 0) = left := by
  simp [crashed,Disk.content]

theorem offsetsLog_of_keeps (h : Keeps root cfg bs d r) : offsetsLog bs d = r.active := by
  cases h with
  | unopened hf => rfl
  | opened hs hf hdir hcfg hroot hsub =>
      rw [offsetsLog,lookup_of_entries hs]
      exact hf.holds.bytes

/-- A broker that starts after a crash reads what the crash left. -/
theorem open_crashed (h : Keeps root cfg bs d r) (left : Bytes) :
    ∃ bs₂ d₂ ps bs₃ d₃ r', openBrokerStore root cfg (crashed root left d) = (.ok bs₂,d₂) ∧
      bs₂.getOrCreatePartition ConsumerOffsetsTopic 0 d₂ = (.ok ps,bs₃,d₃) ∧
      Follows ps d₃ r' ∧ r'.active = left := by
  have hroot : (crashed root left d).Healthy ∧ root ∈ (crashed root left d).dirs ∧
      ((crashed root left d).subdirectories root = [] ∨
        (crashed root left d).subdirectories root = [offsetsName]) := by
    cases h with
    | unopened hfresh => exact ⟨hfresh.healthy,hfresh.isDir,.inl hfresh.bare⟩
    | opened hs hf hdir hcfg hroot hsub => exact ⟨hf.holds.healthy,hroot,.inr hsub⟩
  obtain ⟨bs₂,d₂,ps,bs₃,d₃,r',ho,hg,hf,ha⟩ := start_offsets cfg hroot.1 hroot.2.1 hroot.2.2
  exact ⟨bs₂,d₂,ps,bs₃,d₃,r',ho,hg,hf,ha.trans (crashed_content left)⟩

/-- The commits of a run that fits in one segment are its log. -/
theorem offsetsLog_of_logs {d₁ : Disk} {h₁ : Handler} {cs : List Commit} (hf : Fresh root d)
    (hl : Logs root cfg cs (newHandler ⟨root,cfg,∅⟩) d h₁ d₁)
    (hfit : totalSize cs ≤ capacity cfg) :
    ∃ r, Keeps root cfg h₁.store d₁ r ∧ offsetsLog h₁.store d₁ = commitLog cs := by
  obtain ⟨hk,-⟩ := hl _ (.unopened hf)
  have hnil : (Rolling.openAt (fun _ => (none : Option Bytes)) 0).active = [] :=
    Rolling.Tiles.empty.active
  have hsum : ((cs.map fun c => frame c.record).map List.length).sum = totalSize cs := by
    rw [List.map_map]
    rfl
  refine ⟨_,hk,?_⟩
  rw [offsetsLog_of_keeps hk,Rolling.run_active_of_fits (by rw [hnil,hsum,List.length_nil]; omega),
    hnil,List.nil_append,commitLog,frames,List.flatMap_map]
  rfl

/-- What loading does with a log that was cut. -/
theorem boot_crashed (h : Keeps root cfg bs d r) {cs : List Commit} {n : ℕ}
    (hn : n ≤ totalSize cs) (hsize : totalSize cs < 2^63) :
    ∃ err h₂ d₂, boot root cfg (crashed root ((commitLog cs).take n) d) = (match err with
        | some e => .error e
        | none => .ok (h₂,d₂)) ∧
      h₂.offsetCache = lastCommit (completeIn (min n hydrationWindow) cs) ∧
      (err = none ↔
        min n hydrationWindow < totalSize (completeIn (min n hydrationWindow) cs)+4) := by
  obtain ⟨bs₂,d₂,ps,bs₃,d₃,r',ho,hg,hfol,hact⟩ := open_crashed h ((commitLog cs).take n)
  have hlen : r'.active.length = n := by
    rw [hact,List.length_take_of_le (by rw [commitLog_length]; exact hn)]
  have hx : ∀ x ∈ cs.map Commit.record, x.length < 256^4 :=
    List.forall_mem_map.mpr fun c _ => record_length_lt c
  have hfit (m : ℕ) : Rolling.fitting frameSize m 0 (cs.map Commit.record) =
      (completeIn m cs).map Commit.record := Rolling.fitting_map _ _ _ _ _
  have hsum (cs : List Commit) : ((cs.map Commit.record).map frameSize).sum = totalSize cs := by
    rw [List.map_map]
    rfl
  obtain ⟨err,h₂,e₂,hload,hcache,herr⟩ := loadOffsetsCache_cut hx n hg hfol.holds hact (by omega)
  rw [hlen,hfit,recordWrites_commits,← lastCommit_eq] at hcache
  rw [hlen,hfit,hsum] at herr
  refine ⟨err,h₂,e₂,?_,hcache,herr⟩
  simp only [boot,ho,hload]
  cases err <;> rfl

end Crash

/-- After a crash that leaves the first bytes of the log the broker starts with
the commits that are complete in them exactly when what is read does not end
behind the length prefix of an incomplete record, and no key was last committed
behind it, unless with the offset that is read. -/
theorem crash_recovery_iff (root : List Bytes) (cfg : SegmentConfig) (d : Disk)
    (hf : Fresh root d) :
    ∃ bs, openBrokerStore root cfg d = (.ok bs,d) ∧
      ∀ reqs resps h e, serve reqs (newHandler bs) d = (resps,h,e) → Accepted resps →
        totalSize (reqs.flatMap commits) ≤ capacity cfg →
        ∀ n ≤ (offsetsLog h.store e).length,
          (Recovers root cfg (crashed root ((offsetsLog h.store e).take n) e)
              (completeIn n (reqs.flatMap commits)) ↔
            min n hydrationWindow < totalSize
                (completeIn (min n hydrationWindow) (reqs.flatMap commits))+4 ∧
              lastCommit (completeIn (min n hydrationWindow) (reqs.flatMap commits)) =
                lastCommit (completeIn n (reqs.flatMap commits))) := by
  refine ⟨⟨root,cfg,∅⟩,openBrokerStore_fresh hf cfg,fun reqs resps h e hs ha hfit n hn => ?_⟩
  obtain ⟨r,hk,hlog⟩ := offsetsLog_of_logs hf (serve_logs reqs hs ha) hfit
  rw [hlog] at hn ⊢
  rw [commitLog_length] at hn
  obtain ⟨err,h₂,d₂,hb,hcache,herr⟩ := boot_crashed hk hn (lt_of_le_of_lt hfit (capacity_lt cfg))
  rw [Recovers,hb,← herr,← hcache]
  cases err with
  | some x =>
      refine iff_of_false ?_ fun hx => by cases hx.1
      rintro ⟨_,_,hx,-⟩
      cases hx
  | none =>
      simp only [true_and]
      constructor
      · rintro ⟨h',e',hx,hc⟩
        cases hx
        exact hc
      · intro hc
        exact ⟨h₂,d₂,rfl,hc⟩

/-- The disk after these requests to a new broker and a crash that left so many
bytes of the log. -/
def crashAfter (reqs : List OffsetCommitRequest) (n : ℕ) : Disk :=
  match serve reqs (newHandler ⟨[],⟨0⟩,∅⟩) emptyRoot with
  | (_,h,d) => crashed [] ((offsetsLog h.store d).take n) d

/-- Two commits, and a crash that leaves the first one and three bytes. -/
theorem crash_recovery_in_length_prefix :
    Recovers [] ⟨0⟩ (crashAfter [commitRequest 1,commitRequest 2] 33)
      (commits (commitRequest 1)) := by
  obtain ⟨bs,ho,h⟩ := crash_recovery_iff [] ⟨0⟩ emptyRoot fresh_emptyRoot
  rw [openBrokerStore_fresh fresh_emptyRoot] at ho
  obtain rfl := Except.ok.inj (Prod.mk.inj ho).1
  have ha : Accepted (serve [commitRequest 1,commitRequest 2] (newHandler ⟨[],⟨0⟩,∅⟩)
      emptyRoot).1 := by
    unfold Accepted
    decide +kernel
  exact (h _ _ _ _ rfl ha (by decide +kernel) 33 (by decide +kernel)).mpr
    ⟨by decide +kernel,rfl⟩

def bootError (root : List Bytes) (cfg : SegmentConfig) (d : Disk) : Option Err :=
  match boot root cfg d with
  | .error e => some e
  | .ok _ => none

/-- Two commits, and a crash that leaves the first one and the length prefix of
the second: the broker does not start. -/
theorem cut_behind_length_prefix :
    Accepted (serve [commitRequest 1,commitRequest 2] (newHandler ⟨[],⟨0⟩,∅⟩) emptyRoot).1 ∧
      completeIn 34 ([commitRequest 1,commitRequest 2].flatMap commits) =
        commits (commitRequest 1) ∧
      bootError [] ⟨0⟩ (crashAfter [commitRequest 1,commitRequest 2] 34) =
        some (.wrap "LoadOffsetsCache: read record body" .eof) ∧
      ¬Recovers [] ⟨0⟩ (crashAfter [commitRequest 1,commitRequest 2] 34)
        (commits (commitRequest 1)) := by
  have hb : bootError [] ⟨0⟩ (crashAfter [commitRequest 1,commitRequest 2] 34) =
      some (.wrap "LoadOffsetsCache: read record body" .eof) := by decide +kernel
  refine ⟨?_,by decide +kernel,hb,?_⟩
  · unfold Accepted
    decide +kernel
  · rintro ⟨h,e,hx,-⟩
    rw [bootError,hx] at hb
    cases hb

end Kage.OffsetCrash
