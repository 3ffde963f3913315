import Kage.BrokerLedger

/-!
# What the calls leave in the files

Whatever the order of the calls, a file of a partition only gains the records of
the appends that were accepted, each framed and whole, in the order of the
calls. The offset that such an append returns is the length of the file before
it. So the accepted appends, each with the base of the file it went to, account
for every byte that the files have gained. Bytes that have left the buffer of the
writer once are in the file for good.
-/
namespace Kage.LedgerJournal
open ByteStrings LengthPrefixed FaultyDisk SparseIndex SegmentLog PartitionLog RollingLog
open BrokerStores OffsetHandlers AtomicPrograms BrokerPrograms BrokerLedger

abbrev BrokerEvent := Event Op Op.Reply

/-- An append that was accepted, with the offset that it returned. -/
structure Accepted where
  topic : Bytes
  partition : Int32
  data : Bytes
  offset : UInt64
  deriving DecidableEq

def Accepted.key (a : Accepted) : Bytes := partitionKey a.topic a.partition

def accepted : BrokerEvent → Option Accepted
  | ⟨.append topic partition data,.ok offset⟩ => some ⟨topic,partition,data,offset⟩
  | _ => none

/-- What these appends have put into a file. -/
def gained (as : List (Accepted × ℕ)) (k : Bytes) (b : ℕ) : Bytes :=
  as.flatMap fun a => if a.1.key = k ∧ a.2 = b then frame a.1.data else []

@[simp] theorem gained_nil (k : Bytes) (b : ℕ) : gained [] k b = [] := rfl

@[simp] theorem gained_append (as bs : List (Accepted × ℕ)) (k : Bytes) (b : ℕ) :
    gained (as++bs) k b = gained as k b++gained bs k b := List.flatMap_append

/-- The appends account for what the files have gained between two ledgers. -/
structure Journal (s t : Ledger) (as : List (Accepted × ℕ)) : Prop where
  content : ∀ k b, t.content k b = s.content k b++gained as k b
  offset : ∀ i a b, as[i]? = some (a,b) →
    a.offset.toNat = (s.content a.key b++gained (as.take i) a.key b).length

section
variable {cfg : SegmentConfig} {s t u : Ledger} {as bs : List (Accepted × ℕ)}

theorem Journal.of_same (h : ∀ k b, t.content k b = s.content k b) : Journal s t [] :=
  ⟨fun k b => by rw [h,gained_nil,List.append_nil],fun i a b hi => by simp at hi⟩

theorem Journal.trans (h : Journal s t as) (k : Journal t u bs) : Journal s u (as++bs) where
  content := fun x b => by rw [k.content,h.content,gained_append,List.append_assoc]
  offset := by
    intro i a b hi
    by_cases hlt : i < as.length
    · rw [List.getElem?_append_left hlt] at hi
      rw [h.offset i a b hi,List.take_append_of_le_length hlt.le]
    · rw [List.getElem?_append_right (by omega)] at hi
      have htake : (as++bs).take i = as++bs.take (i-as.length) := by
        rw [List.take_append,List.take_of_length_le (Nat.le_of_not_lt hlt)]
      rw [k.offset _ a b hi,h.content,htake,gained_append,List.append_assoc]

theorem Journal.single {a : Accepted} {b : ℕ}
    (hc : ∀ k c, t.content k c = s.content k c++if a.key = k ∧ b = c then frame a.data else [])
    (ho : a.offset.toNat = (s.content a.key b).length) : Journal s t [(a,b)] where
  content := fun k c => by rw [hc]; simp [gained]
  offset := by
    intro i a' b' hi
    cases i with
    | zero =>
        obtain ⟨rfl,rfl⟩ : a = a' ∧ b = b' := by simpa using hi
        simpa using ho
    | succ i => simp at hi

/-- An append that was accepted is found where its offset says. -/
theorem Journal.window (h : Journal s t as) {a : Accepted} {b : ℕ} (ha : (a,b) ∈ as) :
    window (t.content a.key b) a.offset.toNat (frame a.data).length = frame a.data := by
  obtain ⟨i,hi⟩ := List.mem_iff_getElem?.mp ha
  have hlt : i < as.length := (List.getElem?_eq_some_iff.mp hi).1
  have hsplit : gained as a.key b =
      gained (as.take i) a.key b++(frame a.data++gained (as.drop (i+1)) a.key b) := by
    conv_lhs => rw [← List.take_append_drop i as,List.drop_eq_getElem_cons hlt]
    have hget : as[i] = (a,b) := (List.getElem?_eq_some_iff.mp hi).2
    rw [gained_append,hget,← List.singleton_append,gained_append]
    simp [gained]
  rw [h.content,hsplit,h.offset i a b hi,← List.append_assoc,← List.append_assoc,List.append_assoc]
  have hw := window_append_right (s.content a.key b++gained (as.take i) a.key b)
    (frame a.data++gained (as.drop (i+1)) a.key b) 0 (frame a.data).length
  exact hw.trans (window_head rfl _)

theorem extend_content (s : Ledger) (k : Bytes) (r : Rolling UInt8) (rolled : Bool) (written : ℕ)
    (k' : Bytes) (b : ℕ) :
    (s.extend k r rolled written).content k' b = if k' = k then r.part b else s.content k' b := by
  by_cases hk : k' = k
  · subst hk
    simp [Ledger.content,Ledger.extend,Rolling.part]
  · simp [Ledger.content,Ledger.extend,hk]

theorem create_content (s : Ledger) (k k' : Bytes) (b : ℕ) :
    (s.create k).content k' b = s.content k' b := by
  unfold Ledger.create Ledger.content
  split
  · rfl
  · by_cases hk : k' = k
    · subst hk
      by_cases hb : b = 0
      · subst hb
        simp [Rolling.openAt]
      · simp [Rolling.openAt,hb]
    · simp [hk]

/-- An append adds its record to the file that is active then, or fails. -/
theorem append_journal {topic : Bytes} {partition : Int32} {data : Bytes}
    {reply : Except Err UInt64} (h : s.Append cfg (partitionKey topic partition) data reply t) :
    ∃ as, as.map Prod.fst = (accepted ⟨.append topic partition data,reply⟩).toList ∧
      Journal s t as ∧ ∀ x ∈ as, t.active x.1.key = some x.2 := by
  unfold Ledger.Append at h
  cases hl : s.log (partitionKey topic partition) with
  | none =>
      rw [hl] at h
      obtain ⟨rfl,rfl⟩ := h
      exact ⟨[],rfl,.of_same fun _ _ => rfl,fun _ hx => (List.not_mem_nil hx).elim⟩
  | some r =>
      rw [hl] at h
      obtain ⟨hreply,written,rfl,-⟩ := h
      have hr (b : ℕ) : r.part b = s.content (partitionKey topic partition) b := by
        obtain ⟨base,-,rfl⟩ := Option.map_eq_some_iff.mp hl
        rfl
      have hpart := Rolling.append_part (capacity cfg) r (frame data)
      cases ho : (r.append (capacity cfg) (frame data)).1 with
      | none =>
          rw [ho] at hreply hpart
          subst hreply
          refine ⟨[],rfl,.of_same fun k b => ?_,fun _ hx => (List.not_mem_nil hx).elim⟩
          rw [extend_content]
          split
          · subst k
            rw [hpart,hr]
            simp
          · rfl
      | some o =>
          obtain ⟨hlen,hfit⟩ := Rolling.append_offset ho
          have hsmall := capacity_lt cfg
          rw [ho] at hreply hpart
          subst hreply
          refine ⟨[(⟨topic,partition,data,UInt64.ofNat o⟩,
            (r.append (capacity cfg) (frame data)).2.base)],rfl,.single (fun k b => ?_) ?_,
            fun x hx => ?_⟩
          · rw [extend_content]
            by_cases hk : k = partitionKey topic partition
            · subst k
              rw [if_pos rfl,hpart,hr]
              simp [Accepted.key]
            · simp [Accepted.key,hk,Ne.symm hk]
          · have hsize : UInt64.size = 2^64 := rfl
            have hlt : o < UInt64.size := by omega
            rw [UInt64.toNat_ofNat_of_lt' hlt,hlen,hr]
            rfl
          · obtain rfl := List.mem_singleton.mp hx
            exact Function.update_self _ _ _

theorem read_files {topic : Bytes} {partition : Int32} {o : UInt64} {n : Int32}
    {reply : Except Err (Section × Int32)} (h : s.Read topic partition o n reply t) :
    t.files = s.files ∧ t.active = s.active := by
  simp only [Ledger.Read] at h
  split at h
  · exact ⟨by rw [h.2],by rw [h.2]⟩
  · split at h
    · exact ⟨by rw [h.2],by rw [h.2]⟩
    · exact ⟨by rw [h.2],by rw [h.2]⟩

/-- A call that is no append leaves the bytes of all files. -/
theorem step_journal {o : Op} {reply : Op.Reply o} (h : Ledger.Step cfg s o reply t) :
    ∃ as, as.map Prod.fst = (accepted ⟨o,reply⟩).toList ∧ Journal s t as := by
  cases o with
  | append topic partition data =>
      obtain ⟨as,ha,hj,-⟩ := append_journal h
      exact ⟨as,ha,hj⟩
  | create topic partition =>
      obtain ⟨-,rfl⟩ := h
      exact ⟨[],rfl,.of_same (create_content s _)⟩
  | read topic partition o n =>
      refine ⟨[],rfl,.of_same fun k b => ?_⟩
      rw [Ledger.content,(read_files h).1]
      rfl
  | cache c =>
      obtain rfl : t = _ := h
      exact ⟨[],rfl,.of_same fun _ _ => rfl⟩
  | find | size | readFull | topics | offsets =>
      obtain ⟨-,rfl⟩ := h
      exact ⟨[],rfl,.of_same fun _ _ => rfl⟩

/-- The accepted appends of a run account for all that the files have gained. -/
theorem runs_journal {es : List BrokerEvent} (h : Runs (Ledger.Step cfg) s es t) :
    ∃ as, as.map Prod.fst = es.filterMap accepted ∧ Journal s t as := by
  induction h with
  | nil s => exact ⟨[],rfl,.of_same fun _ _ => rfl⟩
  | @cons s t u o r es hs _ ih =>
      obtain ⟨as,ha,hj⟩ := step_journal hs
      obtain ⟨bs,hb,hk⟩ := ih
      refine ⟨as++bs,?_,hj.trans hk⟩
      rw [List.map_append,ha,hb,List.filterMap_cons]
      cases accepted ⟨o,r⟩ <;> rfl

/-- The first bytes of a file are not only in the buffer of its writer. -/
def Durable (s : Ledger) (k : Bytes) (base n : ℕ) : Prop :=
  n ≤ (s.content k base).length ∧ (s.active k = some base → n ≤ s.written k)

section
variable {k : Bytes} {base n : ℕ}

theorem append_durable {k' data : Bytes} {reply : Except Err UInt64}
    (h : s.Append cfg k' data reply t) (hd : Durable s k base n)
    (hlen : n ≤ (t.content k base).length) :
    Durable t k base n := by
  unfold Ledger.Append at h
  cases hl : s.log k' with
  | none =>
      rw [hl] at h
      obtain ⟨-,rfl⟩ := h
      exact hd
  | some r =>
      rw [hl] at h
      obtain ⟨-,written,rfl,hw⟩ := h
      refine ⟨hlen,fun ha => ?_⟩
      by_cases hk : k = k'
      · subst hk
        obtain ⟨b,hb,rfl⟩ := Option.map_eq_some_iff.mp hl
        simp only [Ledger.extend,Function.update_self,Option.some.injEq] at ha ⊢
        rcases Rolling.append_cases (capacity cfg) ⟨s.files k,b⟩ (frame data) with
          ⟨hf,hx⟩|⟨hf,-,hx⟩|⟨hf,-,hx⟩
        · rw [if_pos (by simpa using hf)] at hw
          rw [hx] at ha
          exact (hd.2 (by rw [hb,← ha]; rfl)).trans hw
        · rw [if_neg (by simpa using hf),Rolling.active,Rolling.roll_part] at hw
          rw [hx,Rolling.push_base] at ha
          rw [ha] at hw
          exact hd.1.trans hw
        · rw [if_neg (by simpa using hf),Rolling.active,Rolling.roll_part] at hw
          rw [hx] at ha
          rw [ha] at hw
          exact hd.1.trans hw
      · simp only [Ledger.extend,Function.update_of_ne hk] at ha ⊢
        exact hd.2 ha

theorem read_durable {topic : Bytes} {partition : Int32} {o : UInt64} {m : Int32}
    {reply : Except Err (Section × Int32)} (h : s.Read topic partition o m reply t)
    (hd : Durable s k base n) : Durable t k base n := by
  simp only [Ledger.Read] at h
  cases hl : s.log (partitionKey topic partition) with
  | none =>
      rw [hl] at h
      rw [h.2]
      exact hd
  | some r =>
      simp only [hl] at h
      split at h
      · rw [h.2]
        exact hd
      · rw [h.2]
        refine ⟨hd.1,fun ha => ?_⟩
        by_cases hk : k = partitionKey topic partition
        · subst hk
          obtain ⟨b,hb,rfl⟩ := Option.map_eq_some_iff.mp hl
          have ha : s.active (partitionKey topic partition) = some base := ha
          obtain rfl := Option.some.inj (hb.symm.trans ha)
          simp only [Function.update_self]
          exact hd.1
        · simp only [Function.update_of_ne hk]
          exact hd.2 ha

theorem create_durable (k' : Bytes) (hd : Durable s k base n) :
    Durable (s.create k') k base n := by
  refine ⟨by rw [create_content]; exact hd.1,fun ha => ?_⟩
  unfold Ledger.create at ha ⊢
  split
  · rw [if_pos (by assumption)] at ha
    exact hd.2 ha
  · rw [if_neg (by assumption)] at ha
    by_cases hk : k = k'
    · subst hk
      simp only [Function.update_self,Option.some.injEq] at ha ⊢
      rw [← ha] at hd
      exact hd.1
    · simp only [Function.update_of_ne hk] at ha ⊢
      exact hd.2 ha

/-- No call takes bytes out of a file. -/
theorem step_durable {o : Op} {reply : Op.Reply o} (h : Ledger.Step cfg s o reply t)
    (hd : Durable s k base n) : Durable t k base n := by
  cases o with
  | append topic partition data =>
      obtain ⟨as,-,hj,-⟩ := append_journal h
      refine append_durable h hd ?_
      rw [hj.content,List.length_append]
      exact hd.1.trans (Nat.le_add_right _ _)
  | read topic partition o n => exact read_durable h hd
  | create topic partition =>
      obtain ⟨-,rfl⟩ := h
      exact create_durable _ hd
  | cache c =>
      obtain rfl : t = _ := h
      exact hd
  | find | size | readFull | topics | offsets =>
      obtain ⟨-,rfl⟩ := h
      exact hd

theorem runs_durable {es : List BrokerEvent} (h : Runs (Ledger.Step cfg) s es t)
    (hd : Durable s k base n) : Durable t k base n := by
  induction h with
  | nil s => exact hd
  | cons hs _ ih => exact ih (step_durable hs hd)

end

/-! ## Open partitions -/

theorem create_isSome (s : Ledger) (k k' : Bytes) :
    ((s.create k).active k').isSome ↔ k' = k ∨ (s.active k').isSome := by
  unfold Ledger.create
  by_cases hk : k' = k
  · subst hk
    split
    · simpa
    · simp
  · split <;> simp [hk]

/-- Only a creation opens a partition, and none is shut. -/
theorem step_isSome {o : Op} {reply : Op.Reply o} (h : Ledger.Step cfg s o reply t) (k : Bytes) :
    (t.active k).isSome ↔ (s.active k).isSome ∨ ∃ topic partition, o = .create topic partition ∧
      k = partitionKey topic partition := by
  cases o with
  | create topic partition =>
      obtain ⟨-,rfl⟩ := h
      rw [create_isSome,or_comm]
      refine or_congr_right ⟨fun hk => ⟨topic,partition,rfl,hk⟩,fun ⟨_,_,ho,hk⟩ => ?_⟩
      cases ho
      exact hk
  | append topic partition data =>
      have h : s.Append cfg (partitionKey topic partition) data reply t := h
      have hno : ¬∃ topic' partition', Op.append topic partition data = .create topic' partition' ∧
          k = partitionKey topic' partition' := fun ⟨_,_,ho,_⟩ => by cases ho
      rw [or_iff_left hno]
      unfold Ledger.Append at h
      cases hl : s.log (partitionKey topic partition) with
      | none =>
          rw [hl] at h
          rw [h.2]
      | some r =>
          rw [hl] at h
          obtain ⟨-,written,rfl,-⟩ := h
          obtain ⟨base,hb,-⟩ := Option.map_eq_some_iff.mp hl
          by_cases hk : k = partitionKey topic partition
          · subst hk
            rw [hb]
            simp [Ledger.extend]
          · simp [Ledger.extend,hk]
  | read topic partition o n => simp [(read_files h).2]
  | cache c =>
      obtain rfl : t = _ := h
      simp
  | find | size | readFull | topics | offsets =>
      obtain ⟨-,rfl⟩ := h
      simp

theorem runs_isSome {es : List BrokerEvent} (h : Runs (Ledger.Step cfg) s es t) {k : Bytes}
    (hk : (s.active k).isSome) : (t.active k).isSome := by
  induction h with
  | nil s => exact hk
  | cons hs _ ih => exact ih ((step_isSome hs k).mpr (.inl hk))

end

end Kage.LedgerJournal
