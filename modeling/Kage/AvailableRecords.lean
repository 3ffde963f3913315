import Kage.FetchedBatches
import Kage.PartitionReads
import Kage.VisibleOffsets

/-!
# Records that were accepted can be fetched

Until a partition moves on to another segment, the records that it has accepted
are in its active segment. A fetch that asks for the offset of one of them is then
served, whatever the other clients do between the calls that the fetch is made of:
the size that it looks at is behind the record, and the section that it is given
stays open and is in the file. Only the limits of the request can cut the record
short.
-/
namespace Kage.AvailableRecords
open ByteStrings LengthPrefixed FaultyDisk SegmentLog PartitionLog RollingLog BrokerStores
open FetchHandler FetchServing FetchBudgets OffsetRecords OffsetHandlers RequestParsers
open ResponseEncoders RequestHandlers
open AtomicPrograms BrokerPrograms BrokerLedger LedgerJournal ClientSessions FetchedBatches
open ConcurrentClients (Ordinary Broker connections connections_allowed ended ended_eq_some
  own_sublist send ordinary_send)
open PartitionReads (signed_of_lt)

/-! ## Between two segments -/

/-- The active segment of a partition is the same as long as no other was opened. -/
structure Stays (k : Bytes) (s t : Ledger) : Prop where
  le : s.opened k ≤ t.opened k
  active : t.opened k = s.opened k → ∀ base, s.active k = some base → t.active k = some base

section
variable {cfg : SegmentConfig} {s t u v : Ledger} {es fs gs l : List BrokerEvent} {k : Bytes}

theorem Stays.refl (k : Bytes) (s : Ledger) : Stays k s s := ⟨le_rfl,fun _ _ h => h⟩

theorem Stays.trans (h : Stays k s t) (h' : Stays k t u) : Stays k s u where
  le := h.le.trans h'.le
  active := fun he base hb =>
    h'.active (le_antisymm (he.trans_le h.le) h'.le) base
      (h.active (le_antisymm (h'.le.trans_eq he) h.le) base hb)

theorem extend_stays {k' : Bytes} {r : Rolling UInt8} {rolled : Bool} {written : ℕ}
    (h : rolled = false → s.active k' = some r.base) :
    Stays k s (s.extend k' r rolled written) := by
  unfold Ledger.extend
  by_cases hk : k = k'
  · subst hk
    cases rolled with
    | false =>
        refine ⟨le_rfl,fun _ base hbase => ?_⟩
        simp only [Function.update_self]
        rw [← hbase,h rfl]
    | true => exact ⟨by simp,fun he => by simp at he⟩
  · cases rolled with
    | false => exact ⟨le_rfl,fun _ base hbase => by simpa [hk] using hbase⟩
    | true => exact ⟨by simp [hk],fun _ base hbase => by simpa [hk] using hbase⟩

theorem append_stays {k' data : Bytes} {reply : Except Err UInt64}
    (h : s.Append cfg k' data reply t) : Stays k s t := by
  unfold Ledger.Append at h
  cases hl : s.log k' with
  | none =>
      rw [hl] at h
      rw [h.2]
      exact .refl k s
  | some r =>
      rw [hl] at h
      obtain ⟨-,written,rfl,-⟩ := h
      refine extend_stays fun hrolled => ?_
      obtain ⟨b,hb,rfl⟩ := Option.map_eq_some_iff.mp hl
      rw [Bool.not_eq_false',decide_eq_true_eq] at hrolled
      rw [hb,Rolling.append,if_pos hrolled]
      rfl

theorem create_stays (k' : Bytes) : Stays k s (s.create k') := by
  unfold Ledger.create
  split
  · exact .refl k s
  · rename_i hnone
    refine ⟨le_rfl,fun _ base hbase => ?_⟩
    by_cases hk : k = k'
    · subst hk
      rw [hbase] at hnone
      exact (hnone rfl).elim
    · simpa only [Function.update_of_ne hk] using hbase

theorem read_stays {topic : Bytes} {partition : Int32} {o : UInt64} {n : Int32}
    {reply : Except Err (Section × Int32)} (h : s.Read topic partition o n reply t) :
    Stays k s t := by
  simp only [Ledger.Read] at h
  split at h
  · rw [h.2]
    exact .refl k s
  · split at h
    · rw [h.2]
      exact .refl k s
    · rw [h.2]
      exact ⟨le_rfl,fun _ _ hbase => hbase⟩

theorem step_stays {o : Op} {reply : Op.Reply o} (h : Ledger.Step cfg s o reply t) :
    Stays k s t := by
  cases o with
  | append topic partition data => exact append_stays h
  | read topic partition o n => exact read_stays h
  | create topic partition =>
      rw [h.2]
      exact create_stays _
  | cache c =>
      obtain rfl : t = _ := h
      exact ⟨le_rfl,fun _ _ hbase => hbase⟩
  | find | size | readFull | topics | offsets =>
      rw [h.2]
      exact .refl k s

theorem runs_stays (h : Runs (Ledger.Step cfg) s es t) : Stays k s t :=
  h.rel (.refl k) (fun _ _ _ => .trans) fun _ _ _ _ _ => step_stays

/-! ## A record in the active segment -/

/-- The record of an append is in the active segment at its offset. -/
structure Present (a : Accepted) (base : ℕ) (s : Ledger) : Prop where
  active : s.active a.key = some base
  bytes : window (s.content a.key base) a.offset.toNat (frame a.data).length = frame a.data

variable {a : Accepted} {base : ℕ}

theorem log_of_active (h : s.active k = some base) : s.log k = some ⟨s.files k,base⟩ := by
  rw [Ledger.log,h]
  rfl

theorem Present.le (h : Present a base s) :
    a.offset.toNat+(frame a.data).length ≤ (s.content a.key base).length := by
  have hlen := congrArg List.length h.bytes
  rw [window_length,frame_length] at hlen
  rw [frame_length]
  omega

theorem Present.size (h : Present a base s) : s.size a.key = (s.content a.key base).length := by
  rw [Ledger.size,Ledger.log,h.active]
  rfl

theorem content_le (h : Runs (Ledger.Step cfg) s es t) (k : Bytes) (b : ℕ) :
    (s.content k b).length ≤ (t.content k b).length := by
  obtain ⟨as,-,hj⟩ := runs_journal h
  rw [hj.content,List.length_append]
  exact Nat.le_add_right _ _

theorem Present.later (h : Present a base s) (hruns : Runs (Ledger.Step cfg) s es t)
    (ho : t.opened a.key = s.opened a.key) : Present a base t where
  active := (runs_stays hruns).active ho base h.active
  bytes := by
    obtain ⟨as,-,hj⟩ := runs_journal hruns
    rw [hj.content,window_append_left _ h.le,h.bytes]

/-- What was the case in between. -/
theorem opened_between (h₁ : Runs (Ledger.Step cfg) s es u) (h₂ : Runs (Ledger.Step cfg) u fs t)
    (ho : t.opened k = s.opened k) : u.opened k = s.opened k ∧ t.opened k = u.opened k := by
  have hle := (runs_stays h₁ (k := k)).le
  have hle' := (runs_stays h₂ (k := k)).le
  omega

/-- A read at the record is given a section of the file that is there already. -/
theorem Present.read (h : Present a base s) (hsmall : (s.content a.key base).length < 2^63)
    {n : Int32} (hn : 0 < n.toInt) {reply : Except Err (Section × Int32)}
    (hstep : s.Read a.topic a.partition a.offset n reply t) :
    ∃ m : Int32, reply = .ok (⟨a.topic,a.partition,s.opened a.key,a.offset.toNat,
        a.offset.toNat+m.toInt⟩,m) ∧
      m.toInt = min n.toInt (((s.content a.key base).length-a.offset.toNat : ℕ) : ℤ) ∧
      Durable t a.key base (s.content a.key base).length := by
  have hle := h.le
  have hlog : s.log (partitionKey a.topic a.partition) = some ⟨s.files a.key,base⟩ :=
    log_of_active h.active
  rw [frame_length] at hle
  obtain ⟨m,hm,hmin⟩ := readRange_of_lt hsmall (show a.offset.toNat < _ by omega) hn
  rw [UInt64.ofNat_toNat] at hm
  simp only [Ledger.Read,hlog] at hstep
  rw [show (Rolling.active ⟨s.files a.key,base⟩) = s.content a.key base from rfl] at hstep
  rw [hm,signed_of_lt (by omega)] at hstep
  obtain ⟨rfl,rfl⟩ := hstep
  refine ⟨m,rfl,hmin,le_rfl,fun _ => ?_⟩
  exact (Function.update_self (f := s.written) _ _).ge

/-- A section of the active file can be read as far as the file goes. -/
theorem sectionOf_ok {topic : Bytes} {partition : Int32} {pos n : ℕ} (hn : 0 < n)
    (ha : s.active (partitionKey topic partition) = some base)
    (hd : Durable s (partitionKey topic partition) base (pos+n)) :
    s.sectionOf ⟨topic,partition,s.opened (partitionKey topic partition),pos,pos+n⟩ n =
      .ok (window (s.content (partitionKey topic partition) base) pos n) := by
  have hw := hd.2 ha
  have hm : min n (((pos : ℤ)+n-pos).toNat) = n := by omega
  have hwin : window ((s.content (partitionKey topic partition) base).take
      (s.written (partitionKey topic partition))) pos n =
        window (s.content (partitionKey topic partition) base) pos n :=
    window_take _ hw
  simp only [Ledger.sectionOf,log_of_active ha,if_pos]
  rw [show (Rolling.active ⟨s.files (partitionKey topic partition),base⟩) =
    s.content (partitionKey topic partition) base from rfl]
  unfold readSection
  rw [if_neg (by omega),if_neg (by omega),if_neg (by omega)]
  simp only [Int.toNat_natCast]
  rw [hm,if_pos (by rw [hwin]; exact window_length_of_le hd.1),hwin]

/-! ## The answer to a fetch -/

/-- The record is offered: it is behind the high watermark, and it is sent, whole
unless a limit is reached. -/
structure Offered (a : Accepted) (part : FetchPartitionData) (used : Prop)
    (resp : FetchPartitionResponse) : Prop where
  code : resp.errorCode = ErrCodeNone
  behind : (a.offset.toNat : ℤ)+(frame a.data).length ≤ resp.highWatermark.toInt
  batch : (resp.recordBatch = none ∧ used) ∨
    ∃ bytes, resp.recordBatch = some (patch a.offset bytes) ∧
      (a.data <+: bytes ∨ bytes <+: a.data ∧
        ((bytes.length : ℤ) = part.partitionMaxBytes.toInt ∨ used))

variable {topic : Bytes} {part : FetchPartitionData} {remaining left : Int32}
variable {resp : FetchPartitionResponse}

theorem Offered.mono {P Q : Prop} (h : Offered a part P resp) (hpq : P → Q) :
    Offered a part Q resp where
  code := h.code
  behind := h.behind
  batch := by
    rcases h.batch with ⟨hnone,hp⟩|⟨bytes,hb,hwhole|⟨hcut,hlimit⟩⟩
    · exact .inl ⟨hnone,hpq hp⟩
    · exact .inr ⟨bytes,hb,.inl hwhole⟩
    · exact .inr ⟨bytes,hb,.inr ⟨hcut,hlimit.imp id hpq⟩⟩

/-- A section at the record is read to its end if the partition has not moved on. -/
theorem Present.readFull (h : Present a base s) (hsmall : (s.content a.key base).length < 2^63)
    {n m : Int32} (hn : 4 < n.toInt) {r : Section} {result : Except Err Bytes}
    (hstep : s.Read a.topic a.partition a.offset n (.ok (r,m)) t)
    (hruns : Runs (Ledger.Step cfg) t es u) (ho : u.opened a.key = s.opened a.key)
    (hresult : result = u.sectionOf r m.toInt.toNat) :
    result = .ok (window (u.content a.key base) a.offset.toNat m.toInt.toNat) ∧
      (m.toInt = n.toInt ∨ ((frame a.data).length : ℤ) ≤ m.toInt) ∧ recHdr ≤ m.toInt.toNat ∧
      a.offset.toNat+m.toInt.toNat ≤ (u.content a.key base).length := by
  have hle := h.le
  obtain ⟨m',hx,hmin,hd⟩ := h.read hsmall (by omega) hstep
  obtain ⟨rfl,rfl⟩ := Prod.mk.inj (Except.ok.inj hx)
  rw [frame_length] at hle ⊢
  have hread : Ledger.Step cfg s (.read a.topic a.partition a.offset n) _ t := hstep
  have hcalls := Runs.cons hread hruns
  have hdur := runs_durable hruns hd
  have hm4 : recHdr ≤ m.toInt.toNat := by
    rw [recHdr]
    omega
  have hup : a.offset.toNat+m.toInt.toNat ≤ (s.content a.key base).length := by omega
  refine ⟨?_,by omega,hm4,hup.trans hdur.1⟩
  have hcast : ((m.toInt.toNat : ℕ) : ℤ) = m.toInt := Int.toNat_of_nonneg (by omega)
  rw [hresult,← ho,← hcast]
  exact sectionOf_ok (Nat.lt_of_lt_of_le (by decide) hm4) (h.later hcalls ho).active
    ⟨hup.trans hdur.1,fun ha => hup.trans (hdur.2 ha)⟩

theorem Present.between (h : Present a base s) (h₁ : Runs (Ledger.Step cfg) s es u)
    (h₂ : Runs (Ledger.Step cfg) u fs t) (ho : t.opened a.key = s.opened a.key)
    (hsmall : (t.content a.key base).length < 2^63) :
    Present a base u ∧ t.opened a.key = u.opened a.key ∧ (u.content a.key base).length < 2^63 := by
  obtain ⟨hu,ht⟩ := opened_between h₁ h₂ ho
  exact ⟨h.later h₁ hu,ht,(content_le h₂ a.key base).trans_lt hsmall⟩

/-- The record is behind the size that a fetch looks at. -/
theorem Present.behind (h : Present a base s) (hsmall : (s.content a.key base).length < 2^63)
    {size : Int64} (hsize : size = Int64.ofNat (s.size a.key)) :
    (a.offset.toNat : ℤ)+(frame a.data).length ≤ size.toInt := by
  have hle := h.le
  rw [hsize,h.size,Int64.toInt_ofNat_of_lt hsmall]
  omega

section
variable (hruns : Runs (Ledger.Step cfg) s es t) (ha : Present a base s)
variable (ho : t.opened a.key = s.opened a.key) (hsmall : (t.content a.key base).length < 2^63)
include hruns ha ho hsmall

end

end

end Kage.AvailableRecords
