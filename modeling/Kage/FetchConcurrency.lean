import Kage.SegmentGrowth
import Kage.FetchHandler

/-!
# A fetch among appends

A fetch takes the size of a partition and the data in two steps, each under the
lock of the partition, and reads the file in a third one without the lock.
Appends come in between and may move on to another segment, and any call below
the store may fail. The request is followed through one partition: what its
entries for other partitions take from the budget is an event of its own.

The section that a read hands out refers to the file that was open then. Files
are told apart by how many segments had been opened before. Once the store has
moved on, the file is closed.

A response carries the size that was taken first. It covers the data if the
store has not moved on before the read and either has not grown or was asked
for a window that ends below that size.
-/
namespace Kage.FetchConcurrency
open ByteStrings FaultyDisk BufferedWriter SegmentLog PartitionLog SegmentFaults PartitionFaults
open SegmentGrowth BrokerStores FetchHandler

/-- An entry for which the size was taken, and what it is to be served with. The
log and the number of opened segments are those of that moment. -/
structure Pending where
  part : FetchPartitionData
  highWatermark : Int64
  cap : Int32
  log : Bytes
  opened : ℕ

/-- The file of the section is the one that was opened last when there were
this many. -/
inductive Phase where
  | ready
  | sized (p : Pending)
  | reading (p : Pending) (r : SectionReader) (n : Int32) (opened : ℕ)

/-- A response, the entry it answers, and the log when the size was taken. -/
structure Answer where
  part : FetchPartitionData
  log : Bytes
  resp : FetchPartitionResponse
  deriving DecidableEq

structure State where
  store : PartitionStore
  disk : Disk
  opened : ℕ
  todo : List FetchPartitionData
  remaining : Int32
  phase : Phase
  answers : List Answer

inductive Event where
  | append (data : Bytes)
  | faults (schedule : List (Option ℕ))
  | elsewhere (payloadLen : Int32)
  | fetch
  deriving DecidableEq, Repr

def start (ps : PartitionStore) (d : Disk) (parts : List FetchPartitionData) (maxBytes : Int32) :
    State := ⟨ps,d,0,parts,maxBytes,.ready,[]⟩

/-- The file of a section as it is now. -/
def State.fileOf (σ : State) (f : File) (opened : ℕ) : File :=
  if opened = σ.opened then σ.store.active.file else {f with closed := true}

/-- The answer to an entry, without data. -/
def Pending.without (p : Pending) (errorCode : Int16) : Answer :=
  ⟨p.part,p.log,{
    partition := p.part.partition
    highWatermark := p.highWatermark
    errorCode := errorCode}⟩

def State.finish (σ : State) (a : Answer) : State :=
  {σ with phase := .ready, answers := σ.answers++[a]}

/-- The next step of the fetch. -/
def fetchStep (σ : State) : State :=
  match σ.phase,σ.todo with
  | .ready,[] => σ
  | .ready,part::todo =>
      let σ := {σ with todo := todo}
      let cap := if σ.remaining < part.partitionMaxBytes then σ.remaining
        else part.partitionMaxBytes
      let p : Pending := ⟨part,σ.store.Size,cap,σ.store.active.bytes σ.disk,σ.opened⟩
      if part.fetchOffset = p.highWatermark then σ.finish (p.without ErrCodeNone) else
      if part.fetchOffset > p.highWatermark then
        σ.finish (p.without ErrCodeOffsetOutOfRange) else
      if cap ≤ 0 then σ.finish (p.without ErrCodeNone) else {σ with phase := .sized p}
  | .sized p,_ =>
      match σ.store.read p.part.fetchOffset.toUInt64 (p.cap+4) σ.disk with
      | (.error _,ps,d) =>
          {σ with store := ps, disk := d}.finish (p.without ErrCodeOffsetOutOfRange)
      | (.ok (r,n),ps,d) => {σ with store := ps, disk := d, phase := .reading p r n σ.opened}
  | .reading p r n opened,_ =>
      match SectionReader.readFull {r with file := σ.fileOf r.file opened} n.toInt.toNat σ.disk with
      | (.error _,_,d) => {σ with disk := d}.finish (p.without ErrCodeOffsetOutOfRange)
      | (.ok raw,_,d) =>
          let σ := {σ with disk := d}
          if raw.length < recHdr then σ.finish (p.without ErrCodeOffsetOutOfRange) else
            let payload := patch p.part.fetchOffset.toUInt64 (raw.drop recHdr)
            let payloadLen := Int32.ofNat payload.length
            {σ with remaining := σ.remaining-payloadLen}.finish ⟨p.part,p.log,{
              partition := p.part.partition
              highWatermark := p.highWatermark
              errorCode := ErrCodeNone
              recordBatch := some payload
              batchSize := payloadLen}⟩

def step (σ : State) : Event → State
  | .append data =>
      match σ.store.append data σ.disk with
      | (_,ps,d) => {σ with
          store := ps
          disk := d
          opened := if Switches σ.store data σ.disk then σ.opened+1 else σ.opened}
  | .faults schedule => {σ with disk := {σ.disk with faults := schedule}}
  | .elsewhere payloadLen =>
      match σ.phase with
      | .ready => {σ with remaining := σ.remaining-payloadLen}
      | _ => σ
  | .fetch => fetchStep σ

def run (σ : State) (events : List Event) : State := events.foldl step σ

/-- Data that is served lies below the size that is reported, and is what
followed the offset in the log of that size, with its base offsets rewritten. -/
def Answer.Covered (a : Answer) : Prop :=
  0 < a.resp.batchSize.toInt →
    a.resp.highWatermark.toInt = a.log.length ∧ 0 ≤ a.part.fetchOffset.toInt ∧
      a.part.fetchOffset.toInt+4+a.resp.batchSize.toInt ≤ a.resp.highWatermark.toInt ∧
      a.resp.recordBatch = some (patch a.part.fetchOffset.toUInt64
        (window a.log (a.part.fetchOffset.toInt.toNat+4) a.resp.batchSize.toInt.toNat))

instance (a : Answer) : Decidable a.Covered := by
  unfold Answer.Covered
  infer_instance

/-- Where a read is due, the segment is still the one whose size was taken, and
it has not grown or is asked for a window that ends below that size. -/
def Settled (σ : State) : Event → Prop
  | .fetch =>
      match σ.phase with
      | .sized p => p.opened = σ.opened ∧ (σ.store.Size = p.highWatermark ∨
          p.part.fetchOffset.toInt+4+p.cap.toInt ≤ p.highWatermark.toInt)
      | _ => True
  | _ => True

instance (σ : State) : (e : Event) → Decidable (Settled σ e)
  | .append _ => isTrue trivial
  | .faults _ => isTrue trivial
  | .elsewhere _ => isTrue trivial
  | .fetch => by
      unfold Settled
      cases σ.phase <;> infer_instance

/-- Every read of a run is settled. -/
def AllSettled : State → List Event → Prop
  | _,[] => True
  | σ,e::es => Settled σ e ∧ AllSettled (step σ e) es

instance decidableAllSettled : (σ : State) → (es : List Event) → Decidable (AllSettled σ es)
  | _,[] => isTrue trivial
  | σ,e::es =>
      haveI := decidableAllSettled (step σ e) es
      inferInstanceAs (Decidable (Settled σ e ∧ AllSettled (step σ e) es))

/-- The range that is served ends below the reported size. -/
theorem range_end {size : ℕ} {o hw : Int64} {cap n : Int32} (hs : size < 2^63)
    (hr : readRange (Int64.ofNat size) o.toUInt64 (cap+4) = .ok n) (h0 : 0 ≤ o.toInt)
    (hcap : 0 < cap.toInt)
    (h : Int64.ofNat size = hw ∨ o.toInt+4+cap.toInt ≤ hw.toInt) : o.toInt+n.toInt ≤ hw.toInt := by
  have ho : o.toUInt64.toInt64 = o := Int64.toInt64_toUInt64 o
  obtain ⟨hlt,hk⟩ := readRange_ok hs hr
  rw [ho] at hlt hk
  have hk := hk h0
  rcases h with rfl|h
  · rw [Int64.toInt_ofNat_of_lt hs]
    omega
  · have hcap4 := window_le hcap
    omega

/-! ## Invariants -/

/-- The size and the log that were taken, as long as the segment is not stuck. -/
def Pending.Traced (p : Pending) (ps : PartitionStore) (d : Disk) : Prop :=
  ¬Stuck ps.active → p.highWatermark.toInt = p.log.length ∧ p.log <+: ps.active.bytes d

/-- A section of `n` bytes lies in the log that was taken, as long as the file
is open. -/
def Pending.Within (p : Pending) (n : ℤ) (ps : PartitionStore) (d : Disk) : Prop :=
  ps.active.file.closed = false → p.highWatermark.toInt = p.log.length ∧
    (0 ≤ p.part.fetchOffset.toInt → p.part.fetchOffset.toInt+n ≤ p.highWatermark.toInt) ∧
    p.log <+: d.content ps.active.file.path

/-- What is known of the entry in progress. -/
def Phase.Ok (ps : PartitionStore) (d : Disk) (now : ℕ) : Phase → Prop
  | .ready => True
  | .sized p => 0 < p.cap.toInt ∧ p.opened ≤ now ∧ (p.opened = now → p.Traced ps d)
  | .reading p r n opened => r.pos = p.part.fetchOffset.toInt ∧
      r.limit = p.part.fetchOffset.toInt+n.toInt ∧ opened ≤ now ∧
      (opened = now → p.Within n.toInt ps d)

structure Inv (dir : List Bytes) (σ : State) : Prop where
  stable : Stable dir σ.store σ.disk
  phase : σ.phase.Ok σ.store σ.disk σ.opened
  answers : ∀ a ∈ σ.answers, a.Covered

section Invariants
variable {dir : List Bytes} {σ : State} {ps qs : PartitionStore} {d e : Disk} {p : Pending}

theorem Pending.Traced.grows (h : p.Traced ps d) (hg : Grows ps.active d qs.active e) :
    p.Traced qs e := by
  intro hs
  obtain ⟨hsize,hlog⟩ := h fun hx => hs (hg.stuck hx)
  exact ⟨hsize,hlog.trans (hg.bytes hs)⟩

theorem Pending.Within.grows {n : ℤ} (h : p.Within n ps d) (hg : Grows ps.active d qs.active e) :
    p.Within n qs e := by
  intro hc
  obtain ⟨hsize,hend,hlog⟩ := h (hg.opened hc)
  rw [hg.path]
  exact ⟨hsize,hend,hlog.trans (hg.content hc)⟩

theorem Phase.Ok.grows {φ : Phase} {now : ℕ} (h : φ.Ok ps d now)
    (hg : Grows ps.active d qs.active e) : φ.Ok qs e now := by
  cases φ with
  | ready => trivial
  | sized p => exact ⟨h.1,h.2.1,fun ho => (h.2.2 ho).grows hg⟩
  | reading p r n opened => exact ⟨h.1,h.2.1,h.2.2.1,fun ho => (h.2.2.2 ho).grows hg⟩

/-- Nothing is claimed about a segment that was left. -/
theorem Phase.Ok.switched {φ : Phase} {now : ℕ} (h : φ.Ok ps d now) (qs : PartitionStore)
    (e : Disk) : φ.Ok qs e (now+1) := by
  cases φ with
  | ready => trivial
  | sized p =>
      have hle := h.2.1
      exact ⟨h.1,by omega,fun ho => by omega⟩
  | reading p r n opened =>
      have hle := h.2.2.1
      exact ⟨h.1,h.2.1,by omega,fun ho => by omega⟩

theorem Inv.append (h : Inv dir σ) (data : Bytes) : Inv dir (step σ (.append data)) := by
  have hs := h.stable.append data
  rw [step]
  rcases ha : σ.store.append data σ.disk with ⟨r,qs,e⟩
  rw [ha] at hs
  refine ⟨hs,?_,h.answers⟩
  by_cases hsw : Switches σ.store data σ.disk
  · simp only [if_pos hsw]
    exact h.phase.switched qs e
  · simp only [if_neg hsw]
    exact h.phase.grows (storeAppend_grows h.stable hsw ha)

theorem covered_without (p : Pending) (errorCode : Int16) : (p.without errorCode).Covered := by
  intro hpos
  have hnone : (p.without errorCode).resp.batchSize.toInt = -1 := rfl
  omega

/-- An entry is finished with a covered answer. -/
theorem Inv.finish {τ : State} {a : Answer} (h : Inv dir σ) (hs : Stable dir τ.store τ.disk)
    (ha : τ.answers = σ.answers) (hc : a.Covered) : Inv dir (τ.finish a) := by
  refine ⟨hs,trivial,fun b hb => ?_⟩
  rw [State.finish,ha] at hb
  rcases List.mem_append.mp hb with hb|hb
  · exact h.answers b hb
  · rw [List.mem_singleton.mp hb]
    exact hc

/-- The size is taken together with the bytes it counts. -/
theorem traced_now (h : Stable dir σ.store σ.disk) (hs : ¬Stuck σ.store.active) :
    σ.store.Size.toInt = (σ.store.active.bytes σ.disk).length := by
  rw [PartitionStore.Size,Segment.Size,Int64.toInt_ofNat_of_lt h.sound.2,← h.sound.1.counted hs]
  rfl

theorem Inv.fetch_ready (h : Inv dir σ) (hp : σ.phase = .ready) : Inv dir (fetchStep σ) := by
  unfold fetchStep
  rw [hp]
  cases ht : σ.todo with
  | nil => exact h
  | cons part todo =>
      simp only
      generalize (if σ.remaining < part.partitionMaxBytes then σ.remaining
        else part.partitionMaxBytes) = cap
      split
      · exact h.finish h.stable rfl (covered_without _ _)
      · split
        · exact h.finish h.stable rfl (covered_without _ _)
        · split
          · exact h.finish h.stable rfl (covered_without _ _)
          · rename_i hcap
            rw [Int32.le_iff_toInt_le,not_le] at hcap
            exact ⟨h.stable,⟨hcap,le_rfl,fun _ hs => ⟨traced_now h.stable hs,List.prefix_rfl⟩⟩,
              h.answers⟩

/-- A settled read hands out a section of the log that was taken. -/
theorem Inv.fetch_sized (h : Inv dir σ) (hp : σ.phase = .sized p) (hs : Settled σ .fetch) :
    Inv dir (fetchStep σ) := by
  have hok := h.phase
  rw [hp] at hok
  obtain ⟨hcap,-,htraced⟩ := hok
  rw [Settled,hp] at hs
  obtain ⟨hsame,hend⟩ := hs
  have hread := h.stable.read p.part.fetchOffset.toUInt64 (p.cap+4)
  unfold fetchStep
  rw [hp]
  simp only
  rcases hr : σ.store.read p.part.fetchOffset.toUInt64 (p.cap+4) σ.disk with ⟨x|⟨r,n⟩,qs,e⟩
  · rw [hr] at hread
    exact h.finish hread rfl (covered_without _ _)
  · rw [hr] at hread
    obtain ⟨hrange,rfl,bw,hw,rfl⟩ := PartitionStore.read_ok hr
    obtain ⟨herr,-,-,hcontent⟩ := flush_none hw h.stable.sound.1.mem
    rw [Int64.toInt64_toUInt64]
    refine ⟨hread,⟨rfl,rfl,le_rfl,fun _ hopen => ?_⟩,h.answers⟩
    obtain ⟨hsize,hlog⟩ := htraced hsame (not_stuck hopen herr)
    refine ⟨hsize,fun h0 => range_end h.stable.sound.2 hrange h0 hcap hend,?_⟩
    rw [hcontent]
    exact hlog

/-- The bytes of a section are those of the log that was taken. -/
theorem window_of_within {n : Int32} {f : File} {raw : Bytes} {r' : SectionReader}
    (h : p.Within n.toInt ps d) (hf : f = ps.active.file) (hn : 0 < n.toInt.toNat)
    (hr : SectionReader.readFull
      ⟨f,p.part.fetchOffset.toInt,p.part.fetchOffset.toInt+n.toInt⟩ n.toInt.toNat d =
        (.ok raw,r',e)) :
    p.highWatermark.toInt = p.log.length ∧ 0 ≤ p.part.fetchOffset.toInt ∧
      p.part.fetchOffset.toInt+n.toInt ≤ p.highWatermark.toInt ∧
      raw = window p.log p.part.fetchOffset.toInt.toNat n.toInt.toNat := by
  subst hf
  obtain ⟨hpos,hopen,-,hraw,-⟩ := SectionReader.readFull_inv hr hn
  simp only at hpos hraw
  obtain ⟨hsize,hend,more,hlog⟩ := h hopen
  have hend := hend hpos
  refine ⟨hsize,hpos,hend,?_⟩
  have hmin : min n.toInt.toNat
      (p.part.fetchOffset.toInt+n.toInt-p.part.fetchOffset.toInt).toNat = n.toInt.toNat := by omega
  rw [hraw,← hlog,hmin]
  exact window_append_left _ (by omega)

theorem Inv.fetch_reading {r : SectionReader} {n : Int32} {opened : ℕ} (h : Inv dir σ)
    (hp : σ.phase = .reading p r n opened) : Inv dir (fetchStep σ) := by
  have hok := h.phase
  rw [hp] at hok
  obtain ⟨hpos,hlimit,-,hwithin⟩ := hok
  have hfiles := (SectionReader.readFull_idle {r with file := σ.fileOf r.file opened}
    n.toInt.toNat σ.disk).files
  unfold fetchStep
  rw [hp]
  simp only
  rcases hr : SectionReader.readFull {r with file := σ.fileOf r.file opened} n.toInt.toNat σ.disk
    with ⟨x|raw,r',e⟩
  · rw [hr] at hfiles
    exact h.finish (h.stable.of_files hfiles) rfl (covered_without _ _)
  · rw [hr] at hfiles
    have hstable := h.stable.of_files hfiles
    simp only
    split
    · exact h.finish hstable rfl (covered_without _ _)
    · rename_i hlong
      refine h.finish hstable rfl fun _ => ?_
      have hlen := (SectionReader.readFull_length hr).1
      simp only [recHdr,hlen,not_lt] at hlong
      have hopened : opened = σ.opened := by
        by_contra hne
        obtain ⟨-,hopen,-⟩ := SectionReader.readFull_inv hr (by omega)
        rw [State.fileOf,if_neg hne] at hopen
        cases hopen
      have hfile : σ.fileOf r.file opened = σ.store.active.file := if_pos hopened
      obtain ⟨f,pos,limit⟩ := r
      obtain rfl : pos = _ := hpos
      obtain rfl : limit = _ := hlimit
      obtain ⟨hsize,h0,hend,rfl⟩ := window_of_within (hwithin hopened) hfile (by omega) hr
      have hpay : (patch p.part.fetchOffset.toUInt64 ((window p.log p.part.fetchOffset.toInt.toNat
          n.toInt.toNat).drop recHdr)).length = n.toInt.toNat-4 := by
        rw [patch,patchLoop_length,List.length_drop,hlen]
        rfl
      have hmax := n.toInt_lt
      have hbatch : (Int32.ofNat (n.toInt.toNat-4)).toInt = n.toInt-4 := by
        rw [Int32.toInt_ofNat_of_lt (by omega)]
        omega
      simp only [hpay,hbatch]
      refine ⟨hsize,h0,by omega,?_⟩
      have hrest : n.toInt.toNat-recHdr = (n.toInt-4).toNat := by
        rw [recHdr]
        omega
      rw [window_drop,hrest,recHdr]

theorem Inv.step (h : Inv dir σ) {event : Event} (hs : Settled σ event) :
    Inv dir (step σ event) := by
  cases event with
  | append data => exact h.append data
  | faults schedule =>
      exact ⟨h.stable.reschedule schedule,h.phase.grows (.of_same rfl rfl rfl),h.answers⟩
  | elsewhere payloadLen =>
      rw [FetchConcurrency.step]
      split
      · exact ⟨h.stable,h.phase,h.answers⟩
      · exact h
  | fetch =>
      cases hp : σ.phase with
      | ready => exact h.fetch_ready hp
      | sized p => exact h.fetch_sized hp hs
      | reading p r n opened => exact h.fetch_reading hp

theorem Inv.run (h : Inv dir σ) {events : List Event} (hs : AllSettled σ events) :
    Inv dir (run σ events) := by
  induction events generalizing σ with
  | nil => exact h
  | cons event events ih => exact ih (h.step hs.1) hs.2

theorem inv_start (h : Reachable dir ps d) (parts : List FetchPartitionData) (maxBytes : Int32) :
    Inv dir (start ps d parts maxBytes) :=
  ⟨h.stable,trivial,fun _ ha => absurd ha List.not_mem_nil⟩

end Invariants

/-! ## A fetch by itself -/

/-- Some steps of the fetch with nothing in between. -/
def Alone (σ τ : State) : Prop :=
  ∃ n, run σ (List.replicate n .fetch) = τ ∧ AllSettled σ (List.replicate n .fetch)

/-- The answers to these entries have been added. -/
structure Served (σ τ : State) (parts : List FetchPartitionData)
    (resps : List FetchPartitionResponse) : Prop where
  alone : Alone σ τ
  ready : τ.phase = .ready
  answers : ∃ as, τ.answers = σ.answers++as ∧ as.map Answer.part = parts ∧
    as.map Answer.resp = resps

section Sequential
variable {σ τ : State} {topic : Bytes} {part : FetchPartitionData} {todo : List FetchPartitionData}
variable {bs bs' : BrokerStore} {d : Disk} {remaining : Int32} {resp : FetchPartitionResponse}

theorem Alone.refl (σ : State) : Alone σ σ := ⟨0,rfl,trivial⟩

theorem Alone.head (hs : Settled σ .fetch) (h : Alone (fetchStep σ) τ) : Alone σ τ := by
  obtain ⟨n,hr,ha⟩ := h
  exact ⟨n+1,hr,hs,ha⟩

theorem Alone.trans {υ : State} (h : Alone σ τ) (k : Alone τ υ) : Alone σ υ := by
  obtain ⟨n,hr,ha⟩ := h
  induction n generalizing σ with
  | zero =>
      obtain rfl : σ = τ := hr
      exact k
  | succ n ih => exact .head ha.1 (ih hr ha.2)

theorem settled_ready (h : σ.phase = .ready) : Settled σ .fetch := by
  rw [Settled,h]
  trivial

theorem Served.of_finish {a : Answer} (h : Alone σ (τ.finish a)) (ha : τ.answers = σ.answers) :
    Served σ (τ.finish a) [a.part] [a.resp] :=
  ⟨h,rfl,[a],by rw [State.finish,ha],rfl,rfl⟩

/-- From the size on, the steps are what the handler does with an entry that has
data to be read. -/
theorem fetchPartition_sized (σ : State) {cap : Int32} {log : Bytes}
    (hcap : (if σ.remaining < part.partitionMaxBytes then σ.remaining
      else part.partitionMaxBytes) = cap)
    (hp : σ.phase = .sized ⟨part,σ.store.Size,cap,log,σ.opened⟩)
    (hl : bs.stores.lookup (partitionKey topic part.partition) = some σ.store)
    (hne : ¬part.fetchOffset = σ.store.Size) (hle : ¬part.fetchOffset > σ.store.Size)
    (hpos : ¬cap ≤ 0)
    (hf : fetchPartition topic part σ.remaining bs σ.disk = (resp,remaining,bs',d)) :
    ∃ τ, Served σ τ [part] [resp] ∧ τ.todo = σ.todo ∧ τ.remaining = remaining ∧ τ.disk = d ∧
      bs'.stores.lookup (partitionKey topic part.partition) = some τ.store := by
  have hread (τ : State) (h : Alone (fetchStep σ) τ) : Alone σ τ := by
    refine .head ?_ h
    rw [Settled,hp]
    exact ⟨rfl,.inl rfl⟩
  unfold fetchStep at hread
  rw [hp] at hread
  unfold fetchPartition at hf
  rw [getOrCreatePartition_of_lookup hl] at hf
  simp only [hcap,if_neg hne,if_neg hle,if_neg hpos] at hf hread
  rcases hr : σ.store.read part.fetchOffset.toUInt64 (cap+4) σ.disk with ⟨x|⟨r,n⟩,qs,e⟩
  · rw [hr] at hf hread
    cases hf
    exact ⟨_,.of_finish (hread _ (.refl _)) rfl,rfl,rfl,rfl,put_lookup _ _ _ _⟩
  · rw [hr] at hf hread
    obtain ⟨-,rfl,bw,-,rfl⟩ := PartitionStore.read_ok hr
    have hlast := hread _ (.head trivial (.refl _))
    simp only [fetchStep,State.fileOf,if_true] at hf hlast
    rcases hfull : SectionReader.readFull ⟨σ.store.active.file,
      part.fetchOffset.toUInt64.toInt64.toInt,
      part.fetchOffset.toUInt64.toInt64.toInt+n.toInt⟩ n.toInt.toNat e with ⟨x|raw,r',e'⟩
    · rw [hfull] at hf hlast
      cases hf
      exact ⟨_,.of_finish hlast rfl,rfl,rfl,rfl,put_lookup _ _ _ _⟩
    · rw [hfull] at hf hlast
      simp only at hf hlast
      split at hf
      · rename_i hshort
        rw [if_pos hshort] at hlast
        cases hf
        exact ⟨_,.of_finish hlast rfl,rfl,rfl,rfl,put_lookup _ _ _ _⟩
      · rename_i hlong
        rw [if_neg hlong] at hlast
        cases hf
        exact ⟨_,.of_finish hlast rfl,rfl,rfl,rfl,put_lookup _ _ _ _⟩

/-- The steps one after the other are what the handler does with an entry. -/
theorem fetchPartition_served (hp : σ.phase = .ready) (ht : σ.todo = part::todo)
    (hl : bs.stores.lookup (partitionKey topic part.partition) = some σ.store)
    (hf : fetchPartition topic part σ.remaining bs σ.disk = (resp,remaining,bs',d)) :
    ∃ τ, Served σ τ [part] [resp] ∧ τ.todo = todo ∧ τ.remaining = remaining ∧ τ.disk = d ∧
      bs'.stores.lookup (partitionKey topic part.partition) = some τ.store := by
  have hsize (τ : State) (h : Alone (fetchStep σ) τ) : Alone σ τ := h.head (settled_ready hp)
  unfold fetchStep at hsize
  rw [hp,ht] at hsize
  simp only at hsize
  generalize hcap : (if σ.remaining < part.partitionMaxBytes then σ.remaining
    else part.partitionMaxBytes) = cap at hsize
  by_cases hne : part.fetchOffset = σ.store.Size
  · rw [if_pos hne] at hsize
    simp only [fetchPartition,getOrCreatePartition_of_lookup hl,if_pos hne] at hf
    cases hf
    exact ⟨_,.of_finish (hsize _ (.refl _)) rfl,rfl,rfl,rfl,hl⟩
  rw [if_neg hne] at hsize
  by_cases hle : part.fetchOffset > σ.store.Size
  · rw [if_pos hle] at hsize
    simp only [fetchPartition,getOrCreatePartition_of_lookup hl,if_neg hne,if_pos hle] at hf
    cases hf
    exact ⟨_,.of_finish (hsize _ (.refl _)) rfl,rfl,rfl,rfl,hl⟩
  rw [if_neg hle] at hsize
  by_cases hpos : cap ≤ 0
  · rw [if_pos hpos] at hsize
    simp only [fetchPartition,getOrCreatePartition_of_lookup hl,if_neg hne,if_neg hle,hcap,
      if_pos hpos] at hf
    cases hf
    exact ⟨_,.of_finish (hsize _ (.refl _)) rfl,rfl,rfl,rfl,hl⟩
  rw [if_neg hpos] at hsize
  obtain ⟨τ,hs,hrest⟩ := fetchPartition_sized {σ with
    todo := todo
    phase := .sized ⟨part,σ.store.Size,cap,σ.store.active.bytes σ.disk,σ.opened⟩}
    hcap rfl hl hne hle hpos hf
  exact ⟨τ,⟨hsize τ hs.alone,hs.ready,hs.answers⟩,hrest⟩

theorem Served.cons {υ : State} {parts : List FetchPartitionData}
    {resps : List FetchPartitionResponse} (h : Served σ τ [part] [resp])
    (k : Served τ υ parts resps) : Served σ υ (part::parts) (resp::resps) := by
  obtain ⟨as,ha,hparts,hresps⟩ := h.answers
  obtain ⟨bs,hb,kparts,kresps⟩ := k.answers
  refine ⟨h.alone.trans k.alone,k.ready,as++bs,?_,?_,?_⟩
  · rw [hb,ha,List.append_assoc]
  · rw [List.map_append,hparts,kparts]
    rfl
  · rw [List.map_append,hresps,kresps]
    rfl

/-- The entries for one partition, one after the other. -/
theorem fetchPartitions_served (σ : State) {parts : List FetchPartitionData} {partition : Int32}
    {resps : List FetchPartitionResponse} (hparts : ∀ part ∈ parts, part.partition = partition)
    (hp : σ.phase = .ready) (ht : σ.todo = parts)
    (hl : bs.stores.lookup (partitionKey topic partition) = some σ.store)
    (hf : fetchPartitions topic parts σ.remaining bs σ.disk = (resps,remaining,bs',d)) :
    ∃ τ, Served σ τ parts resps ∧ τ.todo = [] ∧ τ.remaining = remaining ∧ τ.disk = d ∧
      bs'.stores.lookup (partitionKey topic partition) = some τ.store := by
  induction parts generalizing σ bs resps with
  | nil =>
      cases hf
      exact ⟨σ,⟨.refl σ,hp,[],by simp,rfl,rfl⟩,ht,rfl,rfl,hl⟩
  | cons part parts ih =>
      rw [List.forall_mem_cons] at hparts
      obtain ⟨rfl,hparts⟩ := hparts
      rw [fetchPartitions] at hf
      rcases hx : fetchPartition topic part σ.remaining bs σ.disk with ⟨resp,rem,bs₁,d₁⟩
      obtain ⟨τ,hs,htodo,hrem,hdisk,hlook⟩ := fetchPartition_served hp ht hl hx
      rcases hy : fetchPartitions topic parts rem bs₁ d₁ with ⟨resps',rem',bs₂,d₂⟩
      simp only [hx,hy] at hf
      cases hf
      rw [← hrem,← hdisk] at hy
      obtain ⟨υ,hu,hrest⟩ := ih τ hparts hs.ready htodo hlook hy
      exact ⟨υ,hs.cons hu,hrest⟩

/-- Without appends in between, what the handler answers is covered. -/
theorem fetchPartitions_covered {dir : List Bytes} {ps : PartitionStore} {e : Disk}
    {parts : List FetchPartitionData} {partition maxBytes : Int32}
    {resps : List FetchPartitionResponse} (h : Reachable dir ps e)
    (hparts : ∀ part ∈ parts, part.partition = partition)
    (hl : bs.stores.lookup (partitionKey topic partition) = some ps)
    (hf : fetchPartitions topic parts maxBytes bs e = (resps,remaining,bs',d)) :
    ∃ as : List Answer, as.map Answer.part = parts ∧ as.map Answer.resp = resps ∧
      ∀ a ∈ as, a.Covered := by
  obtain ⟨τ,⟨⟨n,rfl,hs⟩,-,as,ha,hp,hr⟩,-⟩ :=
    fetchPartitions_served (start ps e parts maxBytes) hparts rfl rfl hl hf
  refine ⟨as,hp,hr,fun a hm => ((inv_start h parts maxBytes).run hs).answers a ?_⟩
  rw [ha]
  exact hm

end Sequential

/-- Whatever happens to a partition before and during a fetch, the data of every
response lies below the size that it reports and comes from the log of that
size, if at every read the segment is the one whose size was taken and has not
grown, or the window ends below that size. -/
theorem fetched_below_watermark {dir : List Bytes} {ps : PartitionStore} {d : Disk}
    (h : Reachable dir ps d) (parts : List FetchPartitionData) (maxBytes : Int32)
    {events : List Event} (hs : AllSettled (start ps d parts maxBytes) events) :
    ∀ a ∈ (run (start ps d parts maxBytes) events).answers, a.Covered :=
  ((inv_start h parts maxBytes).run hs).answers

/-- A fetch among these events, in a partition with this limit that stores one
record of one byte: whether every read is settled, and the answers. -/
def trial (limit : Int64) (part : FetchPartitionData) (events : List Event) :
    Option (Bool × List Answer) :=
  let σ := PartitionFaults.run [] ⟨none,.blank⟩ [.openStore ⟨limit⟩,.append [1]]
  σ.store.map fun ps =>
    (decide (AllSettled (start ps σ.disk [part] 1000) events),
      (run (start ps σ.disk [part] 1000) events).answers)

theorem trial_reachable {limit : Int64} {part : FetchPartitionData} {events : List Event}
    {settled : Bool} {answers : List Answer}
    (h : trial limit part events = some (settled,answers)) :
    ∃ ps d, Reachable [] ps d ∧ decide (AllSettled (start ps d [part] 1000) events) = settled ∧
      (run (start ps d [part] 1000) events).answers = answers := by
  unfold trial at h
  rcases hσ : PartitionFaults.run [] ⟨none,.blank⟩ [.openStore ⟨limit⟩,.append [1]] with ⟨store,d⟩
  simp only [hσ] at h
  cases store with
  | none => cases h
  | some ps =>
      simp only [Option.map_some,Option.some.injEq,Prod.mk.injEq] at h
      exact ⟨ps,d,⟨.blank,_,PartitionRuns.vacant_blank [],hσ⟩,h⟩

/-- An append between the size and the read does not matter to a fetch of one
byte. -/
theorem one_byte_below_watermark :
    ∃ ps d, Reachable [] ps d ∧
      (run (start ps d [⟨0,0,1⟩] 1000) [.fetch,.append [2],.fetch,.append [3],.fetch]).answers =
        [⟨⟨0,0,1⟩,[0,0,0,1,1],⟨0,0,5,1,some [1]⟩⟩] ∧
      ∀ a ∈ (run (start ps d [⟨0,0,1⟩] 1000)
        [.fetch,.append [2],.fetch,.append [3],.fetch]).answers, a.Covered := by
  have ht : trial 1000 ⟨0,0,1⟩ [.fetch,.append [2],.fetch,.append [3],.fetch] =
      some (true,[⟨⟨0,0,1⟩,[0,0,0,1,1],⟨0,0,5,1,some [1]⟩⟩]) := by decide +kernel
  obtain ⟨ps,d,hr,hs,ha⟩ := trial_reachable ht
  exact ⟨ps,d,hr,ha,fetched_below_watermark hr [⟨0,0,1⟩] 1000 (of_decide_eq_true hs)⟩

/-- A record that is appended between the size and the read is served with the
first one, behind the size that is reported. If it needs another segment, it is
served in place of the first one. -/
theorem append_between_size_and_read :
    (∃ ps d, Reachable [] ps d ∧
      (run (start ps d [⟨0,0,1000⟩] 1000) [.fetch,.append [2],.fetch,.fetch]).answers =
        [⟨⟨0,0,1000⟩,[0,0,0,1,1],⟨0,0,5,6,some [1,0,0,0,1,2]⟩⟩]) ∧
    (∃ ps d, Reachable [] ps d ∧
      (run (start ps d [⟨0,0,1⟩] 1000) [.fetch,.append [2],.fetch,.fetch]).answers =
        [⟨⟨0,0,1⟩,[0,0,0,1,1],⟨0,0,5,1,some [2]⟩⟩]) ∧
    ¬Answer.Covered ⟨⟨0,0,1000⟩,[0,0,0,1,1],⟨0,0,5,6,some [1,0,0,0,1,2]⟩⟩ ∧
    ¬Answer.Covered ⟨⟨0,0,1⟩,[0,0,0,1,1],⟨0,0,5,1,some [2]⟩⟩ := by
  have hgrown : trial 1000 ⟨0,0,1000⟩ [.fetch,.append [2],.fetch,.fetch] =
      some (false,[⟨⟨0,0,1000⟩,[0,0,0,1,1],⟨0,0,5,6,some [1,0,0,0,1,2]⟩⟩]) := by decide +kernel
  have hrolled : trial 6 ⟨0,0,1⟩ [.fetch,.append [2],.fetch,.fetch] =
      some (false,[⟨⟨0,0,1⟩,[0,0,0,1,1],⟨0,0,5,1,some [2]⟩⟩]) := by decide +kernel
  obtain ⟨ps,d,hr,-,ha⟩ := trial_reachable hgrown
  obtain ⟨qs,e,hq,-,hb⟩ := trial_reachable hrolled
  exact ⟨⟨ps,d,hr,ha⟩,⟨qs,e,hq,hb⟩,by decide,by decide⟩

end Kage.FetchConcurrency
