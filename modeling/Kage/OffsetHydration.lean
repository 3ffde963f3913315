import Kage.OffsetStorage
import Kage.RecordBatches

/-!
# Loading any log of offsets

The partition of the committed offsets may hold anything: records of offsets,
records that are cut or spell lengths that they do not have, and empty ones. As
long as the log is one segment that a single read covers, loading it fails at
nothing. The cache then has an offset for a key exactly when a record of the
log decodes to that key, and it is the offset of the last such record.

`decodeInBounds` is the decoder with every index and slice expression checked as
the language checks it. None of them is ever out of bounds.
-/
namespace Kage.OffsetHydration
open ByteStrings LengthPrefixed LastWrite FaultyDisk SparseIndex SegmentLog PartitionLog RollingLog
open BrokerStores RecordBatches OffsetRecords OffsetHandlers OffsetStorage

/-! ## Bounds -/

/-- The first bytes as a number, which have to be there. -/
def bigEndianUint (w : ℕ) (b : Bytes) : Option ℕ :=
  if w ≤ b.length then some (uint (b.take w)) else none

def bigEndianUint16 : Bytes → Option ℕ := bigEndianUint 2

def bigEndianUint64 : Bytes → Option ℕ := bigEndianUint 8

def decodeKeyInBounds (key : Bytes) : Option (Except Err OffsetCacheKey) :=
  if key.length < 2 then
    some (.error (.sentinel "decodeOffsetRecord: key too short for groupID length")) else do
  let groupIDLen ← (sliceFrom key 0).bind bigEndianUint16
  let kpos := 2
  if kpos+groupIDLen > key.length then
    some (.error (.sentinel "decodeOffsetRecord: groupID length %d exceeds key")) else do
  let groupID ← slice key kpos (kpos+groupIDLen)
  let kpos := kpos+groupIDLen
  if kpos+2 > key.length then
    some (.error (.sentinel "decodeOffsetRecord: key too short for topic length")) else do
  let topicLen ← (sliceFrom key kpos).bind bigEndianUint16
  let kpos := kpos+2
  if kpos+topicLen > key.length then
    some (.error (.sentinel "decodeOffsetRecord: topic length %d exceeds key")) else do
  let topic ← slice key kpos (kpos+topicLen)
  let kpos := kpos+topicLen
  if kpos+4 > key.length then
    some (.error (.sentinel "decodeOffsetRecord: key too short for partition")) else do
  let partition ← (sliceFrom key kpos).bind bigEndianUint32
  some (.ok ⟨groupID,topic,(UInt32.ofNat partition).toInt32⟩)

def decodeInBounds (record : Bytes) : Option (Except Err (OffsetCacheKey × Int64)) :=
  if record.length < 4 then
    some (.error (.sentinel "decodeOffsetRecord: record too short (%d bytes)")) else do
  let keyLen ← (sliceFrom record 0).bind bigEndianUint32
  let pos := 4
  if pos+keyLen > record.length then
    some (.error (.sentinel "decodeOffsetRecord: key length %d exceeds record")) else do
  let key ← slice record pos (pos+keyLen)
  let pos := pos+keyLen
  if pos+4 > record.length then
    some (.error (.sentinel "decodeOffsetRecord: no room for value length")) else do
  let valueLen ← (sliceFrom record pos).bind bigEndianUint32
  let pos := pos+4
  if pos+valueLen > record.length then
    some (.error (.sentinel "decodeOffsetRecord: value length %d exceeds record")) else do
  let value ← slice record pos (pos+valueLen)
  match ← decodeKeyInBounds key with
  | .error e => some (.error e)
  | .ok cacheKey =>
      if value.length < 8 then
        some (.error
          (.sentinel "decodeOffsetRecord: value too short for offset (%d bytes)")) else do
      let offset ← (slice value 0 8).bind bigEndianUint64
      some (.ok (cacheKey,(UInt64.ofNat offset).toInt64))

theorem slice_of_le {b : Bytes} {lo len : ℕ} (h : lo+len ≤ b.length) :
    slice b lo (lo+len) = some (window b lo len) := by
  rw [slice,if_pos (by omega),Nat.add_sub_cancel_left]

theorem uint_slice {w : ℕ} {b : Bytes} (h : w ≤ b.length) :
    (slice b 0 w).bind (bigEndianUint w) = some (uintAt w b 0) := by
  have hl : (window b 0 w).length = w := window_length_of_le (by omega)
  rw [slice,if_pos ⟨Nat.zero_le w,h⟩,Option.bind_some,Nat.sub_zero,bigEndianUint,
    if_pos (le_of_eq hl.symm),List.take_of_length_le (le_of_eq hl)]
  rfl

theorem decodeKeyInBounds_eq (key : Bytes) :
    decodeKeyInBounds key = some (decodeOffsetKey key) := by
  unfold decodeKeyInBounds decodeOffsetKey
  split
  · rfl
  · have hgl : (sliceFrom key 0).bind bigEndianUint16 = _ := uint_sliceFrom (by omega)
    simp only [hgl,Option.bind_eq_bind,Option.bind_some]
    split
    · rfl
    · rw [slice_of_le (by omega),Option.bind_some]
      split
      · rfl
      · have htl : (sliceFrom key (2+uintAt 2 key 0)).bind bigEndianUint16 = _ :=
          uint_sliceFrom (by omega)
        rw [htl,Option.bind_some]
        split
        · rfl
        · rw [slice_of_le (by omega),Option.bind_some]
          split
          · rfl
          · rw [uint32_sliceFrom (by omega),Option.bind_some]

theorem decodeInBounds_eq (record : Bytes) :
    decodeInBounds record = some (decodeOffsetRecord record) := by
  unfold decodeInBounds decodeOffsetRecord
  split
  · rfl
  · rw [uint32_sliceFrom (by omega)]
    simp only [Option.bind_eq_bind,Option.bind_some]
    split
    · rfl
    · rw [slice_of_le (by omega),Option.bind_some]
      split
      · rfl
      · rw [uint32_sliceFrom (by omega),Option.bind_some]
        split
        · rfl
        · rw [slice_of_le (by omega),Option.bind_some,decodeKeyInBounds_eq,Option.bind_some]
          cases decodeOffsetKey (window record 4 (uintAt 4 record 0)) with
          | error e => rfl
          | ok cacheKey =>
              simp only
              split
              · rfl
              · rename_i hv
                have ho : (slice _ 0 8).bind bigEndianUint64 = _ := uint_slice (not_lt.mp hv)
                rw [ho,Option.bind_some]

/-! ## Loading -/

/-- The log of the offsets partition: its store is open and holds it, or it lies
on the disk and no store is open yet. -/
inductive OffsetsLog (bs : BrokerStore) (d : Disk) (xs : List Bytes) : Prop
  | opened (ps : PartitionStore) :
      bs.stores.lookup (partitionKey ConsumerOffsetsTopic 0) = some ps →
      ps.active.Holds d (frames xs) → OffsetsLog bs d xs
  | stored : bs.stores.lookup (partitionKey ConsumerOffsetsTopic 0) = none → d.Healthy →
      d.files.lookup (logPath (bs.partitionDir ConsumerOffsetsTopic 0) 0) = some (frames xs) →
      OffsetsLog bs d xs

/-- A partition that is not open yet is opened with what is on the disk. -/
theorem getOrCreatePartition_stored {bs : BrokerStore} {d : Disk} {topic : Bytes}
    {partition : Int32} (hs : bs.stores.lookup (partitionKey topic partition) = none)
    (hd : d.Healthy) :
    ∃ ps bs' e, bs.getOrCreatePartition topic partition d = (.ok ps,bs',e) ∧
      Follows ps e (Rolling.openAt (segments (bs.partitionDir topic partition) d) 0) := by
  have hm : ∃ e, d.mkdirAll (bs.partitionDir topic partition) = (none,e) ∧ e.Healthy ∧
      e.files = d.files := by
    rw [Disk.mkdirAll,Disk.next_healthy hd]
    exact ⟨_,rfl,hd,rfl⟩
  obtain ⟨e,hm,he,hfiles⟩ := hm
  obtain ⟨ps,e₂,ho,-,-,-,-,hf⟩ :=
    openPartitionStore_follows he (bs.partitionDir topic partition) bs.cfg
  have hseg : segments (bs.partitionDir topic partition) e =
      segments (bs.partitionDir topic partition) d := by
    funext b
    rw [segments,segments,hfiles]
  rw [hseg] at hf
  refine ⟨ps,bs.put topic partition ps,e₂,?_,hf⟩
  simp only [BrokerStore.getOrCreatePartition,hs,hm,ho]

theorem OffsetsLog.getOrCreate {bs : BrokerStore} {d : Disk} {xs : List Bytes}
    (h : OffsetsLog bs d xs) :
    ∃ ps bs' e, bs.getOrCreatePartition ConsumerOffsetsTopic 0 d = (.ok ps,bs',e) ∧
      ps.active.Holds e (frames xs) := by
  cases h with
  | opened ps hs hh => exact ⟨ps,bs,d,getOrCreatePartition_of_lookup hs,hh⟩
  | stored hs hd hf =>
      obtain ⟨ps,bs',e,hg,hfol⟩ := getOrCreatePartition_stored hs hd
      have hact : (Rolling.openAt (segments (bs.partitionDir ConsumerOffsetsTopic 0) d) 0).active =
          frames xs := by
        rw [Rolling.active,Rolling.openAt_part,Rolling.openAt,segments,hf]
        rfl
      exact ⟨ps,bs',e,hg,hact ▸ hfol.holds⟩

theorem recordWrite_eq_some_iff (x : Bytes) (w : OffsetCacheKey × Int64) :
    recordWrite x = some w ↔ decodeOffsetRecord x = .ok w := by
  unfold recordWrite
  cases decodeOffsetRecord x with
  | error e => simp
  | ok v => simp

/-- Loading any log of one segment below 2^31 bytes succeeds without leaving the
bounds of a record, and finds for every key the last record that decodes to it. -/
theorem hydration_finds_last_write (bs : BrokerStore) (d : Disk) (xs : List Bytes)
    (h : OffsetsLog bs d xs) (hl : (frames xs).length < 2^31) :
    (∀ x, decodeInBounds x = some (decodeOffsetRecord x)) ∧
      ∃ h' e, loadOffsetsCache (newHandler bs) d = (none,h',e) ∧
        ∀ key offset, h'.offsetCache key = some offset ↔
          ∃ (i : ℕ) (x : Bytes), xs[i]? = some x ∧ decodeOffsetRecord x = .ok (key,offset) ∧
            ∀ j y w, i < j → xs[j]? = some y → decodeOffsetRecord y = .ok w → w.1 ≠ key := by
  refine ⟨decodeInBounds_eq,?_⟩
  obtain ⟨ps,bs',e,hg,hh⟩ := h.getOrCreate
  obtain ⟨h',e',hload,hcache⟩ := loadOffsetsCache_whole hg hh (Nat.le_pred_of_lt hl)
  refine ⟨h',e',hload,fun key offset => ?_⟩
  rw [hcache,recordWrites,lastValue_filterMap]
  simp only [Latest,recordWrite_eq_some_iff]
  constructor
  · rintro ⟨i,⟨x,hx,hk⟩,hlast⟩
    exact ⟨i,x,hx,hk,fun j y w hj hy hw => hlast j w hj ⟨y,hy,hw⟩⟩
  · rintro ⟨i,x,hx,hk,hlast⟩
    refine ⟨i,⟨x,hx,hk⟩,fun j w hj hjw => ?_⟩
    obtain ⟨y,hy,hw⟩ := hjw
    exact hlast j y w hj hy hw

/-- Two commits of one key among records that are none. -/
def mixedLog : List Bytes :=
  [Commit.record ⟨aGroup,aTopic,0,3⟩,[],[1,2,3],Commit.record ⟨aGroup,aTopic,0,5⟩,[0,0,0,9]]

def mixedDisk : Disk :=
  ⟨Finmap.insert (logPath ((BrokerStore.mk [] ⟨0⟩ ∅).partitionDir ConsumerOffsetsTopic 0) 0)
    (frames mixedLog) ∅,[],[]⟩

theorem mixed_log_hydrated :
    ∃ h e, loadOffsetsCache (newHandler ⟨[],⟨0⟩,∅⟩) mixedDisk = (none,h,e) ∧
      h.offsetCache ⟨ascii "g",ascii "t",0⟩ = some 5 := by
  have hlog : OffsetsLog ⟨[],⟨0⟩,∅⟩ mixedDisk mixedLog :=
    .stored rfl rfl (Finmap.lookup_insert _)
  obtain ⟨-,h,e,hload,hcache⟩ := hydration_finds_last_write ⟨[],⟨0⟩,∅⟩ mixedDisk mixedLog hlog
    (by decide +kernel)
  refine ⟨h,e,hload,(hcache _ _).mpr ⟨3,_,rfl,decodeOffsetRecord_record ⟨aGroup,aTopic,0,5⟩,?_⟩⟩
  intro j y w hj hy hw
  have hj4 : j = 4 := by
    have := (List.getElem?_eq_some_iff.mp hy).1
    simp only [mixedLog,List.length_cons,List.length_nil] at this
    omega
  subst hj4
  obtain rfl : [0,0,0,9] = y := Option.some.inj hy
  cases hw

end Kage.OffsetHydration
