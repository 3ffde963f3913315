import Kage.FaultyDisk

/-!
# Record batches

A batch begins with its base offset and the length of what follows the first
twelve bytes. The checksum covers everything behind its own field, up to the
length, so rewriting the base offset does not invalidate it. Validation looks at
the header only; what it cannot slice makes the caller panic, which is modeled
as no answer.

`validateInBounds` is the same function with each index and slice expression
checked as the language checks it. All of them are in bounds but one: the end of
the checksum's window comes from the length field, and nothing says that it is
not in front of the start.
-/
namespace Kage.RecordBatches
open ByteStrings FaultyDisk

def rbOffsetLength : ℕ := 8
def rbOffsetMagic : ℕ := 16
def rbOffsetCRC : ℕ := 17
def rbOffsetCRCBody : ℕ := 21
def rbOffsetRecordsCount : ℕ := 57
def rbMinBytes : ℕ := 61

def ErrInvalidMagicByte : Err := .sentinel "record batch: invalid magic byte (expected 2)"
def ErrCRCMismatch : Err := .sentinel "record batch: CRC mismatch — possible data corruption"

/-- One bit of the reflected Castagnoli division. -/
def crcBit (crc : UInt32) : UInt32 :=
  if crc &&& 1 = 1 then (crc >>> 1) ^^^ 0x82F63B78 else crc >>> 1

def crcByte (crc : UInt32) (b : UInt8) : UInt32 :=
  (List.range 8).foldl (fun crc _ => crcBit crc) (crc ^^^ b.toUInt32)

/-- The CRC-32C checksum of a byte string. -/
def crc32c (bs : Bytes) : UInt32 := bs.foldl crcByte 0xFFFFFFFF ^^^ 0xFFFFFFFF

example : crc32c (ascii "123456789") = 0xE3069283 := by decide +kernel

/-- The record count of a batch whose header is sound. No answer stands for the
slice bounds panic of a length below nine. -/
def validateRecordBatch (batch : Bytes) : Option (Except Err Int32) :=
  if batch.length < rbMinBytes then
    some (.error (.sentinel "record batch: too short (%d bytes, need at least %d)")) else
  if window batch rbOffsetMagic 1 ≠ [2] then
    some (.error (.wrap "%w: got %d" ErrInvalidMagicByte)) else
    let expectedTotal := uintAt 4 batch rbOffsetLength+12
    if batch.length < expectedTotal then
      some (.error
        (.sentinel "record batch: batch length field (%d) exceeds buffer size (%d)")) else
    if expectedTotal < rbOffsetCRCBody then none else
      let storedCRC := UInt32.ofNat (uintAt 4 batch rbOffsetCRC)
      let computedCRC := crc32c (window batch rbOffsetCRCBody (expectedTotal-rbOffsetCRCBody))
      if storedCRC ≠ computedCRC then
        some (.error (.wrap "%w: stored=0x%08x computed=0x%08x" ErrCRCMismatch))
      else some (.ok (UInt32.ofNat (uintAt 4 batch rbOffsetRecordsCount)).toInt32)

/-- The length field counts the whole batch, which has at least a header. -/
structure Complete (b : Bytes) : Prop where
  length : b.length = 12+uintAt 4 b rbOffsetLength
  header : rbMinBytes ≤ b.length

/-- Equal outside the base offset. -/
def SameButBase (b q : Bytes) : Prop := q.length = b.length ∧ q.drop 8 = b.drop 8

/-- A batch as a producer builds it around what the checksum covers. -/
def batchOf (body : Bytes) : Bytes :=
  putUint 8 0++(putUint 4 (9+body.length)++(putUint 4 0++
    (2::(putUint 4 (crc32c body).toNat++body))))

/-- A batch that counts one record and has nothing else in it. -/
def oneRecord : Bytes := batchOf (List.replicate 39 0++[1])

instance (b : Bytes) : Decidable (Complete b) :=
  decidable_of_iff (b.length = 12+uintAt 4 b rbOffsetLength ∧ rbMinBytes ≤ b.length)
    ⟨fun h => ⟨h.1,h.2⟩,fun h => ⟨h.1,h.2⟩⟩

/-- Validation does not see the base offset. -/
theorem validate_sameButBase {b q : Bytes} (h : SameButBase b q) :
    validateRecordBatch q = validateRecordBatch b := by
  have hw := fun {start : ℕ} (hs : 8 ≤ start) len => window_of_drop h.2 hs len
  have hu := fun {pos : ℕ} (hp : 8 ≤ pos) w => uintAt_of_drop h.2 hp w
  simp only [validateRecordBatch,h.1,hw (by decide : 8 ≤ rbOffsetMagic),
    hw (by decide : 8 ≤ rbOffsetCRCBody),hu (by decide : 8 ≤ rbOffsetLength),
    hu (by decide : 8 ≤ rbOffsetCRC),hu (by decide : 8 ≤ rbOffsetRecordsCount)]

/-! ## Bounds -/

/-- The expression `b[lo:]`. -/
def sliceFrom (b : Bytes) (lo : ℕ) : Option Bytes :=
  if lo ≤ b.length then some (b.drop lo) else none

/-- The expression `b[lo:hi]`. -/
def slice (b : Bytes) (lo hi : ℕ) : Option Bytes :=
  if lo ≤ hi ∧ hi ≤ b.length then some (window b lo (hi-lo)) else none

/-- The first four bytes as a number, which have to be there. -/
def bigEndianUint32 (b : Bytes) : Option ℕ :=
  if 4 ≤ b.length then some (uint (b.take 4)) else none

def validateInBounds (batch : Bytes) : Option (Except Err Int32) :=
  if batch.length < rbMinBytes then
    some (.error (.sentinel "record batch: too short (%d bytes, need at least %d)")) else do
    let magic ← batch[rbOffsetMagic]?
    if magic ≠ 2 then some (.error (.wrap "%w: got %d" ErrInvalidMagicByte)) else do
      let batchLength ← (sliceFrom batch rbOffsetLength).bind bigEndianUint32
      let expectedTotal := batchLength+12
      if batch.length < expectedTotal then
        some (.error
          (.sentinel "record batch: batch length field (%d) exceeds buffer size (%d)")) else do
        let storedCRC ← (sliceFrom batch rbOffsetCRC).bind bigEndianUint32
        let crcBody ← slice batch rbOffsetCRCBody expectedTotal
        if UInt32.ofNat storedCRC ≠ crc32c crcBody then
          some (.error (.wrap "%w: stored=0x%08x computed=0x%08x" ErrCRCMismatch)) else do
          let recordCount ← (sliceFrom batch rbOffsetRecordsCount).bind bigEndianUint32
          some (.ok (UInt32.ofNat recordCount).toInt32)

/-- Bytes that are there can be read. -/
theorem uint_sliceFrom {w lo : ℕ} {b : Bytes} (h : lo+w ≤ b.length) :
    (sliceFrom b lo).bind (fun c => if w ≤ c.length then some (uint (c.take w)) else none) =
      some (uintAt w b lo) := by
  have hl : w ≤ (b.drop lo).length := by
    rw [List.length_drop]
    omega
  rw [sliceFrom,if_pos (by omega),Option.bind_some,if_pos hl]
  rfl

theorem uint32_sliceFrom {b : Bytes} {lo : ℕ} (h : lo+4 ≤ b.length) :
    (sliceFrom b lo).bind bigEndianUint32 = some (uintAt 4 b lo) := uint_sliceFrom h

theorem window_one {b : Bytes} {i : ℕ} {x : UInt8} (h : b[i]? = some x) : window b i 1 = [x] := by
  obtain ⟨hi,rfl⟩ := List.getElem?_eq_some_iff.mp h
  rw [window,List.drop_eq_getElem_cons hi]
  rfl

/-- Only the window of the checksum can be out of bounds. -/
theorem validateInBounds_eq (batch : Bytes) :
    validateInBounds batch = validateRecordBatch batch := by
  unfold validateInBounds validateRecordBatch
  by_cases hlen : batch.length < rbMinBytes
  · rw [if_pos hlen,if_pos hlen]
  · rw [if_neg hlen,if_neg hlen]
    rw [not_lt,rbMinBytes] at hlen
    have hi : rbOffsetMagic < batch.length := by
      rw [rbOffsetMagic]
      omega
    have hm := List.getElem?_eq_getElem hi
    have hread : ∀ {lo}, lo+4 ≤ 61 → (sliceFrom batch lo).bind bigEndianUint32 =
        some (uintAt 4 batch lo) := fun hlo => uint32_sliceFrom (by omega)
    simp only [hm,window_one hm,hread (by decide : rbOffsetLength+4 ≤ 61),
      hread (by decide : rbOffsetCRC+4 ≤ 61),hread (by decide : rbOffsetRecordsCount+4 ≤ 61),
      Option.bind_eq_bind,Option.bind_some,ne_eq,List.cons.injEq,and_true]
    split
    · rfl
    · split
      · rfl
      · rename_i hle
        rw [slice]
        split
        · rw [if_neg (by omega)]
          rfl
        · rw [if_pos (by omega)]
          rfl

theorem validateRecordBatch_eq_none_iff (batch : Bytes) : validateRecordBatch batch = none ↔
    rbMinBytes ≤ batch.length ∧ window batch rbOffsetMagic 1 = [2] ∧
      uintAt 4 batch rbOffsetLength < 9 := by
  have hmin : rbMinBytes = 61 := rfl
  have hbody : rbOffsetCRCBody = 21 := rfl
  unfold validateRecordBatch
  by_cases hlen : batch.length < rbMinBytes
  · simp [hlen]
  · rw [if_neg hlen]
    by_cases hm : window batch rbOffsetMagic 1 = [2]
    · rw [if_neg (not_not.mpr hm)]
      simp only [hm,true_and]
      by_cases hs : uintAt 4 batch rbOffsetLength < 9
      · rw [if_neg (by omega),if_pos (by omega)]
        simp only [hs,and_true,true_iff]
        omega
      · simp only [hs,and_false,iff_false]
        split
        · exact Option.some_ne_none _
        · rw [if_neg (by omega)]
          split <;> exact Option.some_ne_none _
    · simp [hm]

/-- The validator answers, and every expression in it is in bounds, exactly when
the batch is refused for its size or its magic byte or its length field reaches
to the start of what the checksum covers. -/
theorem validator_returns_iff (batch : Bytes) : (∃ r, validateInBounds batch = some r) ↔
    batch.length < rbMinBytes ∨ window batch rbOffsetMagic 1 ≠ [2] ∨
      9 ≤ uintAt 4 batch rbOffsetLength := by
  rw [← Option.isSome_iff_exists,← Option.ne_none_iff_isSome,validateInBounds_eq,Ne,
    validateRecordBatch_eq_none_iff,not_and_or,not_and_or,not_le,not_lt]

/-- Sixty-one bytes with the right magic byte and a length of zero. -/
def shortLength : Bytes := List.replicate 16 0++(2::List.replicate 44 0)

theorem validator_panics_on_short_length : shortLength.length = 61 ∧
    slice shortLength rbOffsetCRCBody (uintAt 4 shortLength rbOffsetLength+12) = none ∧
      validateInBounds shortLength = none := by
  decide +kernel

end Kage.RecordBatches
