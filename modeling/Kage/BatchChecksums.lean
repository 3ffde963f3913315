import Kage.ErrorDetection
import Kage.ProduceHandler

/-!
# Corruption of a stored batch

A batch that was accepted is refused as soon as one byte from its checksum to the
end that its length tells has another value. In the field of the checksum the
change makes the stored value another one. Behind it, it makes the computed value
another one, since no step of the checksum merges two remainders.
-/
namespace Kage.BatchChecksums
open ByteStrings FaultyDisk ErrorDetection RecordBatches ProduceHandler

theorem lowBit_iff (crc : UInt32) : crc &&& 1 = 1 ↔ crc.toBitVec.getLsbD 0 = true := by
  have h : (crc &&& 1).toBitVec = BitVec.setWidth 32 (BitVec.ofBool (crc.toBitVec.getLsbD 0)) :=
    BitVec.and_one_eq_setWidth_ofBool_getLsbD
  rw [← UInt32.toBitVec_inj,h]
  cases crc.toBitVec.getLsbD 0 with
  | false => decide
  | true => decide

theorem crcBit_toBitVec (crc : UInt32) :
    (crcBit crc).toBitVec = divideBit 0x82F63B78 crc.toBitVec := by
  unfold crcBit divideBit
  by_cases h : crc &&& 1 = 1
  · rw [if_pos h,if_pos ((lowBit_iff crc).mp h)]
    rfl
  · rw [if_neg h,if_neg fun hb => h ((lowBit_iff crc).mpr hb)]
    rfl

theorem crcBit_injective : Function.Injective crcBit := by
  intro a b h
  have hb := congrArg UInt32.toBitVec h
  rw [crcBit_toBitVec,crcBit_toBitVec] at hb
  exact UInt32.toBitVec_inj.mp (divideBit_injective (by decide) hb)

theorem eight_bits_injective :
    Function.Injective fun crc => (List.range 8).foldl (fun crc _ => crcBit crc) crc :=
  foldl_injective (fun _ => crcBit_injective) (List.range 8)

theorem crcByte_state_injective (b : UInt8) : Function.Injective fun crc => crcByte crc b := by
  intro x y h
  exact (UInt32.xor_left_inj b.toUInt32).mp (eight_bits_injective h)

theorem crcByte_injective (crc : UInt32) : Function.Injective (crcByte crc) := by
  intro x y h
  exact UInt8.toUInt32_inj.mp ((UInt32.xor_right_inj crc).mp (eight_bits_injective h))

/-- A changed byte changes the checksum. -/
theorem crc32c_set_ne {bs : Bytes} {i : ℕ} {x y : UInt8} (hy : bs[i]? = some y) (hne : x ≠ y) :
    crc32c (bs.set i x) ≠ crc32c bs := by
  intro h
  exact foldl_set_ne crcByte_state_injective crcByte_injective hy hne 0xFFFFFFFF
    ((UInt32.xor_left_inj 0xFFFFFFFF).mp h)

/-- A changed byte changes the number. -/
theorem uint_set_ne {bs : Bytes} {i : ℕ} {x y : UInt8} (hy : bs[i]? = some y) (hne : x ≠ y) :
    uint (bs.set i x) ≠ uint bs := by
  refine foldl_set_ne (fun b s t h => ?_) (fun s a b h => ?_) hy hne 0
  · simp only at h
    omega
  · apply UInt8.toNat_inj.mp
    omega

/-! ## Windows of a changed string -/

section Windows
variable {bs : Bytes} {i : ℕ} {x : UInt8} {start len : ℕ}

theorem window_set_before (h : i < start) :
    window (bs.set i x) start len = window bs start len := by
  rw [window,List.drop_set,if_pos h]
  rfl

theorem window_set (h : start ≤ i) :
    window (bs.set i x) start len = (window bs start len).set (i-start) x := by
  rw [window,List.drop_set,if_neg (by omega),List.take_set]
  rfl

theorem window_set_behind (h : start+len ≤ i) :
    window (bs.set i x) start len = window bs start len := by
  rw [window_set (by omega)]
  apply List.set_eq_of_length_le
  rw [window_length]
  omega

theorem window_getElem? {y : UInt8} (hy : bs[i]? = some y) (h : start ≤ i) (hl : i < start+len) :
    (window bs start len)[i-start]? = some y := by
  rw [window,List.getElem?_take_of_lt (by omega),List.getElem?_drop,Nat.add_sub_cancel' h,hy]

end Windows

/-- A batch with a sound header and another checksum than it tells. -/
theorem validateRecordBatch_mismatch {batch : Bytes} (header : rbMinBytes ≤ batch.length)
    (magic : window batch rbOffsetMagic 1 = [2])
    (checked : rbOffsetCRCBody ≤ uintAt 4 batch rbOffsetLength+12)
    (present : uintAt 4 batch rbOffsetLength+12 ≤ batch.length)
    (hne : UInt32.ofNat (uintAt 4 batch rbOffsetCRC) ≠ crc32c (window batch rbOffsetCRCBody
      (uintAt 4 batch rbOffsetLength+12-rbOffsetCRCBody))) :
    validateRecordBatch batch =
      some (.error (.wrap "%w: stored=0x%08x computed=0x%08x" ErrCRCMismatch)) := by
  rw [validateRecordBatch,if_neg (not_lt.mpr header),if_neg (not_not.mpr magic)]
  simp only
  rw [if_neg (not_lt.mpr present),if_neg (not_lt.mpr checked),if_pos hne]

/-- The stored value is read off four bytes, so none of its bits gets lost. -/
theorem stored_ne {bs : Bytes} {i : ℕ} {x y : UInt8} (hy : bs[i]? = some y) (hne : x ≠ y)
    (h : rbOffsetCRC ≤ i) (hl : i < rbOffsetCRC+4) :
    UInt32.ofNat (uintAt 4 (bs.set i x) rbOffsetCRC) ≠ UInt32.ofNat (uintAt 4 bs rbOffsetCRC) := by
  have hsmall (b : Bytes) : uintAt 4 b rbOffsetCRC < 2^32 := by
    have hlen : (window b rbOffsetCRC 4).length ≤ 4 := by
      rw [window_length]
      exact min_le_left _ _
    exact lt_of_lt_of_le (uint_lt _) (Nat.pow_le_pow_right (by decide : 0 < 256) hlen)
  intro hq
  have hnat := congrArg UInt32.toNat hq
  rw [UInt32.toNat_ofNat_of_lt' (hsmall _),UInt32.toNat_ofNat_of_lt' (hsmall _),uintAt,
    window_set h] at hnat
  exact uint_set_ne (window_getElem? hy h hl) hne hnat

/-- Whatever byte from the checksum on is changed, an accepted batch is refused. -/
theorem corruption_detected (batch : Bytes) (count : Int32)
    (h : validateRecordBatch batch = some (.ok count)) (i : ℕ) (hi : 17 ≤ i)
    (hl : i < uintAt 4 batch rbOffsetLength+12) (x : UInt8) (hx : batch[i]? ≠ some x) :
    validateRecordBatch (batch.set i x) =
      some (.error (.wrap "%w: stored=0x%08x computed=0x%08x" ErrCRCMismatch)) := by
  obtain ⟨header,magic,checked,present,checksum⟩ := validateRecordBatch_verified h
  have hy : batch[i]? = some batch[i] := List.getElem?_eq_getElem (by omega)
  have hne : x ≠ batch[i] := fun hq => hx (by rw [hy,hq])
  have hlength : uintAt 4 (batch.set i x) rbOffsetLength = uintAt 4 batch rbOffsetLength := by
    rw [uintAt,window_set_behind (by rw [rbOffsetLength]; omega)]
    rfl
  apply validateRecordBatch_mismatch
  · rwa [List.length_set]
  · rwa [window_set_behind (by rw [rbOffsetMagic]; omega)]
  · rwa [hlength]
  · rwa [hlength,List.length_set]
  · rw [hlength]
    rcases Nat.lt_or_ge i rbOffsetCRCBody with hfield|hbody
    · rw [window_set_before hfield,← checksum]
      exact stored_ne hy hne hi hfield
    · have hstored : uintAt 4 (batch.set i x) rbOffsetCRC = uintAt 4 batch rbOffsetCRC := by
        rw [uintAt,window_set_behind hbody]
        rfl
      rw [hstored,checksum,window_set hbody]
      exact (crc32c_set_ne (window_getElem? hy hbody (by omega)) hne).symm

/-- The last byte of a batch. -/
theorem last_byte_detected : validateRecordBatch (oneRecord.set 60 7) =
    some (.error (.wrap "%w: stored=0x%08x computed=0x%08x" ErrCRCMismatch)) :=
  corruption_detected oneRecord 1 (by decide +kernel) 60 (by decide) (by decide +kernel) 7
    (by decide +kernel)

end Kage.BatchChecksums
