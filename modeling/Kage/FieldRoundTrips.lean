import Kage.ParsedBytes
import Kage.ResponseEncoders

/-!
# Fields that are read back

What the encoder writes for a field, the decoder reads back, and leaves alone
what follows. The counts and lengths have to be in the range of their integers.
A list is read back because its elements are.
-/
namespace Kage.FieldRoundTrips
open ByteStrings FaultyDisk StreamParsers ParsedBytes OffsetRecords RequestParsers ResponseEncoders

def writeBool (value : Bool) : Bytes := writeInt8 (if value then 1 else 0)

theorem toInt8_writeInt8 (v : Int8) : toInt8 (writeInt8 v) = v := by
  have h : v.toUInt8.toNat < 256^1 := v.toUInt8.toNat_lt
  rw [toInt8,writeInt8,uint_putUint_of_lt h,UInt8.ofNat_toNat,Int8.toInt8_toUInt8]

theorem toInt16_writeInt16 (v : Int16) : toInt16 (writeInt16 v) = v := by
  have h : v.toUInt16.toNat < 256^2 := v.toUInt16.toNat_lt
  rw [toInt16,writeInt16,uint_putUint_of_lt h,UInt16.ofNat_toNat,Int16.toInt16_toUInt16]

theorem toInt32_writeInt32 (v : Int32) : toInt32 (writeInt32 v) = v := by
  have h : v.toUInt32.toNat < 256^4 := v.toUInt32.toNat_lt
  rw [toInt32,writeInt32,uint_putUint_of_lt h,UInt32.ofNat_toNat,Int32.toInt32_toUInt32]

theorem toInt64_writeInt64 (v : Int64) : toInt64 (writeInt64 v) = v := by
  have h : v.toUInt64.toNat < 256^8 := v.toUInt64.toNat_lt
  rw [toInt64,writeInt64,uint_putUint_of_lt h,UInt64.ofNat_toNat,Int64.toInt64_toUInt64]

/-- A number of fixed width. -/
theorem returns_number {α : Type} {number : Bytes → α} {w : ℕ} {b : Bytes} {v : α}
    (hl : b.length = w) (hv : number b = v) :
    Returns (Parser.readFull w >>= fun b => Pure.pure (number b.1)) b v := by
  rw [← hv]
  exact (Returns.readFull hl).map fun b => number b.1

theorem returns_readInt8 (v : Int8) : Returns readInt8 (writeInt8 v) v :=
  returns_number (putUint_length 1 _) (toInt8_writeInt8 v)

theorem returns_readInt16 (v : Int16) : Returns readInt16 (writeInt16 v) v :=
  returns_number (putUint_length 2 _) (toInt16_writeInt16 v)

theorem returns_readInt32 (v : Int32) : Returns readInt32 (writeInt32 v) v :=
  returns_number (putUint_length 4 _) (toInt32_writeInt32 v)

theorem returns_readInt64 (v : Int64) : Returns readInt64 (writeInt64 v) v :=
  returns_number (putUint_length 8 _) (toInt64_writeInt64 v)

theorem returns_readBool (v : Bool) : Returns readBool (writeBool v) v := by
  have h := (returns_readInt8 (if v then 1 else 0)).map fun value => value != 0
  cases v <;> exact h

theorem returns_readString (s : WireString) : Returns readString (writeString s.1) s := by
  have hn : (Int16.ofNat s.1.length).toInt = s.1.length := Int16.toInt_ofNat_of_lt s.2
  apply (returns_readInt16 _).bind
  split
  next hz =>
    have h0 : s.1.length = 0 := by
      have := Int16.le_iff_toInt_le.mp hz
      have hzero : (0 : Int16).toInt = 0 := rfl
      omega
    have hs : s = emptyString := Subtype.ext (List.length_eq_zero_iff.mp h0)
    rw [hs]
    exact Returns.pure emptyString
  next hz =>
    have hl : s.1.length = (Int16.ofNat s.1.length).toInt.toNat := by omega
    exact (Returns.readFull hl).map _

/-- A missing string is read as an empty one. -/
theorem returns_nullableString (s : Option WireString) :
    Returns readString (writeNullableString (s.map Subtype.val)) (s.getD emptyString) := by
  cases s with
  | none => exact fun rest => bind_ok (returns_readInt16 (-1) rest)
  | some s => exact returns_readString s

theorem returns_readBytes {b : Bytes} (h : b.length < 2^31) :
    Returns (readBytes (Int32.ofNat b.length).toInt) b b := by
  rw [Int32.toInt_ofNat_of_lt h,readBytes]
  split
  · rename_i h0
    obtain rfl : b = [] := List.length_eq_zero_iff.mp (by omega)
    exact Returns.pure []
  · exact (Returns.readFull (n := (b.length : ℤ).toNat) rfl).map fun b => b.1

theorem returns_readBlock {b : Bytes} (h : b.length < 2^31) (lengthText dataText : String) :
    Returns (readBlock lengthText dataText) (writeBlock b) b := by
  refine ((returns_readInt32 _).context _).bind ?_
  split
  · exact (returns_readBytes h).context _
  · rename_i h0
    have hn := toNat_of_nonpos32 h0
    rw [Int32.toInt_ofNat_of_lt h] at hn
    obtain rfl : b = [] := List.length_eq_zero_iff.mp (by omega)
    exact Returns.pure []

section Arrays
variable {α γ : Type} {p : Parser α} {write : γ → Bytes} {value : γ → α} {cs : List γ}

theorem returns_readArray (hl : cs.length < 2^31)
    (h : ∀ c ∈ cs, Returns p (write c) (value c)) (countText : String) :
    Returns (readArray countText p) (writeArray write cs) (cs.map value) := by
  have hn := Int32.toInt_ofNat_of_lt hl
  have h0 : ¬Int32.ofNat cs.length < 0 := by
    have hz : (0 : Int32).toInt = 0 := rfl
    rw [Int32.lt_iff_toInt_lt,hn]
    omega
  refine ((returns_readInt32 _).context _).bind ?_
  rw [if_neg h0,hn]
  exact Returns.times h

/-- Every element is read back as itself. -/
theorem returns_array {p : Parser γ} (hl : cs.length < 2^31)
    (h : ∀ c ∈ cs, Returns p (write c) c) (countText : String) :
    Returns (readArray countText p) (writeArray write cs) cs := by
  have hr := returns_readArray hl h countText
  rwa [List.map_id'] at hr

theorem returns_readCheckedArray {p : Parser γ} (hl : cs.length ≤ 1024)
    (h : ∀ c ∈ cs, Returns p (write c) c) (countText invalidText : String) :
    Returns (readCheckedArray countText invalidText p) (writeArray write cs) cs := by
  have hn := Int32.toInt_ofNat_of_lt (show cs.length < 2^31 by omega)
  have h0 : ¬(Int32.ofNat cs.length < 0 ∨ Int32.ofNat cs.length > 1024) := by
    have hz : (0 : Int32).toInt = 0 := rfl
    have hc : (1024 : Int32).toInt = 1024 := rfl
    rw [gt_iff_lt,Int32.lt_iff_toInt_lt,Int32.lt_iff_toInt_lt,hn,hc]
    omega
  refine ((returns_readInt32 _).context _).bind ?_
  rw [if_neg h0,hn]
  have ht := Returns.times h
  rwa [List.map_id'] at ht

end Arrays

end Kage.FieldRoundTrips
