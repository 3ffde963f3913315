import Kage.ByteStrings
import Mathlib.Tactic.IntervalCases

/-!
# Decimal text

Numbers are rendered in base ten without leading zeros, then optionally padded
with zeros to a minimum width. Padding never truncates, so the rendering stays
injective for numbers wider than the field; the value read back is the inverse
used to show it.
-/
namespace Kage.DecimalText
open ByteStrings

/-- The digits of `n`, as `%d` prints them. -/
def decimal (n : ℕ) : Bytes := (Nat.toDigits 10 n).map fun c => UInt8.ofNat c.toNat

/-- As `%0wd` prints an unsigned number. -/
def zeroPadded (w n : ℕ) : Bytes :=
  List.replicate (w-(decimal n).length) 48++decimal n

/-- As `%d` prints a signed number. -/
def signedDecimal (n : ℤ) : Bytes :=
  if n < 0 then 45::decimal n.natAbs else decimal n.natAbs

/-- Value of a digit string. -/
def spell (bs : Bytes) (a : ℕ) : ℕ := bs.foldl (fun a b => 10*a+(b.toNat-48)) a

theorem spell_append (as bs : Bytes) (a : ℕ) : spell (as++bs) a = spell bs (spell as a) := by
  simp [spell]

theorem spell_zeros (k : ℕ) : spell (List.replicate k 48) 0 = 0 := by
  induction k with
  | zero => rfl
  | succ k ih => simpa [List.replicate_succ,spell] using ih

theorem digit_byte {d : ℕ} (h : d < 10) : (UInt8.ofNat (Nat.digitChar d).toNat).toNat-48 = d := by
  interval_cases d <;> rfl

theorem spell_decimal (n : ℕ) : spell (decimal n) 0 = n := by
  induction n using Nat.strongRecOn with
  | ind n ih =>
      unfold decimal
      rw [Nat.toDigits_eq_if (by decide)]
      split
      · rename_i h
        simp only [List.map_cons,List.map_nil,spell,List.foldl_cons,List.foldl_nil,digit_byte h]
        omega
      · rename_i h
        have hd := ih (n/10) (Nat.div_lt_self (by omega) (by decide))
        have hm := digit_byte (Nat.mod_lt n (show 0 < 10 by decide))
        rw [List.map_append,spell_append]
        unfold decimal at hd
        rw [hd]
        simp only [List.map_cons,List.map_nil,spell,List.foldl_cons,List.foldl_nil,hm]
        omega

theorem spell_zeroPadded (w n : ℕ) : spell (zeroPadded w n) 0 = n := by
  rw [zeroPadded,spell_append,spell_zeros,spell_decimal]

theorem zeroPadded_injective (w : ℕ) : Function.Injective (zeroPadded w) := by
  intro m n h
  rw [← spell_zeroPadded w m,← spell_zeroPadded w n,h]

end Kage.DecimalText
