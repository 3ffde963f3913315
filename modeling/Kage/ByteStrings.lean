import Mathlib.Data.List.Basic
import Mathlib.Data.Nat.Basic
import Mathlib.Tactic.Ring

/-!
# Byte strings and fixed-width big-endian words

A byte slice is a list of bytes. A word of `w` bytes is written most
significant byte first and truncated to `256^w`, which is what storing a wider
native integer into a fixed-width field does. Reading folds the bytes back.

`window` is the slice expression with a start and a length, and `overwrite` is
an in-place store of a short string into a longer one. Nothing here depends on
a file format: the two round-trip laws, the length laws and the fact that a
store leaves every other position alone are all a format needs.
-/
namespace Kage.ByteStrings

abbrev Bytes := List UInt8

/-- A text literal of the source as the bytes of its characters. -/
def ascii (s : String) : Bytes := s.toList.map fun c => UInt8.ofNat c.toNat

/-- The low `w` bytes of `n`, most significant first. -/
def putUint : ℕ → ℕ → Bytes
  | 0,_ => []
  | w+1,n => UInt8.ofNat (n/256^w)::putUint w n

/-- The number a big-endian string spells. -/
def uint (bs : Bytes) : ℕ := bs.foldl (fun a b => 256*a+b.toNat) 0

@[simp] theorem putUint_length (w n : ℕ) : (putUint w n).length = w := by
  induction w with
  | zero => rfl
  | succ w ih => simp [putUint,ih]

theorem foldl_uint (bs : Bytes) (a : ℕ) :
    bs.foldl (fun a b => 256*a+b.toNat) a = 256^bs.length*a+uint bs := by
  induction bs generalizing a with
  | nil => simp [uint]
  | cons b bs ih =>
      have hu : uint (b::bs) = 256^bs.length*(256*0+b.toNat)+uint bs := ih _
      rw [List.foldl_cons,ih,hu,List.length_cons]
      ring

@[simp] theorem uint_nil : uint [] = 0 := rfl

theorem uint_cons (b : UInt8) (bs : Bytes) :
    uint (b::bs) = b.toNat*256^bs.length+uint bs := by
  have h := foldl_uint bs (256*0+b.toNat)
  simp only [uint,List.foldl_cons] at h ⊢
  rw [h]
  ring

theorem uint_lt (bs : Bytes) : uint bs < 256^bs.length := by
  induction bs with
  | nil => decide
  | cons b bs ih =>
      rw [uint_cons,List.length_cons]
      calc b.toNat*256^bs.length+uint bs < b.toNat*256^bs.length+256^bs.length := by omega
        _ = (b.toNat+1)*256^bs.length := (Nat.succ_mul _ _).symm
        _ ≤ 256*256^bs.length := Nat.mul_le_mul_right _ b.toNat_lt
        _ = 256^(bs.length+1) := (pow_succ' _ _).symm

/-- Writing truncates to the field width; reading recovers the rest. -/
theorem uint_putUint (w n : ℕ) : uint (putUint w n) = n%256^w := by
  induction w with
  | zero => simp [putUint,Nat.mod_one]
  | succ w ih =>
      rw [putUint,uint_cons,ih,putUint_length,UInt8.toNat_ofNat']
      have hm : n%256^(w+1) = n%256^w+256^w*(n/256^w%256) := by
        rw [pow_succ,Nat.mod_mul]
      rw [hm]
      ring

theorem uint_putUint_of_lt {w n : ℕ} (h : n < 256^w) : uint (putUint w n) = n := by
  rw [uint_putUint,Nat.mod_eq_of_lt h]

/-- Only the low bytes of a number are written. -/
theorem putUint_mod {w k : ℕ} (h : w ≤ k) (n : ℕ) : putUint w (n%256^k) = putUint w n := by
  induction w with
  | zero => rfl
  | succ w ih =>
      have hk : 256^k = 256^w*256^(k-w) := by
        rw [← pow_add]
        congr 1
        omega
      have hd : 256 ∣ 256^(k-w) := dvd_pow_self 256 (by omega)
      have hb : UInt8.ofNat (n%256^k/256^w) = UInt8.ofNat (n/256^w) := by
        rw [hk,Nat.mod_mul_right_div_self,← UInt8.toNat_inj,UInt8.toNat_ofNat',UInt8.toNat_ofNat',
          Nat.mod_mod_of_dvd _ hd]
      rw [putUint,putUint,hb,ih (by omega)]

/-- Every string is the number it spells, written in its own length. -/
theorem putUint_uint (bs : Bytes) : putUint bs.length (uint bs) = bs := by
  induction bs with
  | nil => rfl
  | cons b bs ih =>
      have hlt := uint_lt bs
      have hpos : 0 < 256^bs.length := pow_pos (by decide) _
      have hdiv : uint (b::bs)/256^bs.length = b.toNat := by
        rw [uint_cons,Nat.add_comm,Nat.add_mul_div_right _ _ hpos,Nat.div_eq_of_lt hlt,Nat.zero_add]
      have hmod : uint (b::bs)%256^bs.length = uint bs := by
        rw [uint_cons,Nat.add_comm,Nat.add_mul_mod_self_right,Nat.mod_eq_of_lt hlt]
      rw [List.length_cons,putUint,hdiv,UInt8.ofNat_toNat,← putUint_mod le_rfl,hmod,ih]

/-- The bytes `bs[start : start+len]`, cut at the end of the string. -/
def window (bs : Bytes) (start len : ℕ) : Bytes := (bs.drop start).take len

theorem window_length (bs : Bytes) (start len : ℕ) :
    (window bs start len).length = min len (bs.length-start) := by
  simp [window]

theorem window_length_of_le {bs : Bytes} {start len : ℕ} (h : start+len ≤ bs.length) :
    (window bs start len).length = len := by
  rw [window_length]
  omega

/-- A window past the end of the first part reads only the second. -/
theorem window_append_right (as bs : Bytes) (start len : ℕ) :
    window (as++bs) (as.length+start) len = window bs start len := by
  rw [window,List.drop_append,List.drop_eq_nil_of_le (by omega),List.nil_append,
    Nat.add_sub_cancel_left]
  rfl

theorem window_append_left {as : Bytes} (bs : Bytes) {start len : ℕ}
    (h : start+len ≤ as.length) : window (as++bs) start len = window as start len := by
  unfold window
  rw [List.drop_append_of_le_length (by omega),List.take_append_of_le_length]
  rw [List.length_drop]
  omega

theorem window_drop (bs : Bytes) (start len k : ℕ) :
    (window bs start len).drop k = window bs (start+k) (len-k) := by
  rw [window,window,List.drop_take,List.drop_drop]

theorem window_take {n : ℕ} (bs : Bytes) {start len : ℕ} (h : start+len ≤ n) :
    window (bs.take n) start len = window bs start len := by
  rw [window,window,List.drop_take,List.take_take,Nat.min_eq_left (by omega)]

/-- The word of `w` bytes at a position. -/
def uintAt (w : ℕ) (bs : Bytes) (pos : ℕ) : ℕ := uint (window bs pos w)

theorem putUint_uintAt {w pos : ℕ} {bs : Bytes} (h : pos+w ≤ bs.length) :
    uintAt w bs pos < 256^w ∧ putUint w (uintAt w bs pos) = window bs pos w := by
  have hl := window_length_of_le h
  have hlt := uint_lt (window bs pos w)
  have hput := putUint_uint (window bs pos w)
  rw [hl] at hlt hput
  exact ⟨hlt,hput⟩

theorem uintAt_append_left {as : Bytes} (bs : Bytes) {w pos : ℕ} (h : pos+w ≤ as.length) :
    uintAt w (as++bs) pos = uintAt w as pos := by
  rw [uintAt,uintAt,window_append_left bs h]

/-- A word behind a part of known length. -/
theorem uintAt_skip {as : Bytes} {n : ℕ} (h : as.length = n) (w : ℕ) (bs : Bytes) (pos : ℕ) :
    uintAt w (as++bs) (n+pos) = uintAt w bs pos := by
  rw [uintAt,uintAt,← h,window_append_right]

theorem window_skip {as : Bytes} {n : ℕ} (h : as.length = n) (bs : Bytes) (pos len : ℕ) :
    window (as++bs) (n+pos) len = window bs pos len := by
  rw [← h,window_append_right]

theorem window_head {as : Bytes} {n : ℕ} (h : as.length = n) (bs : Bytes) :
    window (as++bs) 0 n = as := by
  rw [window,List.drop_zero,List.take_left' h]

theorem uintAt_putUint {w n : ℕ} (h : n < 256^w) (bs : Bytes) :
    uintAt w (putUint w n++bs) 0 = n := by
  rw [uintAt,window_head (putUint_length w n),uint_putUint_of_lt h]

theorem window_self {as : Bytes} {n : ℕ} (h : as.length = n) : window as 0 n = as := by
  rw [window,List.drop_zero,List.take_of_length_le h.le]

theorem uintAt_putUint_self {w n : ℕ} (h : n < 256^w) : uintAt w (putUint w n) 0 = n := by
  rw [uintAt,window_self (putUint_length w n),uint_putUint_of_lt h]

/-- Strings that agree from `n` on show the same windows there. -/
theorem window_of_drop {as bs : Bytes} {n : ℕ} (h : as.drop n = bs.drop n) {start : ℕ}
    (hs : n ≤ start) (len : ℕ) : window as start len = window bs start len := by
  obtain ⟨k,rfl⟩ := Nat.exists_eq_add_of_le hs
  rw [window,window,← List.drop_drop,← List.drop_drop,h]

theorem uintAt_of_drop {as bs : Bytes} {n : ℕ} (h : as.drop n = bs.drop n) {pos : ℕ}
    (hp : n ≤ pos) (w : ℕ) : uintAt w as pos = uintAt w bs pos := by
  rw [uintAt,uintAt,window_of_drop h hp]

/-- In-place store of `p` at `pos`. -/
def overwrite (bs : Bytes) (pos : ℕ) (p : Bytes) : Bytes :=
  bs.take pos++(p++bs.drop (pos+p.length))

theorem overwrite_length {bs : Bytes} {pos : ℕ} {p : Bytes}
    (h : pos+p.length ≤ bs.length) : (overwrite bs pos p).length = bs.length := by
  simp only [overwrite,List.length_append,List.length_take,List.length_drop]
  omega

/-- A store at or past the end of the first part leaves that part alone. -/
theorem overwrite_append (as bs : Bytes) (pos : ℕ) (p : Bytes) :
    overwrite (as++bs) (as.length+pos) p = as++overwrite bs pos p := by
  have ht : (as++bs).take (as.length+pos) = as++bs.take pos := List.take_length_add_append pos
  have hd : (as++bs).drop (as.length+pos+p.length) = bs.drop (pos+p.length) := by
    rw [Nat.add_assoc]
    exact List.drop_length_add_append _
  rw [overwrite,ht,hd,List.append_assoc]
  rfl

theorem overwrite_zero (bs p : Bytes) : overwrite bs 0 p = p++bs.drop p.length := by
  simp [overwrite]

end Kage.ByteStrings
