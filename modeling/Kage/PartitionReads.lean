import Kage.PartitionRuns

/-!
# What a read of a partition answers

A read should refuse an offset at or behind the end of the log, then a size that
is not positive, and otherwise serve the bytes from the offset on, cut at the
size and at the end of the log. `Characterised` states this about the unsigned
offset that the caller passes. The code compares the offset as a signed number,
so the upper half of the unsigned range lies in front of every log instead of
behind it.
-/
namespace Kage.PartitionReads
open ByteStrings LengthPrefixed FaultyDisk SparseIndex SegmentLog PartitionLog

/-- A reader delivers these bytes and nothing behind them. -/
def Yields (r : SectionReader) (d : Disk) (b : Bytes) : Prop :=
  ∀ m, (r.readFull m d).1 =
    if m ≤ b.length then .ok (b.take m) else
    if b = [] then .error .eof else .error .unexpectedEOF

/-- What a read at an offset should answer and leave on the disk. -/
structure Characterised (log : Bytes) (o : UInt64) (n : Int32)
    (out : Except Err (SectionReader × Int32)) (d : Disk) : Prop where
  invalidOffset : out = .error ErrInvalidOffset ↔ log.length ≤ o.toNat
  invalidSize : o.toNat < log.length → (out = .error ErrInvalidSize ↔ n ≤ 0)
  served : o.toNat < log.length → 0 < n → ∃ r k, out = .ok (r,k) ∧
    k.toInt = min n.toInt ((log.length-o.toNat : ℕ) : ℤ) ∧
      Yields r d (window log o.toNat k.toInt.toNat)

theorem errInvalidSize_ne : ErrInvalidSize ≠ ErrInvalidOffset := by decide

section Ranges
variable {len : ℕ} {o : UInt64} {n : Int32}

theorem signed_of_lt (h : o.toNat < 2^63) : o.toInt64.toInt = o.toNat := by
  rw [← toInt64_ofNat h,UInt64.ofNat_toNat]

theorem signed_of_ge (h : 2^63 ≤ o.toNat) : o.toInt64.toInt < 0 := by
  have hlt := o.toNat_lt
  have hb : o.toInt64.toInt = o.toBitVec.toInt := rfl
  rw [hb,BitVec.toInt_eq_toNat_cond]
  have ht : o.toBitVec.toNat = o.toNat := rfl
  rw [ht]
  split <;> omega

theorem readRange_of_ge (hlen : len < 2^63) (ho : o.toNat < 2^63) (h : len ≤ o.toNat) :
    readRange (Int64.ofNat len) o n = .error ErrInvalidOffset := by
  have hs := signed_of_lt ho
  have hl := Int64.toInt_ofNat_of_lt hlen
  rw [readRange,if_pos]
  rw [ge_iff_le,Int64.le_iff_toInt_le]
  omega

theorem readRange_nonpos (hlen : len < 2^63) (h : o.toNat < len) (hn : n ≤ 0) :
    readRange (Int64.ofNat len) o n = .error ErrInvalidSize := by
  have hs := signed_of_lt (show o.toNat < 2^63 by omega)
  have hl := Int64.toInt_ofNat_of_lt hlen
  have ha := available_toInt hlen (o := o) (by omega) (by omega)
  have hcap := capped_toInt (a := Int64.ofNat len-o.toInt64) (by omega) n
  have hz : (0 : Int32).toInt = 0 := rfl
  rw [Int32.le_iff_toInt_le] at hn
  rw [readRange,if_neg (by rw [ge_iff_le,Int64.le_iff_toInt_le]; omega)]
  refine if_pos ?_
  rw [Int32.le_iff_toInt_le,hcap]
  omega

/-- An offset that is negative as a signed number is never out of range. -/
theorem readRange_negative (hlen : len < 2^63) (ho : o.toInt64.toInt < 0) :
    readRange (Int64.ofNat len) o n ≠ .error ErrInvalidOffset := by
  have hl := Int64.toInt_ofNat_of_lt hlen
  have hne : (Except.error ErrInvalidSize : Except Err Int32) ≠ .error ErrInvalidOffset :=
    fun hx => errInvalidSize_ne (Except.error.inj hx)
  rw [readRange,if_neg (by rw [ge_iff_le,Int64.le_iff_toInt_le]; omega)]
  simp only
  generalize (if n.toInt64 > Int64.ofNat len-o.toInt64 then
    (Int64.ofNat len-o.toInt64).toInt32 else n) = m
  split
  · exact hne
  · split
    · exact hne
    · intro hx
      cases hx

end Ranges

section Reads
variable {ps : PartitionStore} {d : Disk} {log : Bytes}

/-- A section of a file that holds all of it delivers it. -/
theorem yields_section {f : File} (hd : d.Healthy) (hf : f.closed = false)
    (hc : d.content f.path = log) {off k : ℕ} (hk : 0 < k) (hl : off+k ≤ log.length) :
    Yields ⟨f,off,off+(k : ℤ)⟩ d (window log off k) := by
  intro m
  have hw : (window log off k).length = k := window_length_of_le hl
  have hne : window log off k ≠ [] := by
    intro h0
    rw [h0,List.length_nil] at hw
    omega
  rw [hw,if_neg hne]
  by_cases hm : m ≤ k
  · rw [if_pos hm,SectionReader.readFull_ok hd hf off m (by omega) (by rw [hc]; omega),hc,window,
      window,List.take_take,Nat.min_eq_left hm]
  · rw [if_neg hm,SectionReader.readFull_healthy hd hf,if_neg (by omega),if_neg (by omega),
      if_neg (by omega),hc]
    have hmin : min m ((off : ℤ)+k-off).toNat = k := by omega
    simp only [Int.toNat_natCast,hmin,hw]
    rw [if_neg (by omega),if_neg hne]

theorem read_of_error {o : UInt64} {n : Int32} {e : Err} (h : ps.active.Holds d log)
    (hr : readRange (Int64.ofNat log.length) o n = .error e) :
    ps.read o n d = (.error e,ps,d) := by
  rw [PartitionStore.read_eq,size_of_holds h,hr]

theorem characterised_of_lt (h : ps.active.Holds d log) (hl : log.length < 2^63) {o : UInt64}
    (ho : o.toNat < 2^63) (n : Int32) :
    Characterised log o n (ps.read o n d).1 (ps.read o n d).2.2 := by
  have hz : (0 : Int32).toInt = 0 := rfl
  rcases le_or_gt log.length o.toNat with hge|hlt
  · rw [read_of_error h (readRange_of_ge hl ho hge)]
    exact ⟨iff_of_true rfl hge,fun hx => absurd hx (not_lt.mpr hge),
      fun hx => absurd hx (not_lt.mpr hge)⟩
  · by_cases hn : n ≤ 0
    · rw [read_of_error h (readRange_nonpos hl hlt hn)]
      refine ⟨iff_of_false (fun hx => ?_) (not_le.mpr hlt),fun _ => iff_of_true rfl hn,
        fun _ hp => absurd hn (Int32.not_le.mpr hp)⟩
      exact errInvalidSize_ne (Except.error.inj hx)
    · have hpos : 0 < n.toInt := by
        rw [Int32.le_iff_toInt_le] at hn
        omega
      obtain ⟨k,hk,hread⟩ := read_of_holds h hl o.toNat hlt n hpos
      rw [UInt64.ofNat_toNat] at hread
      rw [hread]
      have hkn : ((k.toInt.toNat : ℕ) : ℤ) = k.toInt := Int.toNat_of_nonneg (by omega)
      refine ⟨iff_of_false (fun hx => ?_) (not_le.mpr hlt),
        fun _ => iff_of_false (fun hx => ?_) hn,fun _ _ => ⟨_,k,rfl,hk,?_⟩⟩
      · cases hx
      · cases hx
      · rw [← hkn]
        exact yields_section h.of_flush.healthy h.opened h.flushed (by omega) (by omega)

/-- A read answers as it should exactly for the offsets below `2^63`. -/
theorem read_characterised_iff (h : ps.active.Holds d log) (hl : log.length < 2^63) (o : UInt64)
    (n : Int32) : Characterised log o n (ps.read o n d).1 (ps.read o n d).2.2 ↔
      o.toNat < 2^63 := by
  refine ⟨fun hc => ?_,fun ho => characterised_of_lt h hl ho n⟩
  by_contra ho
  have hx := hc.invalidOffset.mpr (by omega)
  have hr := readRange_negative hl (n := n) (signed_of_ge (not_lt.mp ho))
  rw [PartitionStore.read_eq,size_of_holds h] at hx
  cases hk : readRange (Int64.ofNat log.length) o n with
  | error e =>
      rw [hk] at hx
      cases hx
      exact hr hk
  | ok k =>
      rw [hk,h.flush_eq] at hx
      cases hx

end Reads

/-- A record of two bytes, read from its start with a larger limit. -/
theorem read_characterised_first_record : ∃ (ps : PartitionStore) (d : Disk),
    ps.active.Holds d (frames [ascii "ab"]) ∧
      Characterised (frames [ascii "ab"]) 0 100 (ps.read 0 100 d).1 (ps.read 0 100 d).2.2 := by
  obtain ⟨ps,d,r,h,-,hr⟩ := exists_follows [] ⟨0⟩ [ascii "ab"] (by decide +kernel)
  have hh := h.holds
  rw [hr] at hh
  exact ⟨ps,d,hh,(read_characterised_iff hh (by decide +kernel) 0 100).mpr (by decide)⟩

/-- What a read answers after payloads were appended to a new partition, and the
bytes that the log then has. -/
def readAfter (payloads : List Bytes) (o : UInt64) (n : Int32) :
    Option (ℕ × Except Err (SectionReader × Int32)) :=
  match openPartitionStore [] ⟨0⟩ .blank with
  | (.error _,_) => none
  | (.ok ps,d) =>
      match PartitionRuns.appends ps d payloads with
      | (_,ps,d) => some ((ps.active.bytes d).length,(ps.read o n d).1)

/-- Six bytes are stored and an offset of `2^63` is served: the reader starts at
a negative position and covers as many bytes as the log has. -/
theorem offset_behind_log_served : readAfter [ascii "ab"] 0x8000000000000000 100 =
    some (6,.ok (⟨⟨logPath [] 0,false⟩,-2^63,-2^63+6⟩,6)) := by
  decide +kernel

end Kage.PartitionReads
