import Kage.ConsumerWalk
import Kage.FetchBudgets

/-!
# The logical offsets of stored batches

A fetched batch covers the offsets from its base offset up to the base plus its
last offset delta. The broker chooses the base so that the offset behind the
last one is where the next record begins. The range of a batch therefore always
ends in front of the next record, but how far back it begins is the producer's
choice: a batch with more offsets than its record has bytes begins in front of
its own record.
-/
namespace Kage.LogicalOffsets
open ByteStrings LengthPrefixed FaultyDisk PartitionLog BrokerStores RecordBatches FetchHandler
open SegmentLog FetchServing ConsumerWalk FetchBudgets

def baseOffset (batch : Bytes) : Int64 := (UInt64.ofNat (uintAt 8 batch rbBaseOffset)).toInt64

def lastOffsetDelta (batch : Bytes) : Int32 :=
  (UInt32.ofNat (uintAt 4 batch rbLastOffsetDelta)).toInt32

/-- Where a record begins. -/
def start (batches : List Bytes) (i : ℕ) : ℕ := (frames (batches.take i)).length

/-- A record that the validator accepted and that holds one batch. -/
def SingleBatch (b : Bytes) : Prop :=
  (∃ n, validateRecordBatch b = some (.ok n)) ∧ b.length = 12+uintAt 4 b rbOffsetLength

/-- The base offset in the answer to a fetch at this position whose limits cover
the whole batch there. -/
def FetchedWhole (topic : Bytes) (partition : Int32) (bs : BrokerStore) (d : Disk)
    (position length : ℕ) (base : Int64) : Prop :=
  ∃ (maxBytes remaining : Int32) (p : Bytes), (length : ℤ) ≤ min remaining.toInt maxBytes.toInt ∧
    (fetchPartition topic ⟨partition,Int64.ofNat position,maxBytes⟩ remaining bs d).1.recordBatch =
      some p ∧ base = baseOffset (firstBatch p)

theorem SingleBatch.complete {b : Bytes} (h : SingleBatch b) : Complete b := by
  obtain ⟨⟨n,hn⟩,hl⟩ := h
  refine ⟨hl,?_⟩
  by_contra hx
  rw [validateRecordBatch,if_pos (not_le.mp hx)] at hn
  cases hn

theorem start_succ {batches : List Bytes} {i : ℕ} {b : Bytes} (h : batches[i]? = some b) :
    start batches (i+1) = start batches i+(4+b.length) := by
  rw [start,start,List.take_add_one,h,Option.toList_some,frames_append,List.length_append]
  simp

/-- A sum below `2^63` whose second part is not negative has not wrapped. -/
theorem toInt_of_add {x y : Int64} {n : ℕ} (h : x+y+1 = Int64.ofNat n) (hy : 0 ≤ y.toInt)
    (hn : n < 2^63) : x.toInt+y.toInt+1 = n := by
  have hx : x = Int64.ofNat n-y-1 := by grind
  have hlt := y.toInt_lt
  have h1 : (1 : Int64).toInt = 1 := rfl
  have hsub : (Int64.ofNat n-y).toInt = n-y.toInt := by
    rw [Int64.toInt_sub,Int64.toInt_ofNat_of_lt hn,Int.bmod_eq_of_le (by omega) (by omega)]
  rw [hx,Int64.toInt_sub,hsub,h1,Int.bmod_eq_of_le (by omega) (by omega)]
  omega

section Ranges
variable {bs bs' : BrokerStore} {topic : Bytes} {partition : Int32} {ps : PartitionStore}
variable {d d' : Disk} {batches : List Bytes}

/-- The offset behind the range of a fetched batch is where the next record
begins. -/
theorem FetchedWhole.range_end
    (hg : bs.getOrCreatePartition topic partition d = (.ok ps,bs',d'))
    (h : ps.active.Holds d' (frames batches)) (hl : (frames batches).length < 2^63) {i : ℕ}
    {b : Bytes} (hi : batches[i]? = some b) (hc : Complete b)
    (h0 : 0 ≤ (lastOffsetDelta b).toInt) {base : Int64}
    (hb : FetchedWhole topic partition bs d (start batches i) b.length base) :
    base.toInt+(lastOffsetDelta b).toInt+1 = start batches i+(4+b.length) := by
  obtain ⟨maxBytes,remaining,p,hcover,hp,rfl⟩ := hb
  have hlog := frames_split hi
  have hlen : (frames batches).length = start batches i+(4+b.length+
      (frames (batches.drop (i+1))).length) := by
    rw [hlog,List.length_append,List.length_append,frame_length,start]
  have hpos : 61 ≤ b.length := hc.header
  rcases le_or_gt (min remaining.toInt maxBytes.toInt) (2^31-5) with hle|hgt
  · have hpatch : p = patch (UInt64.ofNat (start batches i)) ((b++frames (batches.drop (i+1))).take
        (min remaining.toInt maxBytes.toInt).toNat) := by
      rw [fetchPartition_holds ⟨partition,Int64.ofNat (start batches i),maxBytes⟩ remaining hg h
        hlog hl rfl (show 0 < min remaining.toInt maxBytes.toInt by omega) hle rfl] at hp
      exact (Option.some.inj hp).symm
    rw [List.take_append,List.take_of_length_le
      (show b.length ≤ (min remaining.toInt maxBytes.toInt).toNat by omega)] at hpatch
    rw [hpatch]
    obtain ⟨hsame,hnext⟩ := firstBatch_patch hc ((frames (batches.drop (i+1))).take
      ((min remaining.toInt maxBytes.toInt).toNat-b.length)) (UInt64.ofNat (start batches i))
    generalize firstBatch (patch _ _) = q at hsame hnext
    have hdelta : lastOffsetDelta q = lastOffsetDelta b := by
      rw [lastOffsetDelta,lastOffsetDelta,uintAt_of_drop hsame.2 (by decide)]
    have hq : baseOffset q+(lastOffsetDelta b).toInt64+1 =
        Int64.ofNat (start batches i+(4+b.length)) := by
      rw [← hdelta,← add_assoc]
      refine hnext.trans ?_
      have h4 : (4 : UInt64) = UInt64.ofNat 4 := rfl
      rw [h4,← UInt64.ofNat_add,← UInt64.ofNat_add,UInt64.toInt64_ofNat']
    have hdiff := toInt_of_add hq (by rw [Int32.toInt_toInt64]; exact h0) (by omega)
    rw [Int32.toInt_toInt64] at hdiff
    omega
  · have hf := fetchPartition_overflow ⟨partition,Int64.ofNat (start batches i),maxBytes⟩ hg h hl
      (start batches i) (by omega) rfl hgt
    rw [hf] at hp
    cases hp

/-- A batch that the limits can cover can be fetched whole. -/
theorem exists_fetchedWhole (hg : bs.getOrCreatePartition topic partition d = (.ok ps,bs',d'))
    (h : ps.active.Holds d' (frames batches)) (hl : (frames batches).length < 2^63) {i : ℕ}
    {b : Bytes} (hi : batches[i]? = some b) (hpos : 0 < b.length) (hmax : b.length ≤ 2^31-5) :
    ∃ base, FetchedWhole topic partition bs d (start batches i) b.length base := by
  have hz := Int32.toInt_ofNat_of_lt (n := b.length) (by omega)
  have hf := fetchPartition_holds
    ⟨partition,Int64.ofNat (start batches i),Int32.ofNat b.length⟩ (Int32.ofNat b.length) hg h
    (frames_split hi) hl rfl (by rw [min_self,hz]; omega) (by rw [min_self,hz]; omega) rfl
  exact ⟨_,Int32.ofNat b.length,Int32.ofNat b.length,_,by rw [min_self,hz],by rw [hf],rfl⟩

/-- The ranges of the records of a segment begin at or behind the records and
follow each other without overlap exactly when no last offset delta is larger
than the length of its batch plus three. -/
theorem offset_ranges_iff (hg : bs.getOrCreatePartition topic partition d = (.ok ps,bs',d'))
    (h : ps.active.Holds d' (frames batches)) (hl : (frames batches).length < 2^63)
    (hs : ∀ b ∈ batches, SingleBatch b) (h0 : ∀ b ∈ batches, 0 ≤ (lastOffsetDelta b).toInt)
    (bases : ℕ → Int64) (hb : ∀ i b, batches[i]? = some b →
      FetchedWhole topic partition bs d (start batches i) b.length (bases i)) :
    (∀ i b, batches[i]? = some b → (start batches i : ℤ) ≤ (bases i).toInt ∧
      (i+1 < batches.length →
        (bases i).toInt+(lastOffsetDelta b).toInt < (bases (i+1)).toInt)) ↔
      ∀ b ∈ batches, (lastOffsetDelta b).toInt ≤ b.length+3 := by
  have hend : ∀ i b, batches[i]? = some b →
      (bases i).toInt+(lastOffsetDelta b).toInt+1 = start batches i+(4+b.length) := by
    intro i b hi
    have hm := List.mem_of_getElem? hi
    exact (hb i b hi).range_end hg h hl hi (hs b hm).complete (h0 b hm)
  constructor
  · intro hr b hm
    obtain ⟨i,hi⟩ := List.getElem?_of_mem hm
    have hbase := (hr i b hi).1
    have := hend i b hi
    omega
  · intro hd
    have hbase : ∀ i b, batches[i]? = some b → (start batches i : ℤ) ≤ (bases i).toInt := by
      intro i b hi
      have hle := hd b (List.mem_of_getElem? hi)
      have := hend i b hi
      omega
    intro i b hi
    refine ⟨hbase i b hi,fun hlt => ?_⟩
    have hnext := hbase (i+1) _ (List.getElem?_eq_getElem hlt)
    rw [start_succ hi] at hnext
    have := hend i b hi
    push_cast at hnext
    omega

end Ranges

/-- Two batches of one record each. -/
theorem offset_ranges_two_batches : ∃ bs d, ∃ bases : ℕ → Int64,
    (∀ i b, [oneRecord,oneRecord][i]? = some b →
      FetchedWhole (ascii "t") 0 bs d (start [oneRecord,oneRecord] i) b.length (bases i)) ∧
    ∀ i b, [oneRecord,oneRecord][i]? = some b →
      (start [oneRecord,oneRecord] i : ℤ) ≤ (bases i).toInt ∧
        (i+1 < [oneRecord,oneRecord].length →
          (bases i).toInt+(lastOffsetDelta b).toInt < (bases (i+1)).toInt) := by
  obtain ⟨ps,d,r,h,-,hr⟩ := exists_follows [] ⟨0⟩ [oneRecord,oneRecord] (by decide +kernel)
  have hh := h.holds
  rw [hr] at hh
  obtain ⟨bs,hbs⟩ : ∃ bs, bs = (BrokerStore.mk [] ⟨0⟩ ∅).put (ascii "t") 0 ps := ⟨_,rfl⟩
  have hg : bs.getOrCreatePartition (ascii "t") 0 d = (.ok ps,bs,d) := by
    rw [hbs]
    exact getOrCreatePartition_of_lookup (put_lookup _ _ _ _)
  have hl : (frames [oneRecord,oneRecord]).length < 2^63 := by decide +kernel
  have hone : ∀ b ∈ [oneRecord,oneRecord], b = oneRecord := by simp
  have hbase : ∀ i, ∃ base, ∀ b, [oneRecord,oneRecord][i]? = some b →
      FetchedWhole (ascii "t") 0 bs d (start [oneRecord,oneRecord] i) b.length base := by
    intro i
    cases hi : [oneRecord,oneRecord][i]? with
    | none => exact ⟨0,fun b hx => by cases hx⟩
    | some b =>
        obtain rfl := hone b (List.mem_of_getElem? hi)
        obtain ⟨base,hb⟩ := exists_fetchedWhole hg hh hl hi (by decide +kernel) (by decide +kernel)
        exact ⟨base,fun b hx => by cases hx; exact hb⟩
  choose bases hb using hbase
  refine ⟨bs,d,bases,hb,(offset_ranges_iff hg hh hl ?_ ?_ bases hb).mpr ?_⟩
  · intro b hm
    rw [hone b hm]
    exact ⟨⟨1,by decide +kernel⟩,by decide +kernel⟩
  · intro b hm
    rw [hone b hm]
    decide +kernel
  · intro b hm
    rw [hone b hm]
    decide +kernel

/-- A batch of sixty-one bytes that claims a thousand offsets. -/
def manyOffsets : Bytes := batchOf (putUint 2 0++(putUint 4 999++(List.replicate 33 0++[1])))

/-- It is accepted, it is one batch, and fetched whole from the start of the log
its base offset is negative. -/
theorem base_offset_negative : validateRecordBatch manyOffsets = some (.ok 1) ∧
    manyOffsets.length = 12+uintAt 4 manyOffsets rbOffsetLength ∧
      lastOffsetDelta manyOffsets = 999 ∧
        (sent [manyOffsets] ⟨0,0,61⟩ 61).map (fun p => baseOffset (firstBatch p)) =
          some (-935) := by
  decide +kernel

end Kage.LogicalOffsets
