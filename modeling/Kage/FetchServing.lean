import Kage.FetchHandler
import Kage.PartitionRuns

/-!
# What a fetch puts on the wire

A fetch at the start of a record answers with the bytes from there on, behind
the first length prefix. `Serves` says what a consumer expects of them: whole
batches one after another, equal to the stored ones outside their base offsets,
and at most the last one cut. The prefixes of the records after the first one
are still in the window, so this holds only when the window ends before they
matter, or when the stored bytes happen to hide them.

The rewriting loop follows the length fields it finds. It never changes bytes
that `Serves` compares, so the condition can be read off the stored bytes.
-/
namespace Kage.FetchServing
open ByteStrings LengthPrefixed FaultyDisk PartitionLog RollingLog BrokerStores RecordBatches
open FetchHandler

/-- The stored batch up to some point, outside its base offset. -/
def Agrees (b q : Bytes) : Prop := q.length ≤ b.length ∧ q.drop 8 = (b.take q.length).drop 8

/-- What a consumer may be sent for these stored batches: some of them, from the
first one on, of which only the last may be cut. -/
inductive Serves : List Bytes → Bytes → Prop
  | nothing (bs : List Bytes) : Serves bs []
  | cut {b q : Bytes} (bs : List Bytes) : Agrees b q → Serves (b::bs) q
  | next {b q p : Bytes} {bs : List Bytes} :
      SameButBase b q → Serves bs p → Serves (b::bs) (q++p)

instance (b q : Bytes) : Decidable (Agrees b q) := inferInstanceAs (Decidable (_ ∧ _))

instance (b q : Bytes) : Decidable (SameButBase b q) := inferInstanceAs (Decidable (_ ∧ _))

section Serving
variable {b q p : Bytes} {bs : List Bytes}

theorem agrees_of_sameButBase (h : SameButBase b q) : Agrees b q := by
  refine ⟨h.1.le,?_⟩
  rw [h.1,List.take_length]
  exact h.2

theorem sameButBase_of_agrees (h : Agrees b q) (hl : q.length = b.length) : SameButBase b q := by
  refine ⟨hl,?_⟩
  have := h.2
  rwa [hl,List.take_length] at this

theorem serves_nil_iff : Serves [] p ↔ p = [] := by
  constructor
  · intro h
    cases h
    rfl
  · rintro rfl
    exact .nothing []

theorem serves_cons_iff : Serves (b::bs) p ↔
    Agrees b p ∨ (SameButBase b (p.take b.length) ∧ Serves bs (p.drop b.length)) := by
  constructor
  · intro h
    cases h with
    | nothing => exact .inl ⟨Nat.zero_le _,rfl⟩
    | cut _ h => exact .inl h
    | next h hs => exact .inr ⟨by rwa [← h.1,List.take_left],by rwa [← h.1,List.drop_left]⟩
  · rintro (h|⟨h,hs⟩)
    · exact .cut bs h
    · have hn := Serves.next h hs
      rwa [List.take_append_drop] at hn

instance decidableServes : (bs : List Bytes) → (p : Bytes) → Decidable (Serves bs p)
  | [],_ => decidable_of_iff _ serves_nil_iff.symm
  | b::bs,p =>
      haveI := decidableServes bs (p.drop b.length)
      decidable_of_iff _ serves_cons_iff.symm

/-- Bytes as long as the first batch and more behind them. -/
theorem serves_append_iff (hl : q.length = b.length) :
    Serves (b::bs) (q++p) ↔ SameButBase b q ∧ Serves bs p := by
  rw [serves_cons_iff,← hl,List.take_left,List.drop_left]
  constructor
  · rintro (h|h)
    · have hp : p = [] := by
        have := h.1
        rw [List.length_append] at this
        exact List.length_eq_zero_iff.mp (by omega)
      subst hp
      rw [List.append_nil] at h
      exact ⟨sameButBase_of_agrees h hl,.nothing bs⟩
    · exact h
  · exact .inr

/-- What is served shows the length field of the first stored batch. -/
theorem Serves.length_field (h : Serves (b::bs) p) (hp : rbMinPatchBytes ≤ p.length)
    (hb : rbMinBytes ≤ b.length) : uintAt 4 p rbLength = uintAt 4 b rbLength := by
  have hw : ∀ {x : Bytes}, Agrees b x → rbMinPatchBytes ≤ x.length →
      uintAt 4 x rbLength = uintAt 4 b rbLength := by
    intro x hx hl
    rw [uintAt_of_drop hx.2 (by decide)]
    unfold uintAt window
    rw [List.drop_take,List.take_take]
    simp only [rbLength,rbMinPatchBytes] at hl ⊢
    rw [Nat.min_eq_left (by omega)]
  rcases serves_cons_iff.mp h with ha|⟨hs,-⟩
  · exact hw ha hp
  · have hl := hs.1
    rw [← hw (agrees_of_sameButBase hs) (by rw [hl]; exact le_trans (by decide) hb)]
    conv_lhs => rw [← List.take_append_drop b.length p]
    refine uintAt_append_left _ ?_
    rw [hl]
    exact le_trans (by decide) hb

end Serving

theorem overwrite_sameButBase {q : Bytes} (n : ℕ) (hq : 8 ≤ q.length) :
    SameButBase q (overwrite q 0 (putUint 8 n)) := by
  refine ⟨overwrite_length (by rw [putUint_length]; omega),?_⟩
  rw [overwrite_zero,putUint_length]
  exact List.drop_left' (putUint_length 8 n)

/-- The loop changes no byte that matters. -/
theorem serves_patchLoop_iff {bs : List Bytes} (hc : ∀ b ∈ bs, Complete b) (fuel : ℕ)
    (cur : UInt64) (p : Bytes) : Serves bs (patchLoop fuel cur 0 p) ↔ Serves bs p := by
  induction fuel generalizing bs cur p with
  | zero => rfl
  | succ fuel ih =>
      by_cases hstop : rbMinPatchBytes ≤ p.length → p.length < 12+uintAt 4 p rbLength
      · rw [patchLoop_stop _ hstop]
      · obtain ⟨h27,ht⟩ := Classical.not_imp.mp hstop
        rw [not_lt] at ht
        have hlen := patchLoop_length (fuel+1) cur 0 p
        cases bs with
        | nil =>
            rw [serves_nil_iff,serves_nil_iff,← List.length_eq_zero_iff,hlen,
              List.length_eq_zero_iff]
        | cons b bs =>
            obtain ⟨hb,hbs⟩ := List.forall_mem_cons.mp hc
            obtain ⟨x,y,rfl,hx⟩ : ∃ x y, p = x++y ∧ x.length = 12+uintAt 4 p rbLength :=
              ⟨_,_,(List.take_append_drop (12+uintAt 4 p rbLength) p).symm,
                List.length_take_of_le ht⟩
            have hhead := patchLoop_head fuel cur hx.symm h27
            generalize targetBase cur x.length _ = base at hhead
            obtain ⟨hxl,hxd⟩ := overwrite_sameButBase base.toNat (show 8 ≤ x.length by omega)
            have hin : rbLength+4 ≤ x.length := by
              rw [rbLength]
              omega
            have hfield : uintAt 4 (patchLoop (fuel+1) cur 0 (x++y)) rbLength =
                uintAt 4 (x++y) rbLength := by
              rw [hhead,uintAt_append_left _ (by rwa [hxl]),uintAt_append_left _ hin,
                uintAt_of_drop hxd (by decide)]
            have hsize : ∀ {q}, Serves (b::bs) q → q.length = (x++y).length →
                uintAt 4 q rbLength = uintAt 4 (x++y) rbLength → x.length = b.length := by
              intro q hq hl hu
              rw [hx,← hu,hq.length_field (hl ▸ h27) hb.header]
              exact hb.length.symm
            by_cases hxb : x.length = b.length
            · rw [hhead,serves_append_iff (hxl.trans hxb),serves_append_iff hxb,ih hbs,
                SameButBase,SameButBase,hxl,hxd]
            · exact ⟨fun h => absurd (hsize h hlen hfield) hxb,
                fun h => absurd (hsize h rfl rfl) hxb⟩

section Served
variable {bs : BrokerStore} {topic : Bytes} {part : FetchPartitionData} {remaining : Int32}
variable {ps : PartitionStore} {d : Disk} {r : Rolling UInt8} {before b rest : Bytes}

/-- A window that begins at a record, without the record's prefix. -/
theorem window_drop_header (before b rest : Bytes) (cap : ℕ) :
    (window (before++(frame b++rest)) before.length
      (min (cap+4) ((frame b++rest).length))).drop 4 = (b++rest).take cap := by
  have hw := window_append_right before (frame b++rest) 0 (min (cap+4) (frame b++rest).length)
  rw [Nat.add_zero] at hw
  have hd : (frame b++rest).drop 4 = b++rest := by
    rw [frame,List.append_assoc,List.drop_append_of_le_length (by simp)]
    simp
  rw [hw,window,List.drop_zero,List.drop_take,hd,List.length_append,frame_length]
  have hm : min (cap+4) (4+b.length+rest.length)-4 = min cap (b++rest).length := by
    rw [List.length_append]
    omega
  rw [hm,← List.take_take,List.take_length]

theorem cap_toInt (m n : Int32) : (if m < n then m else n).toInt = min m.toInt n.toInt := by
  split
  · rename_i h
    rw [Int32.lt_iff_toInt_lt] at h
    omega
  · rename_i h
    rw [Int32.lt_iff_toInt_lt] at h
    omega

/-- An offset inside the log is neither its end nor behind it. -/
theorem offset_inside {o n : ℕ} (h : o < n) (hn : n < 2^63) :
    Int64.ofNat o ≠ Int64.ofNat n ∧ ¬Int64.ofNat o > Int64.ofNat n := by
  have hO := Int64.toInt_ofNat_of_lt (show o < 2^63 by omega)
  have hN := Int64.toInt_ofNat_of_lt hn
  constructor
  · intro hx
    have := congrArg Int64.toInt hx
    omega
  · rw [gt_iff_lt,Int64.lt_iff_toInt_lt]
    omega

/-- A fetch at the start of a record, with budgets of which the smaller leaves
room for the prefix, is answered from the bytes of the active segment. -/
theorem fetchPartition_holds (part : FetchPartitionData) (remaining : Int32) {bs' : BrokerStore}
    {d' : Disk} {log : Bytes}
    (hg : bs.getOrCreatePartition topic part.partition d = (.ok ps,bs',d'))
    (h : ps.active.Holds d' log) (hlog : log = before++(frame b++rest))
    (hl : log.length < 2^63) (ho : part.fetchOffset = Int64.ofNat before.length)
    (hpos : 0 < min remaining.toInt part.partitionMaxBytes.toInt)
    (hmax : min remaining.toInt part.partitionMaxBytes.toInt ≤ 2^31-5)
    {p : Bytes} (hpatch : p = patch (UInt64.ofNat before.length)
      ((b++rest).take (min remaining.toInt part.partitionMaxBytes.toInt).toNat)) :
    fetchPartition topic part remaining bs d =
      ({partition := part.partition, errorCode := ErrCodeNone,
        highWatermark := Int64.ofNat log.length, batchSize := Int32.ofNat p.length,
        recordBatch := some p},remaining-Int32.ofNat p.length,
        bs'.put topic part.partition
          {ps with active := {ps.active with bw := {ps.active.bw with buf := []}}},
        d'.appendTo ps.active.file.path ps.active.bw.buf) := by
  have hlen : log.length = before.length+(4+b.length+rest.length) := by
    rw [hlog,List.length_append,List.length_append,frame_length]
  have hs := size_of_holds h
  have hcapInt := cap_toInt remaining part.partitionMaxBytes
  generalize hcap : (if remaining < part.partitionMaxBytes then remaining
    else part.partitionMaxBytes) = cap at hcapInt
  rw [← hcapInt] at hpos hmax hpatch
  have hcap4 : (cap+4).toInt = cap.toInt+4 := by
    have h4 : (4 : Int32).toInt = 4 := rfl
    rw [Int32.toInt_add,h4,Int.bmod_eq_of_le (by omega) (by omega)]
  obtain ⟨k,hk,hread⟩ := read_of_holds h hl before.length (by omega) (cap+4) (by omega)
  have hkn : k.toInt.toNat = min (cap.toInt.toNat+4) (frame b++rest).length := by
    rw [List.length_append,frame_length]
    omega
  have hcontent : (d'.appendTo ps.active.file.path ps.active.bw.buf).content ps.active.file.path =
      before++(frame b++rest) := h.flushed.trans hlog
  have hfull := SectionReader.readFull_ok h.of_flush.healthy h.opened before.length
    k.toInt.toNat (show (before.length+k.toInt.toNat : ℤ) ≤ before.length+k.toInt by omega) (by
      rw [hcontent,← hlog,hlen]
      omega)
  rw [hcontent,hkn] at hfull
  have hraw : ¬(window (before++(frame b++rest)) before.length
      (min (cap.toInt.toNat+4) (frame b++rest).length)).length < 4 := by
    rw [window_length,← hlog,hlen,List.length_append,frame_length]
    omega
  rw [← window_drop_header before b rest] at hpatch
  obtain ⟨hne,hgt⟩ := offset_inside (show before.length < log.length by omega) hl
  rw [← ho] at hne hgt
  have hz : (0 : Int32).toInt = 0 := rfl
  have hcap0 : ¬cap ≤ 0 := by
    rw [Int32.le_iff_toInt_le]
    omega
  rw [← Int64.toUInt64_ofNat',← ho] at hread hpatch
  simp only [fetchPartition,hg,hs,if_neg hne,if_neg hgt,hcap,if_neg hcap0,hread,hkn,hfull,recHdr,
    if_neg hraw,hpatch]

/-- A fetch at the start of a record, with budgets that leave room for the
prefix, is answered from the log. -/
theorem fetchPartition_served (part : FetchPartitionData)
    (hlk : bs.stores.lookup (partitionKey topic part.partition) = some ps)
    (h : Follows ps d r) (hlog : r.active = before++(frame b++rest))
    (hl : r.active.length < 2^63) (ho : part.fetchOffset = Int64.ofNat before.length)
    (hr : 0 < remaining.toInt ∧ remaining.toInt ≤ 2^31-5)
    (hp : 0 < part.partitionMaxBytes.toInt ∧ part.partitionMaxBytes.toInt ≤ 2^31-5)
    {p : Bytes} (hpatch : p = patch (UInt64.ofNat before.length)
      ((b++rest).take (min remaining.toInt part.partitionMaxBytes.toInt).toNat)) :
    ∃ qs e, fetchPartition topic part remaining bs d =
        ({partition := part.partition, errorCode := ErrCodeNone,
          highWatermark := Int64.ofNat r.active.length, batchSize := Int32.ofNat p.length,
          recordBatch := some p},remaining-Int32.ofNat p.length,
          bs.put topic part.partition qs,e) ∧ Follows qs e r :=
  ⟨_,_,fetchPartition_holds part remaining (getOrCreatePartition_of_lookup hlk) h.holds hlog hl ho
    (by omega) (by omega) hpatch,h.of_flush⟩

/-- The window of a fetch is served as it should be exactly when the prefixes
behind the first batch do not show in it. -/
theorem serves_patch_iff {tail : List Bytes} (hc : ∀ c ∈ b::tail, Complete c) (cur : UInt64)
    (cap : ℕ) : Serves (b::tail) (patch cur ((b++frames tail).take cap)) ↔
      tail = [] ∨ cap ≤ b.length+8 ∨ Serves tail ((frames tail).take (cap-b.length)) := by
  have hcut : ∀ k, k ≤ 8 → Serves tail ((frames tail).take k) := by
    intro k hk
    cases tail with
    | nil => exact serves_nil_iff.mpr (by simp)
    | cons c tail =>
        have hd : ∀ {x : Bytes}, (x.take k).drop 8 = [] := fun {x} =>
          List.drop_eq_nil_of_le (by rw [List.length_take]; omega)
        have hl := (hc c (by simp)).header
        have hk' : ((frames (c::tail)).take k).length = k := by
          rw [List.length_take,frames_length_cons]
          simp only [rbMinBytes] at hl
          omega
        refine .cut tail ⟨?_,?_⟩
        · rw [hk']
          simp only [rbMinBytes] at hl
          omega
        · rw [hk',hd,hd]
  have hsimp : (tail = [] ∨ cap ≤ b.length+8 ∨ Serves tail ((frames tail).take (cap-b.length))) ↔
      Serves tail ((frames tail).take (cap-b.length)) := by
    constructor
    · rintro (rfl|h|h)
      · exact serves_nil_iff.mpr (by simp)
      · exact hcut _ (by omega)
      · exact h
    · exact fun h => .inr (.inr h)
  rw [hsimp,patch,serves_patchLoop_iff hc,List.take_append]
  rcases le_or_gt cap b.length with h|h
  · have h0 : cap-b.length = 0 := by omega
    rw [h0,List.take_zero,List.append_nil]
    refine ⟨fun _ => .nothing tail,fun _ => .cut tail ⟨List.length_take_le' _ _,?_⟩⟩
    rw [List.length_take_of_le h]
  · rw [List.take_of_length_le h.le,serves_append_iff rfl]
    exact ⟨fun h => h.2,fun h => ⟨⟨rfl,rfl⟩,h⟩⟩

/-- A fetch at the start of a stored batch sends batches and nothing else
exactly when no record follows, or the budget ends within the base offset of
the next batch, or the stored bytes behind the first batch already read as the
next batches with the length prefixes in between. -/
theorem fetch_serves_batches_iff (part : FetchPartitionData) (remaining : Int32)
    {batches : List Bytes} (i : ℕ)
    (hlk : bs.stores.lookup (partitionKey topic part.partition) = some ps)
    (h : Follows ps d r) (hlog : r.active = frames batches) (hl : r.active.length < 2^63)
    (hc : ∀ c ∈ batches, Complete c) (hi : batches[i]? = some b)
    (ho : part.fetchOffset = Int64.ofNat (frames (batches.take i)).length)
    (hr : 0 < remaining.toInt ∧ remaining.toInt ≤ 2^31-5)
    (hp : 0 < part.partitionMaxBytes.toInt ∧ part.partitionMaxBytes.toInt ≤ 2^31-5)
    (cap : ℕ) (hcap : cap = min remaining.toInt part.partitionMaxBytes.toInt) :
    ∃ p, (fetchPartition topic part remaining bs d).1 =
        {partition := part.partition, errorCode := ErrCodeNone,
          highWatermark := Int64.ofNat r.active.length, batchSize := Int32.ofNat p.length,
          recordBatch := some p} ∧
      p.length = min cap (b++frames (batches.drop (i+1))).length ∧
      (Serves (batches.drop i) p ↔ i+1 = batches.length ∨ cap ≤ b.length+8 ∨
        Serves (batches.drop (i+1)) ((frames (batches.drop (i+1))).take (cap-b.length))) := by
  obtain ⟨hlt,rfl⟩ := List.getElem?_eq_some_iff.mp hi
  have hdrop := List.drop_eq_getElem_cons hlt
  rw [frames_split hi] at hlog
  obtain ⟨qs,e,hf,-⟩ := fetchPartition_served part hlk h hlog hl ho hr hp rfl
  rw [← hcap,Int.toNat_natCast] at hf
  refine ⟨_,by rw [hf],by rw [patch,patchLoop_length,List.length_take],?_⟩
  have hlast : batches.drop (i+1) = [] ↔ i+1 = batches.length := by
    rw [List.drop_eq_nil_iff]
    omega
  rw [hdrop,serves_patch_iff (fun c hc' => hc c (List.mem_of_mem_drop (hdrop ▸ hc'))),hlast]

/-- Two batches, and a budget that ends with the first. -/
theorem fetch_serves_first_batch : ∃ bs d p,
    (fetchPartition [] ⟨0,0,61⟩ 100 bs d).1.recordBatch = some p ∧ p.length = 61 ∧
      Serves [oneRecord,oneRecord] p := by
  obtain ⟨ps,d,r,h,-,hr⟩ := exists_follows [] ⟨0⟩
    [oneRecord,oneRecord] (by decide +kernel)
  obtain ⟨p,hf,hlen,hs⟩ := fetch_serves_batches_iff ⟨0,0,61⟩ 100 0
    (put_lookup ⟨[],⟨0⟩,∅⟩ [] 0 ps) h hr (by rw [hr]; decide +kernel)
    (by decide +kernel) rfl rfl (by decide) (by decide) 61 (by decide)
  exact ⟨_,d,p,by rw [hf],by rw [hlen]; decide +kernel,hs.mpr (.inr (.inl (by decide +kernel)))⟩

end Served

/-- What a fetch sends after payloads were appended to a new partition. -/
def sent (payloads : List Bytes) (part : FetchPartitionData) (remaining : Int32) : Option Bytes :=
  match (BrokerStore.mk [] ⟨0⟩ ∅).getOrCreatePartition [] part.partition .blank with
  | (.error _,_,_) => none
  | (.ok ps,bs,d) =>
      match PartitionRuns.appends ps d payloads with
      | (_,ps,d) => (fetchPartition [] part remaining (bs.put [] part.partition ps) d).1.recordBatch

/-- Two batches of sixty-one bytes and budgets for both: the length prefix of
the second record stands between them. -/
theorem prefix_between_batches : ∃ p,
    validateRecordBatch oneRecord = some (.ok 1) ∧ Complete oneRecord ∧
      sent [oneRecord,oneRecord] ⟨0,0,1000⟩ 1000 = some p ∧
      p.length = 126 ∧
      ¬Serves [oneRecord,oneRecord] p := by
  obtain ⟨p,hp⟩ := Option.isSome_iff_exists.mp
    (by decide +kernel : (sent [oneRecord,oneRecord] ⟨0,0,1000⟩ 1000).isSome)
  have hg : p = (sent [oneRecord,oneRecord] ⟨0,0,1000⟩ 1000).getD [] := by rw [hp,Option.getD_some]
  refine ⟨p,by decide +kernel,by decide +kernel,hp,?_⟩
  rw [hg]
  decide +kernel

end Kage.FetchServing
