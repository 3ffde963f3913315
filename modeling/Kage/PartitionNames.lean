import Kage.BrokerStores

/-!
# Names of partitions and of their directories

The key of a partition is its topic, a dash and the printed number. Its last
digits are those of the number, so two pairs have the same key only when they
are equal or when one number is negative and its minus sign reads as the end of
the other topic.

As a path the key is split at its separators. What stands before the last one
is walked from the root, component by component, and what stands behind it is
never dropped: it ends in a digit, so it is no dot and no double dot.
-/
namespace Kage.PartitionNames
open ByteStrings DecimalText BrokerStores

/-- The components before the last separator. -/
def lead (topic : Bytes) : List Bytes := (topic.splitOn 47).dropLast

/-- What stands behind the last separator. -/
def leaf (topic : Bytes) : Bytes := (topic.splitOn 47).getLastD []

/-- Follow components from a directory. -/
def walk (dir : List Bytes) (cs : List Bytes) : List Bytes := cs.foldl enter dir

/-- The second pair's topic ends in the minus sign of the first pair's number. -/
def SignShift (topic : Bytes) (partition : Int32) (topic' : Bytes) (partition' : Int32) : Prop :=
  partition.toInt < 0 ∧ partition'.toInt = -partition.toInt ∧ topic' = topic++ascii "-"

def keyOf (tp : TopicPartition) : Bytes := partitionKey tp.topic tp.partition

section Digits
variable {front digits : Bytes} {x : UInt8}

theorem isDigit_decimal (n : ℕ) : ∀ b ∈ decimal n, isDigit b = true := by
  intro b hb
  obtain ⟨c,hc,rfl⟩ := List.mem_map.mp hb
  have hd := Nat.isDigit_of_mem_toDigits (by decide) (by decide) hc
  simp only [Char.isDigit,Bool.and_eq_true,decide_eq_true_eq] at hd
  have hlo : (48 : ℕ) ≤ c.toNat := hd.1
  have hhi : c.toNat ≤ 57 := hd.2
  have hn : (UInt8.ofNat c.toNat).toNat = c.toNat := UInt8.toNat_ofNat_of_lt' (by
    rw [UInt8.size]
    omega)
  simp only [isDigit,Bool.and_eq_true,decide_eq_true_eq,UInt8.le_iff_toNat_le,hn]
  exact ⟨hlo,hhi⟩

theorem decimal_ne_nil (n : ℕ) : decimal n ≠ [] := by
  simp [decimal,Nat.toDigits_ne_nil]

theorem decimal_injective : Function.Injective decimal := by
  intro m n h
  rw [← spell_decimal m,← spell_decimal n,h]

/-- The digits at the end of a string are those behind its last other byte. -/
theorem takeWhile_digits (hx : isDigit x = false) (hd : ∀ b ∈ digits, isDigit b = true) :
    (front++x::digits).reverse.takeWhile isDigit = digits.reverse := by
  rw [List.reverse_append,List.reverse_cons,List.append_assoc,
    List.takeWhile_append_of_pos (by simpa using hd)]
  simp [hx]

theorem dropWhile_digits (hx : isDigit x = false) (hd : ∀ b ∈ digits, isDigit b = true) :
    (front++x::digits).reverse.dropWhile isDigit = x::front.reverse := by
  rw [List.reverse_append,List.reverse_cons,List.append_assoc,
    List.dropWhile_append_of_pos (by simpa using hd)]
  simp [hx]

/-- A string is determined by its last digits and what precedes them. -/
theorem digits_cancel {front' digits' : Bytes} {x' : UInt8} (hx : isDigit x = false)
    (hd : ∀ b ∈ digits, isDigit b = true) (hx' : isDigit x' = false)
    (hd' : ∀ b ∈ digits', isDigit b = true) (h : front++x::digits = front'++x'::digits') :
    front = front' ∧ x = x' ∧ digits = digits' := by
  have ht : (front++x::digits).reverse.takeWhile isDigit = digits.reverse :=
    takeWhile_digits hx hd
  have hr : (front++x::digits).reverse.dropWhile isDigit = x::front.reverse :=
    dropWhile_digits hx hd
  rw [h,takeWhile_digits hx' hd',List.reverse_inj] at ht
  rw [h,dropWhile_digits hx' hd',List.cons.injEq,List.reverse_inj] at hr
  exact ⟨hr.2.symm,hr.1.symm,ht.symm⟩

end Digits

section Keys
variable {topic topic' : Bytes} {partition partition' : Int32}

theorem partitionKey_of_nonneg (h : 0 ≤ partition.toInt) :
    partitionKey topic partition = topic++45::decimal partition.toInt.natAbs := by
  rw [partitionKey,signedDecimal,if_neg (by omega)]
  rfl

theorem partitionKey_of_neg (h : partition.toInt < 0) :
    partitionKey topic partition = (topic++ascii "-")++45::decimal partition.toInt.natAbs := by
  rw [partitionKey,signedDecimal,if_pos h,List.append_assoc]

/-- The key is a text, a dash and the digits of the number. -/
theorem partitionKey_eq (topic : Bytes) (partition : Int32) :
    partitionKey topic partition =
      (if partition.toInt < 0 then topic++ascii "-" else topic)++
        45::decimal partition.toInt.natAbs := by
  split
  · exact partitionKey_of_neg ‹_›
  · exact partitionKey_of_nonneg (by omega)

/-- Two pairs share a key exactly when they are equal or shifted by a sign. -/
theorem partitionKey_eq_iff :
    partitionKey topic partition = partitionKey topic' partition' ↔
      (topic = topic' ∧ partition = partition') ∨ SignShift topic partition topic' partition' ∨
        SignShift topic' partition' topic partition := by
  have hdash : isDigit 45 = false := by decide
  constructor
  · intro h
    rw [partitionKey_eq,partitionKey_eq topic'] at h
    obtain ⟨hf,-,hn⟩ := digits_cancel hdash (isDigit_decimal _) hdash (isDigit_decimal _) h
    have habs := decimal_injective hn
    by_cases hp : partition.toInt < 0
    · by_cases hp' : partition'.toInt < 0
      · rw [if_pos hp,if_pos hp'] at hf
        exact .inl ⟨List.append_cancel_right hf,Int32.toInt_inj.mp (by omega)⟩
      · rw [if_pos hp,if_neg hp'] at hf
        exact .inr (.inl ⟨hp,by omega,hf.symm⟩)
    · by_cases hp' : partition'.toInt < 0
      · rw [if_neg hp,if_pos hp'] at hf
        exact .inr (.inr ⟨hp',by omega,hf⟩)
      · rw [if_neg hp,if_neg hp'] at hf
        exact .inl ⟨hf,Int32.toInt_inj.mp (by omega)⟩
  · rintro (⟨rfl,rfl⟩|⟨hp,hn,rfl⟩|⟨hp,hn,rfl⟩)
    · rfl
    · rw [partitionKey_of_neg hp,partitionKey_of_nonneg (by omega),hn,Int.natAbs_neg]
    · rw [partitionKey_of_neg hp,partitionKey_of_nonneg (by omega),hn,Int.natAbs_neg]

theorem not_mem_partitionKey_suffix (partition : Int32) {b : UInt8} (hb : isDigit b = false)
    (hd : b ≠ 45) : b ∉ ascii "-"++signedDecimal partition.toInt := by
  have hdec : b ∉ decimal partition.toInt.natAbs := by
    intro h
    rw [isDigit_decimal _ b h] at hb
    cases hb
  have hdash : b ∉ ascii "-" := by
    rw [show ascii "-" = [45] from rfl,List.mem_singleton]
    exact hd
  rw [List.mem_append,not_or]
  refine ⟨hdash,?_⟩
  rw [signedDecimal]
  split
  · rw [List.mem_cons,not_or]
    exact ⟨hd,hdec⟩
  · exact hdec

theorem dash_mem_partitionKey (topic : Bytes) (partition : Int32) :
    45 ∈ partitionKey topic partition := by
  rw [partitionKey_eq]
  simp

end Keys

section Paths
variable {topic topic' : Bytes} {partition partition' : Int32}

/-- Text without a separator lengthens the last component. -/
theorem splitOn_append {b : UInt8} (as : Bytes) {bs : Bytes} (h : b ∉ bs) :
    (as++bs).splitOn b = (as.splitOn b).dropLast++[(as.splitOn b).getLastD []++bs] := by
  by_cases ha : b ∈ as
  · obtain ⟨xs,ys,hy,hx⟩ := List.eq_append_cons_of_mem (List.mem_reverse.mpr ha)
    have has : as = ys.reverse++b::xs.reverse := by
      rw [← List.reverse_reverse as,hy,List.reverse_append,List.reverse_cons,List.append_assoc]
      rfl
    have hl : b ∉ xs.reverse := by rwa [List.mem_reverse]
    have hr : b ∉ xs.reverse++bs := by
      rw [List.mem_append,not_or]
      exact ⟨hl,h⟩
    rw [has,List.append_assoc,List.cons_append,List.splitOn_append_cons_self,
      List.splitOn_append_cons_self,List.splitOn_eq_singleton hl,
      List.splitOn_eq_singleton hr,List.dropLast_concat,List.getLastD_concat]
  · rw [List.splitOn_eq_singleton ha,List.splitOn_eq_singleton (by simp [ha,h])]
    rfl

/-- A component with a dash in it is entered. -/
theorem enter_of_dash (dir : List Bytes) {c : Bytes} (h : 45 ∈ c) : enter dir c = dir++[c] := by
  have h₁ : ¬(c = [] ∨ c = ascii ".") := by
    rintro (rfl|rfl)
    · cases h
    · exact absurd h (by decide)
  have h₂ : c ≠ ascii ".." := by
    rintro rfl
    exact absurd h (by decide)
  rw [enter,if_neg h₁,if_neg h₂]

theorem joinPath_partitionKey (root : List Bytes) (topic : Bytes) (partition : Int32) :
    joinPath root (partitionKey topic partition) =
      walk root (lead topic)++[partitionKey (leaf topic) partition] := by
  have hs : 47 ∉ ascii "-"++signedDecimal partition.toInt :=
    not_mem_partitionKey_suffix partition (by decide) (by decide)
  rw [← enter_of_dash _ (dash_mem_partitionKey (leaf topic) partition),joinPath,partitionKey,
    splitOn_append topic hs,List.foldl_append,List.foldl_cons,List.foldl_nil,walk,lead,leaf,
    partitionKey]

/-- Two pairs share a directory exactly when their topics lead to the same
place and end in the same key. -/
theorem joinPath_partitionKey_eq_iff (root : List Bytes) :
    joinPath root (partitionKey topic partition) = joinPath root (partitionKey topic' partition') ↔
      walk root (lead topic) = walk root (lead topic') ∧
        partitionKey (leaf topic) partition = partitionKey (leaf topic') partition' := by
  rw [joinPath_partitionKey,joinPath_partitionKey]
  constructor
  · intro h
    obtain ⟨hw,hk⟩ := List.append_inj' h (by simp)
    exact ⟨hw,List.singleton_inj.mp hk⟩
  · rintro ⟨hw,hk⟩
    rw [hw,hk]

theorem lead_of_not_mem (h : 47 ∉ topic) : lead topic = [] := by
  rw [lead,List.splitOn_eq_singleton h]
  rfl

theorem leaf_of_not_mem (h : 47 ∉ topic) : leaf topic = topic := by
  rw [leaf,List.splitOn_eq_singleton h]
  rfl

end Paths

end Kage.PartitionNames
