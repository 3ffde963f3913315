import Kage.FaultyDisk

/-!
# Records of committed offsets

A committed offset is stored as a record whose key spells the consumer group,
the topic and the partition and whose value is the offset. Every part has a
length in front of it, two bytes wide for the strings and four for key and
value. Strings of a request carry a sixteen-bit signed length, so they are
shorter than `2^15` bytes and their lengths survive: decoding an encoded record
gives back what was committed. The encoding itself is good for strings of up to
`2^16-1` bytes, and bytes behind a record do not disturb it.
-/
namespace Kage.OffsetRecords
open ByteStrings FaultyDisk

/-- A string as a request can carry it. -/
def WireString := {s : Bytes // s.length < 2^15}

instance : DecidableEq WireString := inferInstanceAs (DecidableEq {s : Bytes // s.length < 2^15})

structure OffsetCacheKey where
  groupID : Bytes
  topic : Bytes
  partition : Int32
  deriving DecidableEq, Repr

def encodeOffsetKey (groupID topic : Bytes) (partition : Int32) : Bytes :=
  putUint 2 groupID.length++(groupID++(putUint 2 topic.length++(topic++
    putUint 4 partition.toUInt32.toNat)))

def encodeOffsetRecord (key value : Bytes) : Bytes :=
  putUint 4 key.length++(key++(putUint 4 value.length++value))

/-- The part of decoding that reads the key. -/
def decodeOffsetKey (key : Bytes) : Except Err OffsetCacheKey :=
  if key.length < 2 then
    .error (.sentinel "decodeOffsetRecord: key too short for groupID length") else
  let groupIDLen := uintAt 2 key 0
  if 2+groupIDLen > key.length then
    .error (.sentinel "decodeOffsetRecord: groupID length %d exceeds key") else
  let groupID := window key 2 groupIDLen
  let kpos := 2+groupIDLen
  if kpos+2 > key.length then
    .error (.sentinel "decodeOffsetRecord: key too short for topic length") else
  let topicLen := uintAt 2 key kpos
  let kpos := kpos+2
  if kpos+topicLen > key.length then
    .error (.sentinel "decodeOffsetRecord: topic length %d exceeds key") else
  let topic := window key kpos topicLen
  let kpos := kpos+topicLen
  if kpos+4 > key.length then
    .error (.sentinel "decodeOffsetRecord: key too short for partition") else
  .ok ⟨groupID,topic,(UInt32.ofNat (uintAt 4 key kpos)).toInt32⟩

def decodeOffsetRecord (record : Bytes) : Except Err (OffsetCacheKey × Int64) :=
  if record.length < 4 then
    .error (.sentinel "decodeOffsetRecord: record too short (%d bytes)") else
  let keyLen := uintAt 4 record 0
  let pos := 4
  if pos+keyLen > record.length then
    .error (.sentinel "decodeOffsetRecord: key length %d exceeds record") else
  let key := window record pos keyLen
  let pos := pos+keyLen
  if pos+4 > record.length then
    .error (.sentinel "decodeOffsetRecord: no room for value length") else
  let valueLen := uintAt 4 record pos
  let pos := pos+4
  if pos+valueLen > record.length then
    .error (.sentinel "decodeOffsetRecord: value length %d exceeds record") else
  let value := window record pos valueLen
  match decodeOffsetKey key with
  | .error e => .error e
  | .ok cacheKey =>
      if value.length < 8 then
        .error (.sentinel "decodeOffsetRecord: value too short for offset (%d bytes)") else
      .ok (cacheKey,(UInt64.ofNat (uintAt 8 value 0)).toInt64)

/-- One offset that a request commits. -/
structure Commit where
  groupID : WireString
  topic : WireString
  partition : Int32
  offset : Int64
  deriving DecidableEq

namespace Commit

def key (c : Commit) : OffsetCacheKey := ⟨c.groupID.1,c.topic.1,c.partition⟩

def record (c : Commit) : Bytes :=
  encodeOffsetRecord (encodeOffsetKey c.groupID.1 c.topic.1 c.partition)
    (putUint 8 c.offset.toUInt64.toNat)

/-- The write that the record stands for. -/
def write (c : Commit) : OffsetCacheKey × Int64 := (c.key,c.offset)

end Commit

theorem encodeOffsetKey_length (groupID topic : Bytes) (partition : Int32) :
    (encodeOffsetKey groupID topic partition).length = 8+groupID.length+topic.length := by
  simp only [encodeOffsetKey,List.length_append,putUint_length]
  omega

theorem decodeOffsetKey_encode {groupID topic : Bytes} (hg : groupID.length < 2^16)
    (ht : topic.length < 2^16) (partition : Int32) :
    decodeOffsetKey (encodeOffsetKey groupID topic partition) = .ok ⟨groupID,topic,partition⟩ := by
  have hl := encodeOffsetKey_length groupID topic partition
  have hp : partition.toUInt32.toNat < 256^4 := partition.toUInt32.toNat_lt
  have hgl : uintAt 2 (encodeOffsetKey groupID topic partition) 0 = groupID.length :=
    uintAt_putUint (by omega) _
  have hgs : window (encodeOffsetKey groupID topic partition) 2 groupID.length = groupID :=
    (window_skip (putUint_length 2 _) _ 0 _).trans (window_head rfl _)
  have htl : uintAt 2 (encodeOffsetKey groupID topic partition) (2+groupID.length) =
      topic.length := by
    rw [encodeOffsetKey,uintAt_skip (putUint_length 2 _)]
    exact (uintAt_skip rfl 2 _ 0).trans (uintAt_putUint (by omega) _)
  have hts : window (encodeOffsetKey groupID topic partition) (2+groupID.length+2) topic.length =
      topic := by
    rw [encodeOffsetKey,Nat.add_assoc,window_skip (putUint_length 2 _),window_skip rfl]
    exact (window_skip (putUint_length 2 _) _ 0 _).trans (window_head rfl _)
  have hpn : uintAt 4 (encodeOffsetKey groupID topic partition)
      (2+groupID.length+2+topic.length) = partition.toUInt32.toNat := by
    rw [encodeOffsetKey,Nat.add_assoc,Nat.add_assoc,uintAt_skip (putUint_length 2 _),
      uintAt_skip rfl,uintAt_skip (putUint_length 2 _)]
    exact (uintAt_skip rfl 4 _ 0).trans (uintAt_putUint_self hp)
  simp only [decodeOffsetKey,hgl,hgs,htl,hts,hpn,hl,UInt32.ofNat_toNat,Int32.toInt32_toUInt32]
  rw [if_neg (by omega),if_neg (by omega),if_neg (by omega),if_neg (by omega),if_neg (by omega)]

theorem Commit.record_length (c : Commit) :
    c.record.length = 24+c.groupID.1.length+c.topic.1.length := by
  simp only [Commit.record,encodeOffsetRecord,List.length_append,putUint_length,
    encodeOffsetKey_length]
  omega

/-- A record is read back as its key says, whatever follows it. -/
theorem decodeOffsetRecord_encode {key value : Bytes} {cacheKey : OffsetCacheKey}
    (hkey : decodeOffsetKey key = .ok cacheKey) (hkl : key.length < 2^32)
    (hvl : value.length < 2^32) (h8 : 8 ≤ value.length) (trailing : Bytes) :
    decodeOffsetRecord (encodeOffsetRecord key value++trailing) =
      .ok (cacheKey,(UInt64.ofNat (uintAt 8 value 0)).toInt64) := by
  have hr : encodeOffsetRecord key value++trailing =
      putUint 4 key.length++(key++(putUint 4 value.length++(value++trailing))) := by
    simp only [encodeOffsetRecord,List.append_assoc]
  have hl : (encodeOffsetRecord key value++trailing).length =
      8+key.length+value.length+trailing.length := by
    simp only [hr,List.length_append,putUint_length]
    omega
  have hn : uintAt 4 (encodeOffsetRecord key value++trailing) 0 = key.length := by
    rw [hr]
    exact uintAt_putUint (by omega) _
  have hk : window (encodeOffsetRecord key value++trailing) 4 key.length = key := by
    rw [hr]
    exact (window_skip (putUint_length 4 _) _ 0 _).trans (window_head rfl _)
  have hm : uintAt 4 (encodeOffsetRecord key value++trailing) (4+key.length) = value.length := by
    rw [hr,uintAt_skip (putUint_length 4 _)]
    exact (uintAt_skip rfl 4 _ 0).trans (uintAt_putUint (by omega) _)
  have hw : window (encodeOffsetRecord key value++trailing) (4+key.length+4) value.length =
      value := by
    rw [hr,Nat.add_assoc,window_skip (putUint_length 4 _),window_skip rfl]
    exact (window_skip (putUint_length 4 _) _ 0 _).trans (window_head rfl _)
  simp only [decodeOffsetRecord,hn,hk,hm,hw,hkey,hl]
  rw [if_neg (by omega),if_neg (by omega),if_neg (by omega),if_neg (by omega),if_neg (by omega)]

theorem decodeOffsetRecord_offset {groupID topic : Bytes} (hg : groupID.length < 2^16)
    (ht : topic.length < 2^16) (partition : Int32) (offset : Int64) (trailing : Bytes) :
    decodeOffsetRecord (encodeOffsetRecord (encodeOffsetKey groupID topic partition)
      (putUint 8 offset.toUInt64.toNat)++trailing) = .ok (⟨groupID,topic,partition⟩,offset) := by
  have hkl := encodeOffsetKey_length groupID topic partition
  have hvl := putUint_length 8 offset.toUInt64.toNat
  rw [decodeOffsetRecord_encode (decodeOffsetKey_encode hg ht partition) (by omega) (by omega)
    hvl.ge,uintAt_putUint_self offset.toUInt64.toNat_lt,UInt64.ofNat_toNat,
    Int64.toInt64_toUInt64]

/-- Decoding gives back what was committed. -/
theorem decodeOffsetRecord_record (c : Commit) : decodeOffsetRecord c.record = .ok c.write := by
  have hg := c.groupID.2.trans (by decide : 2^15 < 2^16)
  have ht := c.topic.2.trans (by decide : 2^15 < 2^16)
  have h := decodeOffsetRecord_offset hg ht c.partition c.offset []
  rwa [List.append_nil] at h

/-- A stored offset is read back whole, whatever follows it, and no two triples
have the same key. -/
theorem offset_records_round_trip {groupID topic : Bytes} (hg : groupID.length ≤ 65535)
    (ht : topic.length ≤ 65535) (partition : Int32) :
    (∀ (offset : Int64) (trailing : Bytes),
      decodeOffsetRecord (encodeOffsetRecord (encodeOffsetKey groupID topic partition)
        (putUint 8 offset.toUInt64.toNat)++trailing) = .ok (⟨groupID,topic,partition⟩,offset)) ∧
    ∀ (groupID' topic' : Bytes) (partition' : Int32), groupID'.length ≤ 65535 →
      topic'.length ≤ 65535 →
      encodeOffsetKey groupID topic partition = encodeOffsetKey groupID' topic' partition' →
      groupID = groupID' ∧ topic = topic' ∧ partition = partition' := by
  have hlt : 65535 < 2^16 := by decide
  constructor
  · exact decodeOffsetRecord_offset (hg.trans_lt hlt) (ht.trans_lt hlt) partition
  · intro groupID' topic' partition' hg' ht' heq
    have h := decodeOffsetKey_encode (hg.trans_lt hlt) (ht.trans_lt hlt) partition
    have h' := decodeOffsetKey_encode (hg'.trans_lt hlt) (ht'.trans_lt hlt) partition'
    rw [heq,h'] at h
    cases h
    exact ⟨rfl,rfl,rfl⟩

theorem offset_records_round_trip_longest :
    (List.replicate 65535 (7 : UInt8)).length ≤ 65535 ∧ ([] : Bytes).length ≤ 65535 ∧
    decodeOffsetRecord (encodeOffsetRecord (encodeOffsetKey (List.replicate 65535 7) [] (-1))
      (putUint 8 (Int64.minValue).toUInt64.toNat)++[1,2,3]) =
        .ok (⟨List.replicate 65535 7,[],-1⟩,Int64.minValue) :=
  have hg : (List.replicate 65535 (7 : UInt8)).length ≤ 65535 := List.length_replicate.le
  have ht : ([] : Bytes).length ≤ 65535 := Nat.zero_le _
  ⟨hg,ht,(offset_records_round_trip hg ht (-1)).1 Int64.minValue [1,2,3]⟩

end Kage.OffsetRecords
