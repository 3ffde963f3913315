import Kage.PartitionLog
import Mathlib.Data.List.AList

/-!
# The stores of a broker

A broker keeps one partition store per topic and partition, in a map keyed by
the printed pair, each in the directory that the key names below the root. The
key is not checked, so it is resolved as a path: separators split it, and dots
and double dots are removed the way a joined path is cleaned. The root is taken
as an absolute path.

Opening a broker lists the directories below the root in order and opens those
that look like printed pairs. The locks, the logger and the retention goroutine
are outside the model.
-/
namespace Kage.BrokerStores
open ByteStrings DecimalText FaultyDisk SegmentLog PartitionLog

structure TopicPartition where
  topic : Bytes
  partition : Int32
  deriving DecidableEq, Repr

structure BrokerStore where
  rootDir : List Bytes
  cfg : SegmentConfig
  stores : AList fun _ : Bytes => PartitionStore

def partitionKey (topic : Bytes) (partition : Int32) : Bytes :=
  topic++(ascii "-"++signedDecimal partition.toInt)

/-- One component of a joined path. -/
def enter (dir : List Bytes) (c : Bytes) : List Bytes :=
  if c = [] ∨ c = ascii "." then dir else if c = ascii ".." then dir.dropLast else dir++[c]

/-- A name below a directory, cleaned. -/
def joinPath (dir : List Bytes) (name : Bytes) : List Bytes := (name.splitOn 47).foldl enter dir

namespace BrokerStore

def partitionDir (bs : BrokerStore) (topic : Bytes) (partition : Int32) : List Bytes :=
  joinPath bs.rootDir (partitionKey topic partition)

/-- Later operations on a store go back into the map. -/
def put (bs : BrokerStore) (topic : Bytes) (partition : Int32) (ps : PartitionStore) :
    BrokerStore :=
  {bs with stores := bs.stores.insert (partitionKey topic partition) ps}

def getOrCreatePartition (bs : BrokerStore) (topic : Bytes) (partition : Int32) (d : Disk) :
    Except Err PartitionStore × BrokerStore × Disk :=
  match bs.stores.lookup (partitionKey topic partition) with
  | some ps => (.ok ps,bs,d)
  | none =>
      let dir := bs.partitionDir topic partition
      match d.mkdirAll dir with
      | (some e,d) => (.error (.wrap "storage: create partition dir %q" e),bs,d)
      | (none,d) =>
          match openPartitionStore dir bs.cfg d with
          | (.error e,d) => (.error (.wrap "storage: open partition %q/%d" e),bs,d)
          | (.ok ps,d) => (.ok ps,bs.put topic partition ps,d)

end BrokerStore

def isDigit (b : UInt8) : Bool := 48 ≤ b && b ≤ 57

/-- The pattern `^(.+)-(\d+)$`: everything before the last dash, and digits
behind it. The dot does not match a line feed. -/
def partitionDirRe (name : Bytes) : Option (Bytes × Bytes) :=
  match name.reverse.dropWhile isDigit with
  | 45::front =>
      let digits := (name.reverse.takeWhile isDigit).reverse
      let topic := front.reverse
      if digits = [] ∨ topic = [] ∨ 10 ∈ topic then none else some (topic,digits)
  | _ => none

/-- A decimal number that fits in thirty-two bits. -/
def parseInt32 (digits : Bytes) : Option Int32 :=
  if spell digits 0 < 2^31 then some (Int32.ofNat (spell digits 0)) else none

/-- Open the partitions of the listed directories, one after another. -/
def loadPartitions (bs : BrokerStore) : List Bytes → Disk → Except Err BrokerStore × Disk
  | [],d => (.ok bs,d)
  | name::names,d =>
      match partitionDirRe name with
      | none => loadPartitions bs names d
      | some (topic,digits) =>
          match parseInt32 digits with
          | none => loadPartitions bs names d
          | some partition =>
              match openPartitionStore (joinPath bs.rootDir name) bs.cfg d with
              | (.error e,d) => (.error (.wrap "storage: broker store load %q" e),d)
              | (.ok ps,d) => loadPartitions (bs.put topic partition ps) names d

def openBrokerStore (rootDir : List Bytes) (cfg : SegmentConfig) (d : Disk) :
    Except Err BrokerStore × Disk :=
  match readDir rootDir d with
  | (.error e,d) => (.error (.wrap "storage: broker store scan %q" e),d)
  | (.ok names,d) => loadPartitions ⟨rootDir,cfg,∅⟩ names d

/-- Close every store and keep the first error. The map is visited in the order
of its entries, where the source leaves the order open, and is not used again. -/
def closeAll : List (Sigma fun _ : Bytes => PartitionStore) → Disk → Option Err × Disk
  | [],d => (none,d)
  | ⟨_,ps⟩::rest,d =>
      match ps.close d with
      | (r,_,d) =>
          match closeAll rest d with
          | (firstErr,d) => ((r.map fun e => .wrap "storage: close partition %q" e).or firstErr,d)

/-- The last component of a path; the root is its own. -/
def baseName (dir : List Bytes) : Bytes := dir.getLastD (ascii "/")

/-- The pairs that the directories of the stores spell, in the order of the
entries, where the source leaves the order open. -/
def BrokerStore.topics (bs : BrokerStore) : List TopicPartition :=
  bs.stores.entries.filterMap fun ⟨_,ps⟩ =>
    match partitionDirRe (baseName ps.dir) with
    | none => none
    | some (topic,digits) =>
        match parseInt32 digits with
        | none => none
        | some partition => some ⟨topic,partition⟩

def BrokerStore.close (bs : BrokerStore) (d : Disk) : Option Err × Disk :=
  closeAll bs.stores.entries d

section Facts
variable {bs : BrokerStore} {topic : Bytes} {partition : Int32} {ps : PartitionStore} {d : Disk}

theorem getOrCreatePartition_of_lookup
    (h : bs.stores.lookup (partitionKey topic partition) = some ps) :
    bs.getOrCreatePartition topic partition d = (.ok ps,bs,d) := by
  simp only [BrokerStore.getOrCreatePartition,h]

@[simp] theorem put_lookup (bs : BrokerStore) (topic : Bytes) (partition : Int32)
    (ps : PartitionStore) :
    (bs.put topic partition ps).stores.lookup (partitionKey topic partition) = some ps :=
  AList.lookup_insert _

theorem put_lookup_ne (bs : BrokerStore) {k : Bytes} (h : k ≠ partitionKey topic partition)
    (ps : PartitionStore) :
    (bs.put topic partition ps).stores.lookup k = bs.stores.lookup k :=
  AList.lookup_insert_ne h

/-- A store that was returned is in the map. -/
theorem lookup_of_ok {bs' : BrokerStore} {d' : Disk}
    (h : bs.getOrCreatePartition topic partition d = (.ok ps,bs',d')) :
    bs'.stores.lookup (partitionKey topic partition) = some ps := by
  unfold BrokerStore.getOrCreatePartition at h
  cases hl : bs.stores.lookup (partitionKey topic partition) with
  | some qs =>
      simp only [hl] at h
      cases h
      exact hl
  | none =>
      simp only [hl] at h
      split at h
      · cases h
      · split at h <;> cases h
        exact put_lookup _ _ _ _

end Facts

end Kage.BrokerStores
