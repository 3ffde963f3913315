import Kage.FaultyDisk
import Kage.DecimalText
import Kage.TextTrimming

/-!
# The configuration of the broker

The configuration has six fields with built-in defaults. A file of `key: value`
lines is laid over them, then the environment. Both go through `applyField`,
which reads the text of a value for one field and checks its range; a key that
is not the name of a field is passed over.

The environment is a table from variable names to values, empty where a variable
is unset. The source walks over a map of the six values, so the order of that
walk is an argument here. Durations are read by the standard library with
floating-point arithmetic; its function is an argument too, and nothing is
assumed about it. A file is its bytes, or nothing if it could not be opened.
-/
namespace Kage.ConfigLoading
open ByteStrings DecimalText FaultyDisk TextTrimming

inductive Field where
  | port
  | logDirectory
  | maxSegmentSize
  | workerPoolSize
  | shutdownTimeout
  | logRetention
  deriving DecidableEq, Repr

namespace Field

def all : List Field :=
  [port,logDirectory,maxSegmentSize,workerPoolSize,shutdownTimeout,logRetention]

/-- Durations are counted in nanoseconds. -/
def Value : Field → Type
  | port => Int64
  | logDirectory => Bytes
  | maxSegmentSize => Int64
  | workerPoolSize => Int64
  | shutdownTimeout => Int64
  | logRetention => Int64

/-- The name in the file, and the key of the map of environment values. -/
def key : Field → Bytes
  | port => ascii "port"
  | logDirectory => ascii "log_directory"
  | maxSegmentSize => ascii "max_segment_size"
  | workerPoolSize => ascii "worker_pool_size"
  | shutdownTimeout => ascii "shutdown_timeout"
  | logRetention => ascii "log_retention"

/-- The name of the environment variable. -/
def variableName : Field → Bytes
  | port => ascii "KAGE_PORT"
  | logDirectory => ascii "KAGE_LOG_DIRECTORY"
  | maxSegmentSize => ascii "KAGE_MAX_SEGMENT_SIZE"
  | workerPoolSize => ascii "KAGE_WORKER_POOL_SIZE"
  | shutdownTimeout => ascii "KAGE_SHUTDOWN_TIMEOUT"
  | logRetention => ascii "KAGE_LOG_RETENTION"

def ofKey (k : Bytes) : Option Field := all.find? fun f => decide (f.key = k)

end Field

structure Config where
  port : Int64
  logDirectory : Bytes
  maxSegmentSize : Int64
  workerPoolSize : Int64
  shutdownTimeout : Int64
  logRetention : Int64
  deriving DecidableEq, Repr

namespace Config

def get (c : Config) : ∀ f : Field, f.Value
  | .port => c.port
  | .logDirectory => c.logDirectory
  | .maxSegmentSize => c.maxSegmentSize
  | .workerPoolSize => c.workerPoolSize
  | .shutdownTimeout => c.shutdownTimeout
  | .logRetention => c.logRetention

def set (c : Config) : ∀ f : Field, f.Value → Config
  | .port,n => {c with port := n}
  | .logDirectory,s => {c with logDirectory := s}
  | .maxSegmentSize,n => {c with maxSegmentSize := n}
  | .workerPoolSize,n => {c with workerPoolSize := n}
  | .shutdownTimeout,t => {c with shutdownTimeout := t}
  | .logRetention,t => {c with logRetention := t}

end Config

def second : Int64 := 1000000000
def hour : Int64 := 3600*second

def defaults : Config where
  port := 9092
  logDirectory := ascii "/data"
  maxSegmentSize := 1073741824
  workerPoolSize := 10000
  shutdownTimeout := 10*second
  logRetention := 168*hour

/-- An optional sign, and whether it is a minus. -/
def sign (s : Bytes) : Bool × Bytes :=
  if s.head? = some 45 then (true,s.tail) else
  if s.head? = some 43 then (false,s.tail) else (false,s)

/-- A decimal number that fits in sixty-four signed bits. -/
def parseInt64 (s : Bytes) : Option Int64 :=
  let (negative,digits) := sign s
  if digits = [] ∨ ¬digits.all fun b => 48 ≤ b ∧ b ≤ 57 then none else
  let n := spell digits 0
  if negative then if n ≤ 2^63 then some (Int64.ofInt (-n)) else none
  else if n < 2^63 then some (Int64.ofNat n) else none

def parseInt (s : Bytes) (min max : Int64) : Except Err Int64 :=
  match parseInt64 s with
  | none => .error (.sentinel "not a valid integer: %q")
  | some n =>
      if n < min ∨ n > max then .error (.sentinel "value %d out of range [%d, %d]") else .ok n

section Reading
variable (parseDuration : Bytes → Except Err Int64)

def readDuration (negative : String) (val : Bytes) : Except Err Int64 :=
  match parseDuration val with
  | .error e => .error (.wrap "invalid duration %q" e)
  | .ok d => if d < 0 then .error (.sentinel negative) else .ok d

/-- What a text means for a field. -/
def Field.read : ∀ f : Field, Bytes → Except Err f.Value
  | .port,val => parseInt val 1 65535
  | .logDirectory,val => if val = [] then .error (.sentinel "must not be empty") else .ok val
  | .maxSegmentSize,val => parseInt val 1 1099511627776
  | .workerPoolSize,val => parseInt val 1 1048576
  | .shutdownTimeout,val => readDuration parseDuration "shutdown_timeout must be non-negative" val
  | .logRetention,val => readDuration parseDuration "log_retention must be non-negative" val

def applyField (cfg : Config) (key val : Bytes) : Except Err Config :=
  match Field.ofKey key with
  | none => .ok cfg
  | some f => (f.read parseDuration val).map (cfg.set f)

end Reading

/-- The UTF-8 encodings of white space. -/
def spaces : List Bytes :=
  [[9],[10],[11],[12],[13],[32],[194,133],[194,160],[225,154,128],[226,128,128],[226,128,129],
    [226,128,130],[226,128,131],[226,128,132],[226,128,133],[226,128,134],[226,128,135],
    [226,128,136],[226,128,137],[226,128,138],[226,128,168],[226,128,169],[226,128,175],
    [226,129,159],[227,128,128]]

def trimSpace (s : Bytes) : Bytes := trim spaces s

/-- Strip surrounding single or double quotes. -/
def unquote (val : Bytes) : Bytes :=
  if 2 ≤ val.length ∧ (val.head? = some 34 ∧ val.getLast? = some 34 ∨
      val.head? = some 39 ∧ val.getLast? = some 39) then
    val.tail.dropLast
  else val

/-- Strip an inline comment. -/
def uncomment (val : Bytes) : Bytes :=
  match cut 35 val with
  | none => val
  | some (before,_) => trimSpace before

/-- The key and the value of a line; empty lines, comments and lines without a
colon have none. -/
def splitLine (text : Bytes) : Option (Bytes × Bytes) :=
  let line := trimSpace text
  if line = [] ∨ line.head? = some 35 then none else
    match cut 58 line with
    | none => none
    | some (key,val) => some (trimSpace key,uncomment (unquote (trimSpace val)))

/-- The line scanner takes off a carriage return at the end of a line. -/
def dropCR (line : Bytes) : Bytes := if line.getLast? = some 13 then line.dropLast else line

/-- Lines of this length do not fit in the buffer of the scanner. -/
def maxScanTokenSize : ℕ := 64*1024

def ErrTooLong : Err := .sentinel "bufio.Scanner: token too long"

section Loading
variable (parseDuration : Bytes → Except Err Int64)

def scanLines : List Bytes → Config → Except Err Config
  | [],cfg => .ok cfg
  | line::rest,cfg =>
      if maxScanTokenSize ≤ line.length then .error ErrTooLong else
        match splitLine (dropCR line) with
        | none => scanLines rest cfg
        | some (key,val) =>
            match applyField parseDuration cfg key val with
            | .error e => .error (.wrap "line %d (%q)" e)
            | .ok cfg => scanLines rest cfg

def parseYAML (text : Bytes) (cfg : Config) : Except Err Config :=
  scanLines parseDuration (lines 10 text) cfg

/-- The map of environment values. -/
def vars (getenv : Bytes → Bytes) : List (Bytes × Bytes) :=
  Field.all.map fun f => (f.key,getenv f.variableName)

/-- The loop over the map, in the order of the list. -/
def applyEnv : List (Bytes × Bytes) → Config → Except Err Config
  | [],cfg => .ok cfg
  | (key,val)::rest,cfg =>
      if val = [] then applyEnv rest cfg else
        match applyField parseDuration cfg key val with
        | .error e => .error (.wrap "KAGE_%s=%q" e)
        | .ok cfg => applyEnv rest cfg

def Config.validate (c : Config) : Option Err :=
  if c.port < 1 ∨ c.port > 65535 then some (.sentinel "port %d out of range [1, 65535]") else
  if c.logDirectory = [] then some (.sentinel "log_directory must not be empty") else
  if c.maxSegmentSize < 1 then some (.sentinel "max_segment_size must be at least 1") else
  if c.workerPoolSize < 1 then some (.sentinel "worker_pool_size must be at least 1") else
  if c.shutdownTimeout < 0 then some (.sentinel "shutdown_timeout must be non-negative") else none

/-- The environment is given as the map of its values in the order of the walk. -/
def load (file : Option Bytes) (order : List (Bytes × Bytes)) : Except Err Config :=
  match file.elim (.ok defaults) fun text => parseYAML parseDuration text defaults with
  | .error e => .error (.wrap "config: parse %s" e)
  | .ok cfg =>
      match applyEnv parseDuration order cfg with
      | .error e => .error (.wrap "config: env" e)
      | .ok cfg =>
          match cfg.validate with
          | some e => .error (.wrap "config: invalid" e)
          | none => .ok cfg

end Loading

def Within (min max n : Int64) : Prop := min ≤ n ∧ n ≤ max

instance (min max n : Int64) : Decidable (Within min max n) := inferInstanceAs (Decidable (_ ∧ _))

/-- The range of a field. -/
def Field.InRange : ∀ f : Field, f.Value → Prop
  | .port,n => Within 1 65535 n
  | .logDirectory,s => s ≠ ([] : Bytes)
  | .maxSegmentSize,n => Within 1 1099511627776 n
  | .workerPoolSize,n => Within 1 1048576 n
  | .shutdownTimeout,t => (0 : Int64) ≤ t
  | .logRetention,t => (0 : Int64) ≤ t

theorem Field.ofKey_key (f : Field) : Field.ofKey f.key = some f := by
  cases f <;> decide

theorem Field.mem_all (f : Field) : f ∈ Field.all := by
  cases f <;> decide

namespace Config

/-- Setting a field writes it and leaves the others alone. -/
theorem get_set (c : Config) (f : Field) (v : f.Value) :
    (c.set f v).get = Function.update c.get f v := by
  funext g
  by_cases h : g = f
  · subst h
    rw [Function.update_self]
    cases g <;> rfl
  · rw [Function.update_of_ne h]
    cases f <;> cases g <;> first | rfl | exact (h rfl).elim

theorem get_injective : Function.Injective Config.get := by
  intro a b h
  have hf (f : Field) : a.get f = b.get f := congrFun h f
  cases a
  cases b
  simp only [mk.injEq]
  exact ⟨hf .port,hf .logDirectory,hf .maxSegmentSize,hf .workerPoolSize,hf .shutdownTimeout,
    hf .logRetention⟩

end Config

theorem parseInt_inRange {s : Bytes} {min max n : Int64} (h : parseInt s min max = .ok n) :
    Within min max n := by
  unfold parseInt at h
  split at h
  · cases h
  · split at h
    · cases h
    · rename_i hr
      cases h
      rw [not_or] at hr
      exact ⟨Int64.not_lt.mp hr.1,Int64.not_lt.mp hr.2⟩

theorem readDuration_nonneg {parseDuration : Bytes → Except Err Int64} {negative : String}
    {val : Bytes} {t : Int64} (h : readDuration parseDuration negative val = .ok t) : 0 ≤ t := by
  unfold readDuration at h
  split at h
  · cases h
  · split at h
    · cases h
    · rename_i hr
      cases h
      exact Int64.not_lt.mp hr

theorem Field.read_inRange {parseDuration : Bytes → Except Err Int64} {f : Field} {val : Bytes}
    {v : f.Value} (h : f.read parseDuration val = .ok v) : f.InRange v := by
  cases f with
  | port => exact parseInt_inRange h
  | logDirectory =>
      simp only [Field.read] at h
      split at h
      · cases h
      · rename_i hv
        cases h
        exact hv
  | maxSegmentSize => exact parseInt_inRange h
  | workerPoolSize => exact parseInt_inRange h
  | shutdownTimeout => exact readDuration_nonneg h
  | logRetention => exact readDuration_nonneg h

theorem defaults_inRange (f : Field) : f.InRange (defaults.get f) := by
  cases f with
  | logDirectory => exact List.cons_ne_nil _ _
  | port => exact (by decide : Within 1 65535 defaults.port)
  | maxSegmentSize => exact (by decide : Within 1 1099511627776 defaults.maxSegmentSize)
  | workerPoolSize => exact (by decide : Within 1 1048576 defaults.workerPoolSize)
  | shutdownTimeout => exact (by decide : 0 ≤ defaults.shutdownTimeout)
  | logRetention => exact (by decide : 0 ≤ defaults.logRetention)

/-- A configuration within its ranges passes the final check. -/
theorem Config.validate_eq_none {c : Config} (h : ∀ f : Field, f.InRange (c.get f)) :
    c.validate = none := by
  have hport : Within 1 65535 c.port := h .port
  have hdir : c.logDirectory ≠ [] := h .logDirectory
  have hsize : Within 1 1099511627776 c.maxSegmentSize := h .maxSegmentSize
  have hpool : Within 1 1048576 c.workerPoolSize := h .workerPoolSize
  have htime : 0 ≤ c.shutdownTimeout := h .shutdownTimeout
  unfold Config.validate
  rw [if_neg,if_neg hdir,if_neg (Int64.not_lt.mpr hsize.1),if_neg (Int64.not_lt.mpr hpool.1),
    if_neg (Int64.not_lt.mpr htime)]
  rw [not_or]
  exact ⟨Int64.not_lt.mpr hport.1,Int64.not_lt.mpr hport.2⟩

end Kage.ConfigLoading
