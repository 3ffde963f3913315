import Kage.FaultyDisk

/-!
# Parsers over a byte stream

A parser takes the bytes a connection still delivers and either returns a value
with the bytes behind it, fails with an error, or takes the whole process down.
A fixed number of bytes is read in full or not at all: the end of the stream in
front of the first byte and inside the field are two different errors.

`remaining` forgets the value, and `Skips` says that a parser leaves what a
function of the stream alone says. It is closed under sequencing as long as
what follows does not depend on the values read so far. `Crashes` says on which
streams a parser takes the process down, and follows the same rules: a sequence
does so in its first part, or in the second on what the first one leaves.
-/
namespace Kage.StreamParsers
open ByteStrings FaultyDisk

inductive Outcome (α : Type) where
  | ok (value : α) (rest : Bytes)
  | error (e : Err)
  | panic
  deriving DecidableEq

def Parser (α : Type) := Bytes → Outcome α

variable {α β : Type}

instance : Monad Parser where
  pure a := fun s => .ok a s
  bind p f := fun s =>
    match p s with
    | .ok a rest => f a rest
    | .error e => .error e
    | .panic => .panic

namespace Parser

def fail (e : Err) : Parser α := fun _ => .error e

def crash : Parser α := fun _ => .panic

/-- The error of a parser with a text in front. -/
def context (text : String) (p : Parser α) : Parser α := fun s =>
  match p s with
  | .ok a rest => .ok a rest
  | .error e => .error (.wrap text e)
  | .panic => .panic

/-- Exactly `n` bytes. -/
def readFull (n : ℕ) : Parser {b : Bytes // b.length = n} := fun s =>
  if h : n ≤ s.length then .ok ⟨s.take n,List.length_take_of_le h⟩ (s.drop n)
  else .error (if s = [] then .eof else .unexpectedEOF)

/-- The same parser a number of times, with the values in order. -/
def times (p : Parser α) : ℕ → Parser (List α)
  | 0 => pure []
  | n+1 => do
      let a ← p
      let as ← times p n
      pure (a::as)

end Parser

/-- What a parser leaves of the stream if it returns a value. -/
def Outcome.remaining : Outcome α → Option Bytes
  | .ok _ rest => some rest
  | .error _ => none
  | .panic => none

@[simp] theorem remaining_ok (a : α) (s : Bytes) : (Outcome.ok a s).remaining = some s := rfl

@[simp] theorem remaining_error (e : Err) : (Outcome.error e : Outcome α).remaining = none := rfl

@[simp] theorem remaining_panic : (Outcome.panic : Outcome α).remaining = none := rfl

theorem remaining_eq_some {o : Outcome α} {s : Bytes} (h : o.remaining = some s) :
    ∃ a, o = .ok a s := by
  cases o with
  | ok a rest =>
      cases h
      exact ⟨a,rfl⟩
  | error e => cases h
  | panic => cases h

def Skips (p : Parser α) (k : Bytes → Option Bytes) : Prop := ∀ s, (p s).remaining = k s

theorem Skips.pure (a : α) : Skips (pure a) some := fun _ => rfl

theorem Skips.fail (e : Err) : Skips (Parser.fail e : Parser α) fun _ => none := fun _ => rfl

theorem Skips.crash : Skips (Parser.crash : Parser α) fun _ => none := fun _ => rfl

theorem bind_apply (p : Parser α) (f : α → Parser β) (s : Bytes) :
    (p >>= f) s = match p s with
      | .ok a rest => f a rest
      | .error e => .error e
      | .panic => .panic := rfl

theorem bind_ok {p : Parser α} {f : α → Parser β} {s rest : Bytes} {a : α} (h : p s = .ok a rest) :
    (p >>= f) s = f a rest := by
  rw [bind_apply,h]

theorem bind_error {p : Parser α} {f : α → Parser β} {s : Bytes} {e : Err} (h : p s = .error e) :
    (p >>= f) s = .error e := by
  rw [bind_apply,h]

/-- A value that a sequence returns comes from values of its parts. -/
theorem bind_eq_ok {p : Parser α} {f : α → Parser β} {s rest : Bytes} {b : β}
    (h : (p >>= f) s = .ok b rest) : ∃ a t, p s = .ok a t ∧ f a t = .ok b rest := by
  rw [bind_apply] at h
  cases hs : p s with
  | ok a t =>
      rw [hs] at h
      exact ⟨a,t,rfl,h⟩
  | error e =>
      rw [hs] at h
      cases h
  | panic =>
      rw [hs] at h
      cases h

theorem context_eq_ok {p : Parser α} {text : String} {s rest : Bytes} {a : α}
    (h : p.context text s = .ok a rest) : p s = .ok a rest := by
  unfold Parser.context at h
  cases hs : p s with
  | ok b t =>
      rw [hs] at h
      cases h
      rfl
  | error e =>
      rw [hs] at h
      cases h
  | panic =>
      rw [hs] at h
      cases h

theorem remaining_bind_none {p : Parser α} {f : α → Parser β} {s : Bytes}
    (h : (p s).remaining = none) : ((p >>= f) s).remaining = none := by
  rw [bind_apply]
  cases hs : p s with
  | ok a rest =>
      rw [hs] at h
      cases h
  | error e => rfl
  | panic => rfl

theorem Skips.bind {p : Parser α} {f : α → Parser β} {k l : Bytes → Option Bytes}
    (hp : Skips p k) (hf : ∀ a, Skips (f a) l) : Skips (p >>= f) fun s => (k s).bind l := by
  intro s
  change _ = (k s).bind l
  rw [← hp s]
  cases hs : (p s).remaining with
  | none => exact remaining_bind_none hs
  | some rest =>
      obtain ⟨a,ha⟩ := remaining_eq_some hs
      rw [bind_ok ha]
      exact hf a rest

theorem Skips.map {p : Parser α} {k : Bytes → Option Bytes} (hp : Skips p k) (g : α → β) :
    Skips (p >>= fun a => Pure.pure (g a)) k := by
  simpa only [Option.bind_fun_some] using hp.bind fun a => Skips.pure (g a)

theorem Skips.context {p : Parser α} {k : Bytes → Option Bytes} (hp : Skips p k) (text : String) :
    Skips (p.context text) k := by
  intro s
  rw [← hp s,Parser.context]
  cases p s with
  | ok a rest => rfl
  | error e => rfl
  | panic => rfl

/-- The stream behind `n` bytes, if it has that many. -/
def dropFull (n : ℕ) (s : Bytes) : Option Bytes := if n ≤ s.length then some (s.drop n) else none

@[simp] theorem dropFull_zero (s : Bytes) : dropFull 0 s = some s := by simp [dropFull]

theorem Skips.readFull (n : ℕ) : Skips (Parser.readFull n) (dropFull n) := by
  intro s
  by_cases h : n ≤ s.length
  · simp [Parser.readFull,dropFull,h]
  · simp [Parser.readFull,dropFull,h]

/-- A function on the stream a number of times. -/
def iterateSkip (k : Bytes → Option Bytes) : ℕ → Bytes → Option Bytes
  | 0,s => some s
  | n+1,s => (k s).bind (iterateSkip k n)

theorem Skips.times {p : Parser α} {k : Bytes → Option Bytes} (hp : Skips p k) (n : ℕ) :
    Skips (p.times n) (iterateSkip k n) := by
  induction n with
  | zero => exact Skips.pure []
  | succ n ih =>
      exact hp.bind fun a => ih.map fun as => a::as

/-! ## Values -/

/-- What holds of every value that a parser returns. -/
def Ensures (p : Parser α) (P : α → Prop) : Prop := ∀ s a rest, p s = .ok a rest → P a

theorem Ensures.pure {a : α} {P : α → Prop} (h : P a) : Ensures (Pure.pure a : Parser α) P := by
  intro s b rest hb
  cases hb
  exact h

theorem Ensures.bind {p : Parser α} {f : α → Parser β} {P : α → Prop} {Q : β → Prop}
    (hp : Ensures p P) (hf : ∀ a, P a → Ensures (f a) Q) : Ensures (p >>= f) Q := by
  intro s b rest hb
  obtain ⟨a,t,ha,hb⟩ := bind_eq_ok hb
  exact hf a (hp s a t ha) t b rest hb

/-- Nothing is asked of the first part. -/
theorem Ensures.seq {p : Parser α} {f : α → Parser β} {Q : β → Prop}
    (hf : ∀ a, Ensures (f a) Q) : Ensures (p >>= f) Q := by
  intro s b rest hb
  obtain ⟨a,t,-,hb⟩ := bind_eq_ok hb
  exact hf a t b rest hb

theorem Ensures.ite {c : Prop} [Decidable c] {p q : Parser α} {P : α → Prop} (hp : Ensures p P)
    (hq : Ensures q P) : Ensures (if c then p else q) P := by
  split
  · exact hp
  · exact hq

theorem Ensures.context {p : Parser α} {P : α → Prop} (hp : Ensures p P) (text : String) :
    Ensures (p.context text) P := fun s a rest h => hp s a rest (context_eq_ok h)

theorem Ensures.times {p : Parser α} {P : α → Prop} (hp : Ensures p P) (n : ℕ) :
    Ensures (p.times n) fun as => ∀ a ∈ as, P a := by
  induction n with
  | zero => exact .pure fun a ha => absurd ha List.not_mem_nil
  | succ n ih =>
      exact hp.bind fun a ha => ih.bind fun as has =>
        .pure (List.forall_mem_cons.mpr ⟨ha,has⟩)

/-! ## Crashes -/

/-- The streams on which a parser takes the process down. -/
def Crashes (p : Parser α) (q : Bytes → Prop) : Prop := ∀ s, p s = .panic ↔ q s

/-- Behind what a function takes off the stream. -/
def After (k : Bytes → Option Bytes) (q : Bytes → Prop) (s : Bytes) : Prop :=
  ∃ rest, k s = some rest ∧ q rest

theorem bind_eq_panic_iff {p : Parser α} {f : α → Parser β} {s : Bytes} :
    (p >>= f) s = .panic ↔ p s = .panic ∨ ∃ a rest, p s = .ok a rest ∧ f a rest = .panic := by
  rw [bind_apply]
  cases p s with
  | ok a rest => simp
  | error e => simp
  | panic => simp

theorem Crashes.bind {p : Parser α} {f : α → Parser β} {k : Bytes → Option Bytes}
    {q q' : Bytes → Prop} (hp : Crashes p q) (hk : Skips p k) (hf : ∀ a, Crashes (f a) q') :
    Crashes (p >>= f) fun s => q s ∨ After k q' s := by
  intro s
  rw [bind_eq_panic_iff,hp s]
  apply or_congr_right
  constructor
  · rintro ⟨a,rest,ha,hc⟩
    exact ⟨rest,by rw [← hk s,ha,remaining_ok],(hf a rest).mp hc⟩
  · rintro ⟨rest,hr,hq⟩
    rw [← hk s] at hr
    obtain ⟨a,ha⟩ := remaining_eq_some hr
    exact ⟨a,rest,ha,(hf a rest).mpr hq⟩

theorem Crashes.context {p : Parser α} {q : Bytes → Prop} (hp : Crashes p q) (text : String) :
    Crashes (p.context text) q := by
  intro s
  rw [← hp s,Parser.context]
  cases p s with
  | ok a rest => simp
  | error e => simp
  | panic => simp

theorem Crashes.times {p : Parser α} {k : Bytes → Option Bytes} {q : Bytes → Prop}
    (hp : Crashes p q) (hk : Skips p k) (n : ℕ) :
    Crashes (p.times n) fun s => ∃ j < n, After (iterateSkip k j) q s := by
  induction n with
  | zero =>
      intro s
      constructor
      · intro h
        cases h
      · rintro ⟨j,hj,-⟩
        omega
  | succ n ih =>
      have hpure : ∀ a, Crashes (p.times n >>= fun as => Pure.pure (a::as))
          fun s => ∃ j < n, After (iterateSkip k j) q s := by
        intro a s
        rw [bind_eq_panic_iff,ih s]
        apply or_iff_left
        rintro ⟨as,rest,-,h⟩
        cases h
      intro s
      refine (hp.bind hk hpure s).trans ?_
      constructor
      · rintro (h|⟨rest,hr,j,hj,t,ht,hq⟩)
        · exact ⟨0,Nat.succ_pos n,s,rfl,h⟩
        · exact ⟨j+1,Nat.succ_lt_succ hj,t,by rw [iterateSkip,hr,Option.bind_some,ht],hq⟩
      · rintro ⟨j,hj,t,ht,hq⟩
        cases j with
        | zero =>
            cases ht
            exact .inl hq
        | succ j =>
            obtain ⟨rest,hr,ht⟩ := Option.bind_eq_some_iff.mp ht
            exact .inr ⟨rest,hr,j,Nat.lt_of_succ_lt_succ hj,t,ht,hq⟩

/-- A parser that leaves what a function says and never takes the process down. -/
def Takes (p : Parser α) (k : Bytes → Option Bytes) : Prop := Skips p k ∧ ∀ s, p s ≠ .panic

theorem Takes.crashes {p : Parser α} {k : Bytes → Option Bytes} (h : Takes p k) :
    Crashes p fun _ => False := fun s => iff_of_false (h.2 s) id

theorem Takes.context {p : Parser α} {k : Bytes → Option Bytes} (h : Takes p k) (text : String) :
    Takes (p.context text) k := by
  refine ⟨h.1.context text,fun s hs => ?_⟩
  exact (h.crashes.context text s).mp hs

theorem Takes.map {p : Parser α} {k : Bytes → Option Bytes} (h : Takes p k) (g : α → β) :
    Takes (p >>= fun a => Pure.pure (g a)) k := by
  refine ⟨h.1.map g,fun s hs => ?_⟩
  rcases bind_eq_panic_iff.mp hs with hp|⟨a,rest,-,hp⟩
  · exact h.2 s hp
  · cases hp

theorem Takes.nothing (a : α) : Takes (Pure.pure a : Parser α) (dropFull 0) := by
  refine ⟨fun s => ?_,fun s hs => ?_⟩
  · rw [dropFull_zero]
    rfl
  · cases hs

theorem Takes.fail (e : Err) : Takes (Parser.fail e : Parser α) fun _ => none :=
  ⟨Skips.fail e,fun s hs => by cases hs⟩

theorem Takes.readFull (n : ℕ) : Takes (Parser.readFull n) (dropFull n) := by
  refine ⟨Skips.readFull n,fun s hs => ?_⟩
  unfold Parser.readFull at hs
  split at hs <;> cases hs

/-! ## Fields -/

/-- A parser that takes a field of a known width and reads a value off it. -/
def Reads {γ : Type} (p : Parser γ) (width : ℕ) (read : Bytes → γ) : Prop :=
  (∀ b rest : Bytes, b.length = width → p (b++rest) = .ok (read b) rest) ∧
    Skips p (dropFull width)

theorem Reads.readFull {γ : Type} (width : ℕ) (read : Bytes → γ) :
    Reads (Parser.readFull width >>= fun b => Pure.pure (read b.1)) width read := by
  constructor
  · intro b rest hb
    have hs : Parser.readFull width (b++rest) = .ok ⟨b,hb⟩ rest := by
      simp [Parser.readFull,← hb]
    exact bind_ok hs
  · exact (Skips.readFull width).map fun b => read b.1

theorem Reads.context {γ : Type} {p : Parser γ} {width : ℕ} {read : Bytes → γ}
    (hp : Reads p width read) (text : String) : Reads (p.context text) width read := by
  constructor
  · intro b rest hb
    rw [Parser.context,hp.1 b rest hb]
  · exact hp.2.context text

theorem Reads.of_ok {γ : Type} {p : Parser γ} {width : ℕ} {read : Bytes → γ}
    (hp : Reads p width read) {s rest : Bytes} {a : γ} (h : p s = .ok a rest) :
    a = read (s.take width) ∧ rest = s.drop width := by
  have hs : dropFull width s = some rest := by rw [← hp.2 s,h,remaining_ok]
  unfold dropFull at hs
  split at hs
  next hn =>
    have ho := hp.1 (s.take width) (s.drop width) (List.length_take_of_le hn)
    rw [List.take_append_drop,h] at ho
    cases ho
    exact ⟨rfl,rfl⟩
  next => cases hs

/-! ## Numbers -/

def toInt8 (b : Bytes) : Int8 := (UInt8.ofNat (uint b)).toInt8

def toInt16 (b : Bytes) : Int16 := (UInt16.ofNat (uint b)).toInt16

def toInt32 (b : Bytes) : Int32 := (UInt32.ofNat (uint b)).toInt32

def toInt64 (b : Bytes) : Int64 := (UInt64.ofNat (uint b)).toInt64

end Kage.StreamParsers
