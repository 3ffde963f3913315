import Kage.StreamParsers

/-!
# Layouts of binary messages

A layout lists the fields of a message: numbers of a fixed width, strings with a
sixteen-bit length, byte blocks with a thirty-two-bit length and arrays with a
thirty-two-bit count. Lengths and counts are signed. A negative length stands
for nothing at all where the layout admits it, and an array has a largest count.

`Spells` says which byte strings have a layout, with no stream in sight. `skip`
walks over one at the front of a stream, and `skip_eq_some_iff` says that it
stops exactly behind it. A layout therefore has at most one instance at the
front of a stream. `Spans` ties a parser to a layout: it returns a value exactly
on the streams that begin with an instance, and leaves what is behind.

A parser may also trust the counts of its arrays. `Stumbles` says that walking
over a layout comes to a negative count in front of an array without a limit of
its own, and `Walks` that a parser spans a layout and takes the process down
exactly on the streams where that happens.
-/
namespace Kage.WireLayouts
open ByteStrings FaultyDisk StreamParsers

inductive Layout where
  | done
  | field (width : ℕ) (next : Layout)
  | string (next : Layout)
  | blob (negative : Bool) (next : Layout)
  | array (limit : ℕ) (element next : Layout)
  deriving DecidableEq, Repr

/-- How many bytes or elements a signed length stands for. -/
def size16 (b : Bytes) : ℕ := (toInt16 b).toInt.toNat

def size32 (b : Bytes) : ℕ := (toInt32 b).toInt.toNat

/-- Two parts one after the other. -/
def Joined (P Q : Bytes → Prop) (b : Bytes) : Prop := ∃ x y, b = x++y ∧ P x ∧ Q y

/-- A head of a known width and a rest that depends on it. -/
def Headed (width : ℕ) (Q : Bytes → Bytes → Prop) (b : Bytes) : Prop :=
  ∃ x y, b = x++y ∧ x.length = width ∧ Q x y

/-- A number of parts of one kind. -/
def Listed (n : ℕ) (P : Bytes → Prop) (b : Bytes) : Prop :=
  ∃ es : List Bytes, b = es.flatten ∧ es.length = n ∧ ∀ e ∈ es, P e

/-- The byte strings of a layout. -/
def Spells : Layout → Bytes → Prop
  | .done,b => b = []
  | .field width next,b => Joined (fun x => x.length = width) (Spells next) b
  | .string next,b => Joined (Headed 2 fun x y => y.length = size16 x) (Spells next) b
  | .blob negative next,b =>
      Joined (Headed 4 fun x y => (negative = true ∨ 0 ≤ toInt32 x) ∧ y.length = size32 x)
        (Spells next) b
  | .array limit element next,b =>
      Joined (Headed 4 fun x y => (0 ≤ toInt32 x ∧ size32 x ≤ limit) ∧
        Listed (size32 x) (Spells element) y) (Spells next) b

/-- A head of a known width, and behind it what it asks for. -/
def skipHeaded (width : ℕ) (l : Bytes → Bytes → Option Bytes) (s : Bytes) : Option Bytes :=
  (dropFull width s).bind (l (s.take width))

def skipString : Bytes → Option Bytes := skipHeaded 2 fun x => dropFull (size16 x)

def skipBlob (negative : Bool) : Bytes → Option Bytes :=
  skipHeaded 4 fun x s =>
    if negative = true ∨ 0 ≤ toInt32 x then dropFull (size32 x) s else none

def skipArray (limit : ℕ) (k : Bytes → Option Bytes) : Bytes → Option Bytes :=
  skipHeaded 4 fun x s =>
    if 0 ≤ toInt32 x ∧ size32 x ≤ limit then iterateSkip k (size32 x) s else none

/-- The stream behind an instance of a layout. -/
def skip : Layout → Bytes → Option Bytes
  | .done,s => some s
  | .field width next,s => (dropFull width s).bind (skip next)
  | .string next,s => (skipString s).bind (skip next)
  | .blob negative next,s => (skipBlob negative s).bind (skip next)
  | .array limit element next,s => (skipArray limit (skip element) s).bind (skip next)

/-! ## Walking over a layout -/

/-- A function on the stream that cuts a part of one kind off its front. -/
def Cuts (k : Bytes → Option Bytes) (P : Bytes → Prop) : Prop :=
  ∀ s rest, k s = some rest ↔ ∃ b, s = b++rest ∧ P b

theorem cuts_some : Cuts some fun b => b = [] := by
  intro s rest
  constructor
  · intro h
    cases h
    exact ⟨[],rfl,rfl⟩
  · rintro ⟨b,hs,hb⟩
    rw [hs,hb,List.nil_append]

theorem cuts_dropFull (n : ℕ) : Cuts (dropFull n) fun b => b.length = n := by
  intro s rest
  unfold dropFull
  constructor
  · intro h
    split at h
    next hn =>
      cases h
      exact ⟨s.take n,(List.take_append_drop n s).symm,List.length_take_of_le hn⟩
    next => cases h
  · rintro ⟨b,hs,hb⟩
    rw [hs,← hb,if_pos (by simp),List.drop_left]

theorem Cuts.bind {k l : Bytes → Option Bytes} {P Q : Bytes → Prop} (hk : Cuts k P)
    (hl : Cuts l Q) : Cuts (fun s => (k s).bind l) (Joined P Q) := by
  intro s rest
  constructor
  · intro h
    obtain ⟨t,ht,hr⟩ := Option.bind_eq_some_iff.mp h
    obtain ⟨x,hx,hP⟩ := (hk s t).mp ht
    obtain ⟨y,hy,hQ⟩ := (hl t rest).mp hr
    exact ⟨x++y,by rw [hx,hy,List.append_assoc],x,y,rfl,hP,hQ⟩
  · rintro ⟨b,hs,x,y,hb,hP,hQ⟩
    have hx : k s = some (y++rest) := (hk _ _).mpr ⟨x,by rw [hs,hb,List.append_assoc],hP⟩
    have hy : l (y++rest) = some rest := (hl _ _).mpr ⟨y,rfl,hQ⟩
    simp only [hx,Option.bind_some,hy]

theorem Cuts.headed {l : Bytes → Bytes → Option Bytes} {Q : Bytes → Bytes → Prop} {width : ℕ}
    (hl : ∀ x, Cuts (l x) (Q x)) : Cuts (skipHeaded width l) (Headed width Q) := by
  intro s rest
  constructor
  · intro h
    obtain ⟨t,ht,hr⟩ := Option.bind_eq_some_iff.mp h
    obtain ⟨x,hs,hx⟩ := (cuts_dropFull width s t).mp ht
    rw [hs,List.take_left' hx] at hr
    obtain ⟨y,hy,hQ⟩ := (hl x t rest).mp hr
    exact ⟨x++y,by rw [hs,hy,List.append_assoc],x,y,rfl,hx,hQ⟩
  · rintro ⟨b,hs,x,y,hb,hx,hQ⟩
    have hs' : s = x++(y++rest) := by rw [hs,hb,List.append_assoc]
    have ht : dropFull width s = some (y++rest) := (cuts_dropFull width _ _).mpr ⟨x,hs',hx⟩
    have hy : l x (y++rest) = some rest := (hl x _ _).mpr ⟨y,rfl,hQ⟩
    rw [skipHeaded,ht,hs',List.take_left' hx,Option.bind_some,hy]

theorem Cuts.guard {k : Bytes → Option Bytes} {P : Bytes → Prop} (hk : Cuts k P) (c : Prop)
    [Decidable c] : Cuts (fun s => if c then k s else none) fun b => c ∧ P b := by
  intro s rest
  by_cases hc : c
  · simpa [hc] using hk s rest
  · simp [hc]

theorem Cuts.iterate {k : Bytes → Option Bytes} {P : Bytes → Prop} (hk : Cuts k P) (n : ℕ) :
    Cuts (iterateSkip k n) (Listed n P) := by
  induction n with
  | zero =>
      intro s rest
      constructor
      · intro h
        cases h
        exact ⟨[],rfl,[],rfl,rfl,by simp⟩
      · rintro ⟨b,hs,es,hb,hn,-⟩
        rw [List.length_eq_zero_iff] at hn
        rw [hs,hb,hn]
        rfl
  | succ n ih =>
      intro s rest
      have h := hk.bind ih s rest
      constructor
      · intro hs
        obtain ⟨b,hb,x,y,hxy,hP,es,hy,hn,he⟩ := h.mp hs
        refine ⟨b,hb,x::es,by rw [hxy,hy,List.flatten_cons],by rw [List.length_cons,hn],?_⟩
        intro e hm
        cases List.mem_cons.mp hm with
        | inl hx => rw [hx]; exact hP
        | inr hx => exact he e hx
      · rintro ⟨b,hb,es,hes,hn,he⟩
        cases es with
        | nil => cases hn
        | cons e es =>
            apply h.mpr
            exact ⟨b,hb,e,es.flatten,by rw [hes,List.flatten_cons],he e (by simp),
              es,rfl,Nat.succ.inj hn,fun x hx => he x (List.mem_cons_of_mem _ hx)⟩

theorem cuts_skip (L : Layout) : Cuts (skip L) (Spells L) := by
  induction L with
  | done => exact cuts_some
  | field width next ih => exact (cuts_dropFull width).bind ih
  | string next ih => exact (Cuts.headed fun x => cuts_dropFull (size16 x)).bind ih
  | blob negative next ih =>
      exact (Cuts.headed fun x => (cuts_dropFull (size32 x)).guard _).bind ih
  | array limit element next he ih =>
      exact (Cuts.headed fun x => (he.iterate (size32 x)).guard _).bind ih

/-- Skipping stops exactly behind an instance of the layout. -/
theorem skip_eq_some_iff {L : Layout} {s rest : Bytes} :
    skip L s = some rest ↔ ∃ b, s = b++rest ∧ Spells L b := cuts_skip L s rest

theorem skip_append {L : Layout} {b : Bytes} (h : Spells L b) (rest : Bytes) :
    skip L (b++rest) = some rest := skip_eq_some_iff.mpr ⟨b,rfl,h⟩

theorem spells_iff_skip {L : Layout} {b : Bytes} : Spells L b ↔ skip L b = some [] := by
  rw [skip_eq_some_iff]
  simp

instance (L : Layout) (b : Bytes) : Decidable (Spells L b) :=
  decidable_of_iff _ spells_iff_skip.symm

/-- An instance at the front of a stream is found wherever it ends. -/
theorem skip_append_eq_iff {L : Layout} {b rest : Bytes} :
    skip L (b++rest) = some rest ↔ Spells L b := by
  rw [skip_eq_some_iff]
  constructor
  · rintro ⟨c,hc,h⟩
    rwa [List.append_cancel_right hc]
  · intro h
    exact ⟨b,rfl,h⟩

/-! ## Parsers of a layout -/

/-- A parser that returns exactly on the instances of a layout. -/
def Spans {α : Type} (p : Parser α) (L : Layout) : Prop := Skips p (skip L)

variable {α β : Type} {p : Parser α} {f : α → Parser β} {L element : Layout}

theorem Spans.pure (a : α) : Spans (pure a) .done := Skips.pure a

theorem Spans.field {width : ℕ} (hp : Skips p (dropFull width)) (hf : ∀ a, Spans (f a) L) :
    Spans (p >>= f) (.field width L) := hp.bind hf

theorem Spans.string (hp : Skips p skipString) (hf : ∀ a, Spans (f a) L) :
    Spans (p >>= f) (.string L) := hp.bind hf

theorem Spans.blob {negative : Bool} (hp : Skips p (skipBlob negative))
    (hf : ∀ a, Spans (f a) L) : Spans (p >>= f) (.blob negative L) := hp.bind hf

theorem Spans.array {limit : ℕ} (hp : Skips p (skipArray limit (skip element)))
    (hf : ∀ a, Spans (f a) L) : Spans (p >>= f) (.array limit element L) := hp.bind hf

theorem Spans.lastField {width : ℕ} (hp : Skips p (dropFull width)) :
    Spans p (.field width .done) := by
  intro s
  simpa only [skip,Option.bind_fun_some] using hp s

theorem Spans.lastString (hp : Skips p skipString) : Spans p (.string .done) := by
  intro s
  simpa only [skip,Option.bind_fun_some] using hp s

/-- A number that says how the stream goes on. -/
theorem skips_headed {γ : Type} {p : Parser γ} {width : ℕ} {read : Bytes → γ}
    {g : γ → Parser β} {l : Bytes → Bytes → Option Bytes} (hp : Reads p width read)
    (hg : ∀ x, Skips (g (read x)) (l x)) : Skips (p >>= g) (skipHeaded width l) := by
  intro s
  unfold skipHeaded
  by_cases h : width ≤ s.length
  · have hs : p s = .ok (read (s.take width)) (s.drop width) := by
      simpa only [List.take_append_drop] using
        hp.1 (s.take width) (s.drop width) (List.length_take_of_le h)
    rw [bind_ok hs,dropFull,if_pos h]
    exact hg _ _
  · have hn : dropFull width s = none := if_neg h
    rw [hn]
    apply remaining_bind_none
    rw [hp.2 s,hn]

/-! ## Counts that are not checked -/

/-- A count that is negative where the limit is `free`, or something that happens
in one of the elements behind it. -/
def CountStumbles (free limit : ℕ) (k : Bytes → Option Bytes) (q : Bytes → Prop)
    (x s : Bytes) : Prop :=
  (limit = free ∧ toInt32 x < 0) ∨
    ((0 ≤ toInt32 x ∧ size32 x ≤ limit) ∧ ∃ j < size32 x, After (iterateSkip k j) q s)

/-- The same for a stream that begins with the count. -/
def ArrayStumbles (free limit : ℕ) (k : Bytes → Option Bytes) (q : Bytes → Prop) (s : Bytes) :
    Prop :=
  4 ≤ s.length ∧ CountStumbles free limit k q (s.take 4) (s.drop 4)

/-- Walking over a layout comes to a negative count of an array with the limit
`free`. -/
def Stumbles (free : ℕ) : Layout → Bytes → Prop
  | .done,_ => False
  | .field width next,s => After (dropFull width) (Stumbles free next) s
  | .string next,s => After skipString (Stumbles free next) s
  | .blob negative next,s => After (skipBlob negative) (Stumbles free next) s
  | .array limit element next,s =>
      ArrayStumbles free limit (skip element) (Stumbles free element) s ∨
        After (skipArray limit (skip element)) (Stumbles free next) s

/-- A parser that returns on the instances of a layout and takes the process
down at a negative count of an array with the limit `free`. -/
def Walks {α : Type} (free : ℕ) (p : Parser α) (L : Layout) : Prop :=
  Spans p L ∧ Crashes p (Stumbles free L)

section Walks
variable {free : ℕ} {k : Bytes → Option Bytes}

theorem Walks.pure (a : α) : Walks free (pure a) .done := by
  refine ⟨.pure a,fun s => iff_of_false (fun h => ?_) id⟩
  cases h

theorem crashes_after (hp : Takes p k) {q : Bytes → Prop} (hf : ∀ a, Crashes (f a) q) :
    Crashes (p >>= f) (After k q) := by
  intro s
  exact (hp.crashes.bind hp.1 hf s).trans (or_iff_right id)

theorem Walks.field {width : ℕ} (hp : Takes p (dropFull width)) (hf : ∀ a, Walks free (f a) L) :
    Walks free (p >>= f) (.field width L) :=
  ⟨.field hp.1 fun a => (hf a).1,crashes_after hp fun a => (hf a).2⟩

theorem Walks.string (hp : Takes p skipString) (hf : ∀ a, Walks free (f a) L) :
    Walks free (p >>= f) (.string L) :=
  ⟨.string hp.1 fun a => (hf a).1,crashes_after hp fun a => (hf a).2⟩

theorem Walks.blob {negative : Bool} (hp : Takes p (skipBlob negative))
    (hf : ∀ a, Walks free (f a) L) : Walks free (p >>= f) (.blob negative L) :=
  ⟨.blob hp.1 fun a => (hf a).1,crashes_after hp fun a => (hf a).2⟩

/-- A parser of an array: what it leaves, and where it takes the process down. -/
def WalksArray (free : ℕ) (p : Parser α) (limit : ℕ) (element : Layout) : Prop :=
  Skips p (skipArray limit (skip element)) ∧
    Crashes p (ArrayStumbles free limit (skip element) (Stumbles free element))

theorem Walks.array {limit : ℕ} (hp : WalksArray free p limit element)
    (hf : ∀ a, Walks free (f a) L) : Walks free (p >>= f) (.array limit element L) :=
  ⟨.array hp.1 fun a => (hf a).1,hp.2.bind hp.1 fun a => (hf a).2⟩

theorem Walks.lastField {width : ℕ} (hp : Takes p (dropFull width)) :
    Walks free p (.field width .done) := by
  refine ⟨.lastField hp.1,fun s => iff_of_false (hp.2 s) ?_⟩
  rintro ⟨rest,-,h⟩
  exact h

theorem Walks.lastString (hp : Takes p skipString) : Walks free p (.string .done) := by
  refine ⟨.lastString hp.1,fun s => iff_of_false (hp.2 s) ?_⟩
  rintro ⟨rest,-,h⟩
  exact h

/-- A count and a parser that it chooses. -/
theorem crashes_headed {γ : Type} {p : Parser γ} {width : ℕ} {read : Bytes → γ}
    {g : γ → Parser β} {q : Bytes → Bytes → Prop} (hp : Reads p width read)
    (ht : ∀ s, p s ≠ .panic) (hg : ∀ x, Crashes (g (read x)) (q x)) :
    Crashes (p >>= g) fun s => width ≤ s.length ∧ q (s.take width) (s.drop width) := by
  intro s
  by_cases h : width ≤ s.length
  · have hs : p s = .ok (read (s.take width)) (s.drop width) := by
      simpa only [List.take_append_drop] using
        hp.1 (s.take width) (s.drop width) (List.length_take_of_le h)
    rw [bind_ok hs,hg]
    exact (and_iff_right h).symm
  · refine iff_of_false (fun hc => ?_) fun hc => h hc.1
    rcases bind_eq_panic_iff.mp hc with hx|⟨a,rest,ha,-⟩
    · exact ht s hx
    · have hn : dropFull width s = some rest := by rw [← hp.2 s,ha,remaining_ok]
      rw [dropFull,if_neg h] at hn
      cases hn

/-- A number that says how the stream goes on, without harm either way. -/
theorem takes_headed {γ : Type} {p : Parser γ} {width : ℕ} {read : Bytes → γ}
    {g : γ → Parser β} {l : Bytes → Bytes → Option Bytes} (hp : Reads p width read)
    (ht : ∀ s, p s ≠ .panic) (hg : ∀ x, Takes (g (read x)) (l x)) :
    Takes (p >>= g) (skipHeaded width l) := by
  refine ⟨skips_headed hp fun x => (hg x).1,fun s hs => ?_⟩
  exact ((crashes_headed hp ht fun x => (hg x).crashes) s).mp hs |>.2

end Walks

end Kage.WireLayouts
