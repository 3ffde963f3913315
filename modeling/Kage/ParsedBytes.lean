import Kage.StreamParsers

/-!
# The bytes behind a parsed value

`Returns` says that a parser reads a value off a given byte string, whatever
follows it. It is how a written value is read back: a sequence returns off the
joined bytes of its parts, and a counted parser off the joined bytes of the
elements.

`Exact` goes the other way. Whenever the parser returns a value, the value was
read off the bytes in front of the rest, and not all of them but the last would
have done: on a part of them the parser fails with an error. Both properties
are closed under sequencing, so a parser has them because its fields have.
-/
namespace Kage.ParsedBytes
open ByteStrings FaultyDisk StreamParsers

variable {α β γ : Type} {p : Parser α} {f : α → Parser β} {a : α} {x : β} {b c : Bytes}

/-- The parser returns this value off these bytes and leaves what is behind. -/
def Returns (p : Parser α) (b : Bytes) (a : α) : Prop := ∀ rest, p (b++rest) = .ok a rest

theorem Returns.pure (a : α) : Returns (Pure.pure a) [] a := fun _ => rfl

theorem Returns.bind (hp : Returns p b a) (hf : Returns (f a) c x) :
    Returns (p >>= f) (b++c) x := by
  intro rest
  rw [List.append_assoc,bind_ok (hp (c++rest))]
  exact hf rest

theorem Returns.map (hp : Returns p b a) (g : α → β) :
    Returns (p >>= fun a => Pure.pure (g a)) b (g a) := by
  intro rest
  rw [bind_ok (hp rest)]
  rfl

theorem Returns.context (hp : Returns p b a) (text : String) : Returns (p.context text) b a := by
  intro rest
  rw [Parser.context,hp rest]

theorem Returns.readFull {n : ℕ} (h : b.length = n) : Returns (Parser.readFull n) b ⟨b,h⟩ := by
  intro rest
  subst h
  simp [Parser.readFull]

/-- Elements that were written one behind the other. -/
theorem Returns.times {write : γ → Bytes} {value : γ → α} {cs : List γ}
    (h : ∀ c ∈ cs, Returns p (write c) (value c)) :
    Returns (p.times cs.length) (cs.flatMap write) (cs.map value) := by
  induction cs with
  | nil => exact Returns.pure []
  | cons c cs ih =>
      rw [List.forall_mem_cons] at h
      exact h.1.bind ((ih h.2).map fun as => value c::as)

/-- Every part of these bytes but the whole makes the parser fail. -/
def FailsInside (p : Parser α) (b : Bytes) : Prop :=
  ∀ c, c <+: b → c ≠ b → ∃ e, p c = .error e

/-- A value is read off the bytes in front of the rest, and needs all of them. -/
def Exact (p : Parser α) : Prop :=
  ∀ s a rest, p s = .ok a rest → ∃ b, s = b++rest ∧ Returns p b a ∧ FailsInside p b

theorem FailsInside.bind (hb : FailsInside p b) (ha : Returns p b a)
    (hc : FailsInside (f a) c) : FailsInside (p >>= f) (b++c) := by
  intro q hq hne
  rcases List.prefix_or_prefix_of_prefix hq (List.prefix_append b c) with hqb|⟨q',rfl⟩
  · by_cases hqb' : q = b
    · have hc' : ([] : Bytes) ≠ c := by
        rintro rfl
        exact hne (by rw [hqb',List.append_nil])
      obtain ⟨e,he⟩ := hc [] List.nil_prefix hc'
      refine ⟨e,?_⟩
      rw [hqb',← List.append_nil b,bind_ok (ha []),he]
    · obtain ⟨e,he⟩ := hb q hqb hqb'
      exact ⟨e,bind_error he⟩
  · obtain ⟨e,he⟩ := hc q' ((List.prefix_append_right_inj b).mp hq) fun h => hne (by rw [h])
    exact ⟨e,by rw [bind_ok (ha q'),he]⟩

theorem Exact.pure (a : α) : Exact (Pure.pure a) := by
  intro s a' rest h
  cases h
  refine ⟨[],rfl,Returns.pure a,fun c hc hne => ?_⟩
  exact absurd (List.prefix_nil.mp hc) hne

theorem Exact.fail (e : Err) : Exact (Parser.fail e : Parser α) := by
  intro s a rest h
  cases h

theorem Exact.crash : Exact (Parser.crash : Parser α) := by
  intro s a rest h
  cases h

theorem Exact.bind (hp : Exact p) (hf : ∀ a, Exact (f a)) : Exact (p >>= f) := by
  intro s x rest h
  obtain ⟨a,t,ha,hx⟩ := bind_eq_ok h
  obtain ⟨b,rfl,hb,hcut⟩ := hp s a t ha
  obtain ⟨c,rfl,hc,hcut'⟩ := hf a t x rest hx
  exact ⟨b++c,(List.append_assoc b c rest).symm,hb.bind hc,hcut.bind hb hcut'⟩

theorem Exact.map (hp : Exact p) (g : α → β) : Exact (p >>= fun a => Pure.pure (g a)) :=
  hp.bind fun a => Exact.pure (g a)

theorem Exact.context (hp : Exact p) (text : String) : Exact (p.context text) := by
  intro s a rest h
  obtain ⟨b,hs,hb,hcut⟩ := hp s a rest (context_eq_ok h)
  refine ⟨b,hs,hb.context text,fun c hc hne => ?_⟩
  obtain ⟨e,he⟩ := hcut c hc hne
  exact ⟨.wrap text e,by rw [Parser.context,he]⟩

theorem Exact.readFull (n : ℕ) : Exact (Parser.readFull n) := by
  intro s a rest h
  unfold Parser.readFull at h
  split at h
  next hn =>
    cases h
    have hl : (s.take n).length = n := List.length_take_of_le hn
    refine ⟨s.take n,(List.take_append_drop n s).symm,.readFull hl,fun c hc hne => ?_⟩
    have hlt : ¬n ≤ c.length := fun hle => hne (hc.eq_of_length_le (by rw [hl]; exact hle))
    exact ⟨_,by rw [Parser.readFull,dif_neg hlt]⟩
  next => cases h

theorem Exact.times (hp : Exact p) (n : ℕ) : Exact (p.times n) := by
  induction n with
  | zero => exact Exact.pure []
  | succ n ih => exact hp.bind fun a => ih.map fun as => a::as

theorem Exact.ite {q : Parser α} {cond : Prop} [Decidable cond] (hp : Exact p) (hq : Exact q) :
    Exact (if cond then p else q) := by
  split
  · exact hp
  · exact hq

end Kage.ParsedBytes
