import Kage.FaultyDisk

/-!
# A buffered writer in front of an append-only file

Small writes are collected in a buffer of fixed capacity. A write that does not
fit first fills the buffer and flushes it; what is then still longer than the
buffer goes straight to the file. The loop of the original runs at most twice,
since after the first pass the buffer is empty, and is written out as those two
passes. The first failed call is remembered and answers every later call.

The one fact everything above needs is that bytes are passed on in order.
`write_spec` says it for every outcome of the calls below, including the bytes
a failed call drops, and `write_healthy` is the case without failures.
-/
namespace Kage.BufferedWriter
open ByteStrings FaultyDisk

structure Writer where
  capacity : ℕ
  buf : Bytes := []
  err : Option Err := none
  deriving DecidableEq, Repr

namespace Writer

def available (w : Writer) : ℕ := w.capacity-w.buf.length

/-- Hand the buffer to the file. On failure the bytes that did not go through
stay at the front of the buffer. -/
def flush (w : Writer) (f : File) (d : Disk) : Option Err × Writer × Disk :=
  match w.err with
  | some e => (some e,w,d)
  | none =>
      if w.buf = [] then (none,w,d) else
        match f.write w.buf d with
        | (n,some e,d) => (some e,{w with buf := w.buf.drop n, err := some e},d)
        | (_,none,d) => (none,{w with buf := []},d)

/-- A large write with an empty buffer is not copied. -/
def writeThrough (w : Writer) (f : File) (p : Bytes) (d : Disk) : Option Err × Writer × Disk :=
  match f.write p d with
  | (_,some e,d) => (some e,{w with err := some e},d)
  | (_,none,d) => (none,w,d)

def write (w : Writer) (f : File) (p : Bytes) (d : Disk) : Option Err × Writer × Disk :=
  match w.err with
  | some e => (some e,w,d)
  | none =>
      if p.length ≤ w.available then (none,{w with buf := w.buf++p},d) else
      if w.buf = [] then w.writeThrough f p d else
        match flush {w with buf := w.buf++p.take w.available} f d with
        | (some e,v,d) => (some e,v,d)
        | (none,v,d) =>
            let rest := p.drop w.available
            if rest.length ≤ v.capacity then (none,{v with buf := v.buf++rest},d)
            else v.writeThrough f rest d

end Writer

/-- The file behind `f` received exactly `out` between the two disks. -/
def Received (f : File) (out : Bytes) (d e : Disk) : Prop :=
  e.files = (d.appendTo f.path out).files ∧ e.dirs = d.dirs

section Spec
variable {f : File} {out : Bytes} {d e : Disk}

theorem Received.lookup_ne (h : Received f out d e) {q : Path} (hq : q ≠ f.path) :
    e.files.lookup q = d.files.lookup q := by
  rw [h.1,Disk.lookup_appendTo_ne hq]

theorem Received.mem (h : Received f out d e) (q : Path) : q ∈ e.files ↔ q ∈ d.files := by
  rw [h.1,Disk.mem_appendTo]

theorem Received.content (h : Received f out d e) (hp : f.path ∈ d.files) :
    e.content f.path = d.content f.path++out := by
  rw [← Disk.content_appendTo_self hp,Disk.content,Disk.content,h.1]

theorem Received.only (h : Received f out d e) : OnlyTouches f.path d e :=
  ⟨fun _ hq => h.lookup_ne hq,h.2⟩

theorem Received.none (f : File) (d : Disk) : Received f [] d d := by
  rw [Received,Disk.appendTo_nil]
  exact ⟨rfl,rfl⟩

theorem Received.trans {d₁ d₂ d₃ : Disk} {a b : Bytes} (h : Received f a d₁ d₂)
    (k : Received f b d₂ d₃) : Received f (a++b) d₁ d₃ := by
  refine ⟨?_,k.2.trans h.2⟩
  rw [k.1,← Disk.appendTo_appendTo]
  exact Disk.appendTo_files_congr h.1 f.path b

/-- A single call passes on some first part of its argument. -/
theorem file_write_spec (f : File) (b : Bytes) (d : Disk) :
    Received f (b.take (f.write b d).1) d (f.write b d).2.2 ∧
      ((f.write b d).2.1 = none → (f.write b d).1 = b.length) := by
  unfold File.write
  split
  · simpa using Received.none f d
  · rcases hn : d.next with ⟨o,d₁⟩
    have h₁ : d₁ = d.next.2 := by rw [hn]
    have hf : d₁.files = d.files := by rw [h₁]; rfl
    have hr : d₁.dirs = d.dirs := by rw [h₁]; rfl
    cases o with
    | none =>
        refine ⟨⟨?_,by simpa using hr⟩,fun _ => rfl⟩
        rw [List.take_length]
        exact Disk.appendTo_files_congr hf f.path b
    | some k =>
        refine ⟨⟨?_,by simpa using hr⟩,fun h => by simp at h⟩
        have ht : b.take (min k b.length) = b.take k := by
          rw [← List.take_take,List.take_length]
        simp only [ht]
        exact Disk.appendTo_files_congr hf f.path _

end Spec

namespace Writer
variable {w v : Writer} {f : File} {p : Bytes} {d e : Disk} {r : Option Err}

theorem flush_spec (h : w.flush f d = (r,v,e)) :
    v.capacity = w.capacity ∧ v.err = r ∧
      ∃ out, w.buf = out++v.buf ∧ Received f out d e ∧ (r = none → v.buf = []) := by
  unfold flush at h
  cases he : w.err with
  | some x =>
      simp only [he,Prod.mk.injEq] at h
      obtain ⟨rfl,rfl,rfl⟩ := h
      exact ⟨rfl,he,[],rfl,Received.none f d,by simp⟩
  | none =>
      simp only [he] at h
      split at h
      · rename_i hb
        simp only [Prod.mk.injEq] at h
        obtain ⟨rfl,rfl,rfl⟩ := h
        exact ⟨rfl,he,[],rfl,Received.none f d,fun _ => hb⟩
      · have hw := file_write_spec f w.buf d
        rcases hx : f.write w.buf d with ⟨n,x,d₁⟩
        rw [hx] at hw h
        cases x with
        | none =>
            simp only [Prod.mk.injEq] at h
            obtain ⟨rfl,rfl,rfl⟩ := h
            have hn : n = w.buf.length := hw.2 rfl
            refine ⟨rfl,rfl,w.buf,by simp,?_,fun _ => rfl⟩
            simpa [hn] using hw.1
        | some x =>
            simp only [Prod.mk.injEq] at h
            obtain ⟨rfl,rfl,rfl⟩ := h
            exact ⟨rfl,rfl,w.buf.take n,by simp,hw.1,by simp⟩

theorem writeThrough_spec (h : w.writeThrough f p d = (r,v,e)) (hw : w.err = none) :
    v.capacity = w.capacity ∧ v.err = r ∧ v.buf = w.buf ∧
      ∃ out lost, p = out++lost ∧ Received f out d e ∧ (r = none → lost = []) := by
  have hs := file_write_spec f p d
  unfold writeThrough at h
  rcases hx : f.write p d with ⟨n,x,d₁⟩
  rw [hx] at hs h
  cases x with
  | none =>
      simp only [Prod.mk.injEq] at h
      obtain ⟨rfl,rfl,rfl⟩ := h
      have hn : n = p.length := hs.2 rfl
      exact ⟨rfl,hw,rfl,p,[],by simp,by simpa [hn] using hs.1,fun _ => rfl⟩
  | some x =>
      simp only [Prod.mk.injEq] at h
      obtain ⟨rfl,rfl,rfl⟩ := h
      exact ⟨rfl,rfl,rfl,p.take n,p.drop n,by simp,hs.1,by simp⟩

/-- Every outcome of a write passes the pending bytes on in order; only a
failed write loses bytes, and then only from the end. -/
theorem write_spec (h : w.write f p d = (r,v,e)) :
    v.capacity = w.capacity ∧ v.err = r ∧
      ∃ out lost, w.buf++p = out++(v.buf++lost) ∧ Received f out d e ∧ (r = none → lost = []) := by
  unfold write at h
  cases he : w.err with
  | some x =>
      simp only [he,Prod.mk.injEq] at h
      obtain ⟨rfl,rfl,rfl⟩ := h
      exact ⟨rfl,he,[],p,rfl,Received.none f d,by simp⟩
  | none =>
      simp only [he] at h
      split at h
      · simp only [Prod.mk.injEq] at h
        obtain ⟨rfl,rfl,rfl⟩ := h
        exact ⟨rfl,rfl,[],[],by simp,Received.none f d,fun _ => rfl⟩
      · split at h
        · rename_i hb
          obtain ⟨hc,hv,hbuf,out,lost,hp,hr,hl⟩ := writeThrough_spec h he
          exact ⟨hc,hv,out,lost,by simp [hb,hbuf,hp],hr,hl⟩
        · rcases hx : flush ⟨w.capacity,w.buf++p.take w.available,none⟩ f d with ⟨x,u,d₁⟩
          obtain ⟨hc,hv,out,hb,hr,hn⟩ := flush_spec hx
          rw [hx] at h
          cases x with
          | some x =>
              simp only [Prod.mk.injEq] at h
              obtain ⟨rfl,rfl,rfl⟩ := h
              refine ⟨hc,hv,out,p.drop w.available,?_,hr,by simp⟩
              rw [← List.append_assoc,← hb]
              simp [List.append_assoc]
          | none =>
              have hu : u.buf = [] := hn rfl
              simp only at h
              split at h
              · simp only [Prod.mk.injEq] at h
                obtain ⟨rfl,rfl,rfl⟩ := h
                refine ⟨hc,hv,out,[],?_,hr,fun _ => rfl⟩
                simp only [hu,List.append_nil] at hb
                simp [← hb,hu,List.append_assoc]
              · obtain ⟨hc₂,hv₂,hb₂,out₂,lost,hp,hr₂,hl⟩ := writeThrough_spec h hv
                refine ⟨hc₂.trans hc,hv₂,out++out₂,lost,?_,hr.trans hr₂,hl⟩
                simp only [hu,List.append_nil] at hb
                rw [hb₂,hu,List.nil_append,List.append_assoc,← hp,← hb]
                simp [List.append_assoc]

/-- After a failure, or on a closed file, nothing reaches the disk. -/
theorem flush_stuck (h : f.closed = true ∨ w.err ≠ none) : (w.flush f d).2.2 = d := by
  unfold flush
  cases he : w.err with
  | some x => rfl
  | none =>
      have hf : f.closed = true := h.resolve_right fun hx => hx he
      simp only
      split
      · rfl
      · rw [File.write_closed hf]

theorem write_stuck (h : f.closed = true ∨ w.err ≠ none) : (w.write f p d).2.2 = d := by
  unfold write
  cases he : w.err with
  | some x => rfl
  | none =>
      have hf : f.closed = true := h.resolve_right fun hx => hx he
      simp only
      split
      · rfl
      · split
        · rw [writeThrough,File.write_closed hf]
        · have hs := flush_stuck (w := ⟨w.capacity,w.buf++p.take w.available,none⟩) (d := d)
            (.inl hf)
          rcases hx : flush ⟨w.capacity,w.buf++p.take w.available,none⟩ f d with ⟨x,v,e⟩
          rw [hx] at hs
          cases x with
          | some x => exact hs
          | none =>
              simp only
              split
              · exact hs
              · rw [writeThrough,File.write_closed hf]
                exact hs

theorem flush_err (h : w.err ≠ none) : w.flush f d = (w.err,w,d) := by
  unfold flush
  cases he : w.err with
  | none => exact (h he).elim
  | some x => rfl

theorem write_err (h : w.err ≠ none) : w.write f p d = (w.err,w,d) := by
  unfold write
  cases he : w.err with
  | none => exact (h he).elim
  | some x => rfl

theorem writeThrough_healthy (hd : d.Healthy) (hf : f.closed = false) :
    w.writeThrough f p d = (none,w,d.appendTo f.path p) := by
  rw [writeThrough,File.write_healthy hd hf]

theorem flush_healthy (hd : d.Healthy) (hf : f.closed = false) (hw : w.err = none) :
    w.flush f d = (none,{w with buf := []},d.appendTo f.path w.buf) := by
  unfold flush
  rw [hw]
  by_cases hb : w.buf = []
  · cases w
    simp_all [Disk.appendTo_nil]
  · simp [hb,File.write_healthy hd hf]

/-- Without failures a write succeeds, and what it does not pass on is what
stays buffered. -/
theorem write_healthy (hd : d.Healthy) (hf : f.closed = false) (hw : w.err = none) (p : Bytes) :
    ∃ v e out, w.write f p d = (none,v,e) ∧ v.err = none ∧ e.Healthy ∧
      w.buf++p = out++v.buf ∧ Received f out d e := by
  have hr : (w.write f p d).1 = none ∧ (w.write f p d).2.2.Healthy := by
    unfold write
    rw [hw]
    simp only
    split
    · exact ⟨rfl,hd⟩
    · split
      · rw [writeThrough_healthy hd hf]
        exact ⟨rfl,by simpa using hd⟩
      · rw [flush_healthy hd hf rfl]
        simp only
        split
        · exact ⟨rfl,by simpa using hd⟩
        · rw [writeThrough_healthy (by simpa using hd) hf]
          exact ⟨rfl,by simpa using hd⟩
  rcases hx : w.write f p d with ⟨r,v,e⟩
  rw [hx] at hr
  obtain ⟨-,hv,out,lost,hb,hrec,hl⟩ := write_spec hx
  obtain rfl : r = none := hr.1
  refine ⟨v,e,out,rfl,hv,hr.2,?_,hrec⟩
  rw [hb,hl rfl,List.append_nil]

theorem flush_unfailing (hf : f.closed = false) (hw : w.err = none)
    (h : w.flush f d = (r,v,e)) : r = none ∧ e.Unfailing ↔ d.Unfailing := by
  unfold flush at h
  simp only [hw] at h
  split at h
  · cases h
    simp
  · rcases hx : f.write w.buf d with ⟨n,x,d₁⟩
    rw [hx] at h
    rw [← File.write_unfailing hf hx]
    cases x with
    | none =>
        cases h
        simp
    | some x =>
        cases h
        simp

theorem write_of_room (hw : w.err = none) (hp : p.length ≤ w.available) :
    w.write f p d = (none,{w with buf := w.buf++p},d) := by
  unfold write
  rw [hw]
  simp only [if_pos hp,← hw]

/-- Without failures a write is accepted if the buffer has room for it or the
file is open. -/
theorem write_accepts_iff (hd : d.Healthy) :
    (w.write f p d).1 = none ↔ w.err = none ∧ (p.length ≤ w.available ∨ f.closed = false) := by
  by_cases hw : w.err = none
  · by_cases hf : f.closed = false
    · obtain ⟨v,e,out,h,-⟩ := write_healthy hd hf hw p
      simp [h,hw,hf]
    · rw [Bool.not_eq_false] at hf
      unfold write
      simp only [hw,hf]
      split
      · rename_i hp
        simp [hp]
      · rename_i hp
        split
        · simp [writeThrough,File.write_closed hf,hp]
        · rename_i hb
          simp [flush,File.write_closed hf,hb,hp]
  · simp [write_err hw,hw]

end Writer

end Kage.BufferedWriter
