import Kage.SegmentLog

/-!
# Segments under arbitrary failures

Any call below a segment may fail. A segment is stuck once its file is closed
or its writer has failed; from then on nothing more reaches the file. Until
then the cursor is the number of bytes in the file and the buffer, whatever
failed before in the index or in a read.

`Accounts` carries this through an append that has written `n` bytes and not
yet counted them. Sizes stay below `2^63`, since only appends within a limit
write anything.

Opening a segment, and closing one that is not stuck, succeed exactly if none of
the calls they make was to fail.
-/
namespace Kage.SegmentFaults
open ByteStrings FaultyDisk BufferedWriter SparseIndex SegmentLog

/-- Nothing written from here on reaches the file. -/
def Stuck (s : Segment) : Prop := s.file.closed = true ∨ s.bw.err ≠ none

instance (s : Segment) : Decidable (Stuck s) := inferInstanceAs (Decidable (_ ∨ _))

/-- The file and the buffer hold the counted bytes and `n` more. -/
structure Accounts (s : Segment) (d : Disk) (n : ℕ) : Prop where
  apart : s.idx.file.path ≠ s.file.path
  mem : s.file.path ∈ d.files
  counted : ¬Stuck s → s.size+n = (s.bytes d).length
  small : (d.content s.file.path).length < 2^63

/-- The cursor is right and fits the type of the source. -/
def Sound (s : Segment) (d : Disk) : Prop := Accounts s d 0 ∧ s.size < 2^63

variable {s t : Segment} {d e : Disk} {n : ℕ} {p : Bytes} {bw : Writer}

theorem not_stuck (hf : s.file.closed = false) (he : s.bw.err = none) : ¬Stuck s := by
  rintro (h | h)
  · rw [hf] at h
    cases h
  · exact h he

/-- The file receives `out`, and of the buffer and `m` further bytes all but `lost`
stay behind it. -/
theorem Accounts.receive {out lost : Bytes} {m : ℕ} (h : Accounts s d n)
    (hs : s.size+n+m < 2^63) (hr : Received s.file out d e)
    (hb : s.bw.buf.length+m = out.length+(bw.buf.length+lost.length))
    (hok : bw.err = none → s.bw.err = none ∧ lost = []) (hst : Stuck s → e = d) :
    Accounts {s with bw := bw} e (n+m) ∧ OnlyTouches s.file.path d e := by
  have hc := hr.content h.mem
  refine ⟨⟨h.apart,(hr.mem _).mpr h.mem,fun hns => ?_,?_⟩,hr.only⟩
  · simp only [Stuck,not_or,not_not] at hns
    obtain ⟨hf,hbw⟩ := hns
    obtain ⟨he,hl⟩ := hok hbw
    have hcount := h.counted (not_stuck (by simpa using hf) he)
    simp only [Segment.bytes,hc,List.length_append,hl,List.length_nil] at hcount hb ⊢
    omega
  · by_cases hs' : Stuck s
    · obtain rfl := hst hs'
      exact h.small
    · have hcount := h.counted hs'
      simp only [hc,Segment.bytes,List.length_append] at hcount ⊢
      omega

theorem Accounts.write {r : Option Err} (h : Accounts s d n)
    (hs : s.size+n+p.length < 2^63) (hw : s.bw.write s.file p d = (r,bw,e)) :
    Accounts {s with bw := bw} e (n+p.length) ∧ OnlyTouches s.file.path d e := by
  obtain ⟨-,hv,out,lost,hb,hr,hl⟩ := Writer.write_spec hw
  have hbl := congrArg List.length hb
  simp only [List.length_append] at hbl
  refine h.receive hs hr hbl (fun hbw => ?_) (fun hst => ?_)
  · have hr0 : r = none := hv.symm.trans hbw
    refine ⟨?_,hl hr0⟩
    by_contra hx
    rw [Writer.write_err hx] at hw
    exact hx ((Prod.mk.inj hw).1.trans hr0)
  · have hsame := Writer.write_stuck (w := s.bw) (p := p) (d := d) hst
    rwa [hw] at hsame

theorem Accounts.flush {r : Option Err} (h : Accounts s d n) (hs : s.size+n < 2^63)
    (hw : s.bw.flush s.file d = (r,bw,e)) :
    Accounts {s with bw := bw} e n ∧ OnlyTouches s.file.path d e := by
  obtain ⟨-,hv,out,hb,hr,hl⟩ := Writer.flush_spec hw
  have hbl : s.bw.buf.length+0 = out.length+(bw.buf.length+([] : Bytes).length) := by
    rw [hb,List.length_append]
    rfl
  refine h.receive hs hr hbl (fun hbw => ?_) (fun hst => ?_)
  · refine ⟨?_,rfl⟩
    by_contra hx
    rw [Writer.flush_err hx] at hw
    exact hx ((Prod.mk.inj hw).1.trans (hv.symm.trans hbw))
  · have hsame := Writer.flush_stuck (w := s.bw) (d := d) hst
    rwa [hw] at hsame

/-- Steps that leave the log file alone keep the account. -/
theorem Accounts.of_files (h : Accounts s d n) (hm : s.file.path ∈ e.files)
    (hc : e.content s.file.path = d.content s.file.path) : Accounts s e n :=
  ⟨h.apart,hm,fun hns => by rw [h.counted hns,Segment.bytes,Segment.bytes,hc],by
    rw [hc]
    exact h.small⟩

theorem Accounts.of_idle (h : Accounts s d n) (hi : d.Idle e) : Accounts s e n :=
  h.of_files (by rw [hi.files]; exact h.mem) (hi.content s.file.path)

theorem Accounts.of_index (h : Accounts s d n) {x : Index} (hx : x.file.path = s.idx.file.path)
    (ho : OnlyTouches s.idx.file.path d e) : Accounts {s with idx := x} e n := by
  have h' := h.of_files ((ho.mem h.apart.symm).mpr h.mem) (ho.content h.apart.symm)
  exact ⟨by simpa [hx] using h.apart,h'.mem,h'.counted,h'.small⟩

/-- A closed file is not extended any more. -/
theorem Accounts.close (h : Accounts s d n) {f : File} (hf : f = {s.file with closed := true}) :
    Accounts {s with file := f} d n := by
  subst f
  exact ⟨h.apart,h.mem,fun hns => (hns (.inl rfl)).elim,h.small⟩

/-- Of a stuck segment nothing is counted. -/
theorem Accounts.of_stuck (h : Accounts s d n) (hs : Stuck s) (m : ℕ) : Accounts s d m :=
  ⟨h.apart,h.mem,fun hns => (hns hs).elim,h.small⟩

theorem Accounts.count {k : ℕ} (h : Accounts s d (n+k)) :
    Accounts {s with size := s.size+k} d n := by
  refine ⟨h.apart,h.mem,fun hns => ?_,h.small⟩
  have hc := h.counted hns
  simp only [Segment.bytes] at hc ⊢
  omega

theorem stuck_of_write {r : Option Err} {x : Err} (hw : s.bw.write s.file p d = (r,bw,e))
    (hr : r = some x) : Stuck {s with bw := bw} := by
  obtain ⟨-,hv,-⟩ := Writer.write_spec hw
  exact .inr (by rw [hv,hr]; exact Option.some_ne_none x)

theorem append_sound {r : Except Err UInt64} (h : Sound s d) (ha : s.append p d = (r,t,e)) :
    Sound t e ∧ s.SameHandles t ∧ s.Leaves d e := by
  have hsmall (hf : ¬s.maxSize.toInt < s.size+((recordHeaderSize+p.length : ℕ) : ℤ)) :
      s.size+(4+p.length) < 2^63 := by
    have hmax := s.maxSize.toInt_lt
    simp only [recordHeaderSize] at hf
    omega
  cases Segment.appending ha with
  | full => exact ⟨h,⟨rfl,rfl,rfl,rfl⟩,.refl s d⟩
  | header hf hw₁ =>
      have hfit := hsmall hf
      obtain ⟨h₁,ho₁⟩ := h.1.write (by rw [putUint_length]; omega) hw₁
      exact ⟨⟨h₁.of_stuck (stuck_of_write hw₁ rfl) 0,h.2⟩,⟨rfl,rfl,rfl,rfl⟩,.of_file ho₁⟩
  | @payload x bw₁ bw₂ d₁ e hf hw₁ hw₂ =>
      have hfit := hsmall hf
      obtain ⟨h₁,ho₁⟩ := h.1.write (by rw [putUint_length]; omega) hw₁
      obtain ⟨h₂,ho₂⟩ := h₁.write (by rw [putUint_length]; simp only; omega) hw₂
      have hst : Stuck {s with bw := bw₂} := stuck_of_write (s := {s with bw := bw₁}) hw₂ rfl
      exact ⟨⟨h₂.of_stuck hst 0,h.2⟩,⟨rfl,rfl,rfl,rfl⟩,
        (Segment.Leaves.of_file ho₁).trans (.of_file ho₂)⟩
  | @written x bw₁ bw₂ idx d₁ d₂ e r hf hw₁ hw₂ hi hr =>
      have hfit := hsmall hf
      obtain ⟨h₁,ho₁⟩ := h.1.write (by rw [putUint_length]; omega) hw₁
      obtain ⟨h₂,ho₂⟩ := h₁.write (by rw [putUint_length]; simp only; omega) hw₂
      rw [putUint_length,Nat.add_assoc] at h₂
      have hx := s.idx.maybeAppend_only (UInt64.ofNat s.size) (UInt64.ofNat s.size).toUInt32
        (recordHeaderSize+p.length) d₂
      rw [hi] at hx
      have h₃ := h₂.count.of_index (congrArg File.path hx.1) hx.2
      exact ⟨⟨h₃,hfit⟩,⟨rfl,hx.1,rfl,rfl⟩,
        ((Segment.Leaves.of_file ho₁).trans (.of_file ho₂)).trans (.of_index hx.2)⟩

theorem flush_sound {r : Option Err} (h : Sound s d) (hf : s.flush d = (r,t,e)) :
    Sound t e ∧ s.SameHandles t ∧ s.Leaves d e := by
  cases Segment.flushing hf with
  | log hw =>
      obtain ⟨h₁,ho₁⟩ := h.1.flush h.2 hw
      exact ⟨⟨h₁,h.2⟩,⟨rfl,rfl,rfl,rfl⟩,.of_file ho₁⟩
  | @sync _ _ d₁ _ hw hs =>
      obtain ⟨h₁,ho₁⟩ := h.1.flush h.2 hw
      have hy := s.file.control_idle d₁
      rw [← File.sync,hs] at hy
      exact ⟨⟨h₁.of_idle hy,h.2⟩,⟨rfl,rfl,rfl,rfl⟩,.of_file (ho₁.trans (.of_idle _ hy))⟩
  | @index _ _ _ d₁ d₂ _ hw hs hi =>
      obtain ⟨h₁,ho₁⟩ := h.1.flush h.2 hw
      have hy := s.file.control_idle d₁
      have hx := s.idx.flush_only d₂
      rw [← File.sync,hs] at hy
      rw [hi] at hx
      have hl : s.Leaves d d₂ := .of_file (ho₁.trans (.of_idle _ hy))
      have h₂ := (h₁.of_idle hy).of_index (congrArg File.path hx.1) hx.2
      exact ⟨⟨h₂,h.2⟩,⟨rfl,hx.1,rfl,rfl⟩,hl.trans (.of_index hx.2)⟩

/-- Reading leaves the account as flushing does. -/
theorem Sound.looked (h : Sound s d) (hl : s.Looked d t e) : Sound t e := by
  obtain ⟨r,bw,d₁,hw,rfl,hidle⟩ := hl
  obtain ⟨h₁,-⟩ := h.1.flush h.2 hw
  exact ⟨h₁.of_idle hidle,h.2⟩

theorem readAt_sound {o : UInt64} {r : Except Err Bytes} (h : Sound s d)
    (hr : s.readAt o d = (r,t,e)) : Sound t e := h.looked (Segment.readAt_looked hr)

theorem read_sound {o : UInt64} {k : Int32} {r : Except Err SectionReader} (h : Sound s d)
    (hr : s.read o k d = (r,t,e)) : Sound t e := by
  rcases Segment.read_looked hr with ⟨rfl,rfl⟩ | hl
  · exact h
  · exact h.looked hl

/-- What closing leaves of a segment, whether or not it succeeds. -/
structure Closes (s : Segment) (d : Disk) (r : Option Err) (t : Segment) (e : Disk) : Prop where
  sound : Sound t e
  path : t.file.path = s.file.path
  idxPath : t.idx.file.path = s.idx.file.path
  base : t.baseOffset = s.baseOffset
  size : t.size = s.size
  leaves : s.Leaves d e
  stuck : Stuck t
  closed : s.file.closed = true → t.file.closed = true
  success : r = none → ¬Stuck s ∧ t.file.closed = true ∧ e.content s.file.path = s.bytes d
  empty : ¬Stuck s → s.size = 0 → t.bw.buf = [] ∧ t.bw.err = none

/-- A writer that was not stuck and flushed has handed everything over. -/
theorem flush_none (hw : s.bw.flush s.file d = (none,bw,e)) (hm : s.file.path ∈ d.files) :
    s.bw.err = none ∧ bw.err = none ∧ bw.buf = [] ∧ e.content s.file.path = s.bytes d := by
  obtain ⟨-,hv,out,hb,hr,hl⟩ := Writer.flush_spec hw
  have hnil := hl rfl
  have he : s.bw.err = none := by
    by_contra hx
    rw [Writer.flush_err hx] at hw
    exact hx (Prod.mk.inj hw).1
  refine ⟨he,hv,hnil,?_⟩
  rw [hr.content hm,Segment.bytes,hb,hnil,List.append_nil]

theorem empty_buffer (h : Sound s d) (hs : ¬Stuck s) (h0 : s.size = 0) : s.bw.buf = [] := by
  have hc := h.1.counted hs
  rw [h0,Segment.bytes,List.length_append] at hc
  exact List.length_eq_zero_iff.mp (by omega)

/-- A flushed file is closed with everything in it. -/
theorem Sound.flush_close {f : File} {r : Option Err} {d₁ : Disk} (h : Sound s d)
    (hw : s.bw.flush s.file d = (none,bw,d₁)) (hcl : s.file.close d₁ = (r,f,e)) :
    f = {s.file with closed := true} ∧ Accounts {s with bw := bw, file := f} e 0 ∧
      s.Leaves d e ∧ e.content s.file.path = s.bytes d := by
  obtain ⟨h₁,ho₁⟩ := h.1.flush h.2 hw
  have hy := s.file.close_idle d₁
  have hf := s.file.close_closed d₁
  rw [hcl] at hy hf
  refine ⟨hf,(h₁.of_idle hy).close hf,.of_file (ho₁.trans (.of_idle _ hy)),?_⟩
  rw [hy.content,(flush_none hw h.1.mem).2.2.2]

theorem close_sound {r : Option Err} (h : Sound s d) (hc : s.close d = (r,t,e)) :
    Closes s d r t e := by
  cases Segment.closing hc with
  | flush hw =>
      obtain ⟨h₁,ho₁⟩ := h.1.flush h.2 hw
      obtain ⟨-,hv,-⟩ := Writer.flush_spec hw
      refine ⟨⟨h₁,h.2⟩,rfl,rfl,rfl,rfl,.of_file ho₁,.inr (by simp [hv]),id,by simp,
        fun hs h0 => ?_⟩
      have he : s.bw.err = none := by simpa using fun hx => hs (.inr hx)
      have hn : s.bw.flush s.file d = (none,s.bw,d) := by
        simp [Writer.flush,he,empty_buffer h hs h0]
      rw [hn] at hw
      cases hw
  | file hw hcl =>
      obtain ⟨-,hbe,hbb,-⟩ := flush_none hw h.1.mem
      obtain ⟨rfl,h₂,hl,-⟩ := h.flush_close hw hcl
      exact ⟨⟨h₂,h.2⟩,rfl,rfl,rfl,rfl,hl,.inl rfl,fun _ => rfl,by simp,fun _ _ => ⟨hbb,hbe⟩⟩
  | @index r bw f idx d₁ d₂ e hw hcl hi =>
      obtain ⟨he,hbe,hbb,-⟩ := flush_none hw h.1.mem
      obtain ⟨rfl,h₂,hl,hcontent⟩ := h.flush_close hw hcl
      have hopen : s.file.closed = false := by
        cases hx : s.file.closed with
        | false => rfl
        | true => simp [File.close,hx] at hcl
      have hx := s.idx.close_only d₂
      rw [hi] at hx
      have hsame : e.content s.file.path = s.bytes d := by
        rw [hx.2.content h.1.apart.symm,hcontent]
      exact ⟨⟨h₂.of_index hx.1 hx.2,h.2⟩,rfl,hx.1,rfl,rfl,hl.trans (.of_index hx.2),.inl rfl,
        fun _ => rfl,fun _ => ⟨not_stuck hopen he,rfl,hsame⟩,fun _ _ => ⟨hbb,hbe⟩⟩

/-- No bytes of any file but `p` change, and no file is lost. -/
def Extends (p : Path) (d e : Disk) : Prop :=
  ∀ q, q ≠ p → e.content q = d.content q ∧ (q ∈ d.files → q ∈ e.files)

theorem Extends.of_only {p : Path} (h : OnlyTouches p d e) : Extends p d e :=
  fun _ hq => ⟨h.content hq,(h.mem hq).mpr⟩

theorem Extends.of_idle (p : Path) (h : d.Idle e) : Extends p d e := .of_only (.of_idle p h)

theorem Extends.trans {p : Path} {d₁ d₂ d₃ : Disk} (h : Extends p d₁ d₂) (k : Extends p d₂ d₃) :
    Extends p d₁ d₃ := fun q hq =>
  ⟨(k q hq).1.trans (h q hq).1,fun hm => (k q hq).2 ((h q hq).2 hm)⟩

theorem openFile_extends (p q : Path) (d : Disk) : Extends q d (openFile p d).2 := by
  unfold openFile
  split
  · rename_i hn
    exact .of_idle q (.next hn)
  · rename_i hn
    refine (Extends.of_idle q (.next hn)).trans fun x _ => ⟨?_,fun hm => ?_⟩
    · simp
    · simp [hm]

/-- Opening creates files, and writes only to the index. -/
theorem openSegment_extends (dir : List Bytes) (b : ℕ) (cfg : SegmentConfig) (d : Disk) :
    Extends (indexPath dir b) d (openSegment dir b cfg d).2 := by
  have h₁ := openFile_extends (logPath dir b) (indexPath dir b) d
  rcases ho : SegmentLog.openSegment dir b cfg d with ⟨r,e⟩
  cases opening ho with
  | file hf =>
      rw [hf] at h₁
      exact h₁
  | @stat f x d₁ d₂ hf hs =>
      have h₂ := f.stat_idle d₁
      rw [hf] at h₁
      rw [hs] at h₂
      exact h₁.trans (.of_idle _ (h₂.trans (f.close_idle d₂)))
  | @index f n x d₁ d₂ d₃ hf hs hi =>
      have h₂ := f.stat_idle d₁
      have h₃ := openIndex_only dir b d₂
      rw [hf] at h₁
      rw [hs] at h₂
      rw [hi] at h₃
      exact ((h₁.trans (.of_idle _ h₂)).trans (.of_only h₃)).trans (.of_idle _ (f.close_idle d₃))
  | @opened f n idx d₁ d₂ e hf hs hi =>
      have h₂ := f.stat_idle d₁
      have h₃ := openIndex_only dir b d₂
      rw [hf] at h₁
      rw [hs] at h₂
      rw [hi] at h₃
      exact (h₁.trans (.of_idle _ h₂)).trans (.of_only h₃)

theorem stat_ok {f : File} (h : f.stat d = (.ok n,e)) :
    n = (e.content f.path).length ∧ e.files = d.files := by
  unfold File.stat at h
  split at h
  · cases h
  · split at h
    · cases h
    · rename_i hn
      simp only [Prod.mk.injEq,Except.ok.injEq] at h
      obtain ⟨rfl,rfl⟩ := h
      exact ⟨rfl,(congrArg (fun x => x.2.files) hn).symm⟩

theorem loadEntries_ok {f : File} {es : List Entry} (h : loadEntries f d = (.ok es,e)) :
    es = entryCodec.readFile (d.content f.path) := by
  unfold loadEntries at h
  rcases hk : f.seekStart d with ⟨_|x,d₁⟩
  · rw [hk] at h
    simp only at h
    have hd₁ := f.control_idle d
    rw [← File.seekStart,hk] at hd₁
    rcases hs : f.stat d₁ with ⟨x|n,d₂⟩
    · rw [hs] at h
      cases h
    · rw [hs] at h
      obtain ⟨rfl,hfiles⟩ := stat_ok hs
      have hsame : d₂.content f.path = d.content f.path := by
        rw [Disk.content,hfiles,← Disk.content,hd₁.content]
      rw [loadLoop_entries h,hsame]
      rfl
  · rw [hk] at h
    cases h

/-- An index is opened with the whole entries of its file, and the file is as it
was. -/
theorem openIndex_loaded {dir : List Bytes} {b : ℕ} {x : Index}
    (h : openIndex dir b d = (.ok x,e)) :
    x = ⟨⟨indexPath dir b,false⟩,{capacity := indexWriteBufferSize},
      entryCodec.readFile (d.content (indexPath dir b)),0⟩ ∧
    indexPath dir b ∈ e.files ∧ e.content (indexPath dir b) = d.content (indexPath dir b) := by
  have hne := (logPath_ne_indexPath dir dir b b).symm
  have hx := openFile_extends (indexPath dir b) (logPath dir b) d _ hne
  cases Index.opening h with
  | @opened f es d₁ _ hf hl =>
      obtain ⟨rfl,hm⟩ := openFile_ok hf
      have ho := loadEntries_idle ⟨indexPath dir b,false⟩ d₁
      rw [hf] at hx
      rw [hl] at ho
      rw [loadEntries_ok hl,hx.1]
      exact ⟨rfl,by rw [ho.files]; exact hm,(ho.content _).trans hx.1⟩

theorem openIndex_ok {dir : List Bytes} {b : ℕ} {x : Index} (h : openIndex dir b d = (.ok x,e)) :
    x.file.path = indexPath dir b ∧ x.Live := by
  rw [(openIndex_loaded h).1]
  exact ⟨rfl,rfl,rfl⟩

theorem openSegment_sound {dir : List Bytes} {b : ℕ} {cfg : SegmentConfig}
    (hs : (d.content (logPath dir b)).length < 2^63)
    (ho : openSegment dir b cfg d = (.ok s,e)) :
    Sound s e ∧ ¬Stuck s ∧ s.bw.buf = [] ∧ s.size = (d.content (logPath dir b)).length ∧
      s.file.path = logPath dir b ∧ s.idx.file.path = indexPath dir b ∧ s.baseOffset = b := by
  have hne := logPath_ne_indexPath dir dir b b
  have hext := openSegment_extends dir b cfg d _ hne
  have h₁ := openFile_extends (logPath dir b) (indexPath dir b) d _ hne
  rw [ho] at hext
  cases opening ho with
  | @opened f n idx d₁ d₂ e hf hst hi =>
      obtain ⟨rfl,hm⟩ := openFile_ok hf
      obtain ⟨hn,hfiles⟩ := stat_ok hst
      have hx := openIndex_only dir b d₂
      have hp := (openIndex_ok hi).1
      rw [hf] at h₁
      rw [hi] at hx
      have hsize : n = (d.content (logPath dir b)).length := by
        rw [hn,← h₁.1,Disk.content,Disk.content,hfiles]
      have hmem : logPath dir b ∈ e.files := by
        rw [hx.mem hne,hfiles]
        exact hm
      refine ⟨⟨⟨by simpa [hp] using hne.symm,hmem,fun _ => ?_,?_⟩,?_⟩,not_stuck rfl rfl,rfl,
        hsize,rfl,hp,rfl⟩
      · simp [Segment.bytes,hext.1,hsize]
      · rw [hext.1]
        exact hs
      · rw [← hsize] at hs
        exact hs

/-! ## Calls that go through -/

section Unfailing
variable {dir : List Bytes}

theorem loadLoop_unfailing {k : ℕ} {rest : Bytes} {r : Except Err (List Entry)}
    (h : loadLoop k rest d = (r,e)) : (∃ x, r = .ok x) ∧ e.Unfailing ↔ d.Unfailing := by
  induction k generalizing rest d e r with
  | zero =>
      unfold loadLoop at h
      rcases hn : d.next with ⟨_|n,d₁⟩ <;> simp only [hn] at h <;> cases h <;>
        simp [← Disk.next_unfailing hn]
  | succ k ih =>
      unfold loadLoop at h
      rcases hn : d.next with ⟨_|n,d₁⟩
      · simp only [hn] at h
        rcases hl : loadLoop k (rest.drop indexEntrySize) d₁ with ⟨r₁,d₂⟩
        rw [hl] at h
        rw [← Disk.next_unfailing hn,← ih hl]
        cases r₁ with
        | ok es =>
            cases h
            simp
        | error x =>
            cases h
            simp
      · simp only [hn] at h
        cases h
        simp [← Disk.next_unfailing hn]

theorem loadEntries_unfailing {f : File} {r : Except Err (List Entry)} (hf : f.closed = false)
    (h : loadEntries f d = (r,e)) : (∃ x, r = .ok x) ∧ e.Unfailing ↔ d.Unfailing := by
  unfold loadEntries at h
  rcases hk : f.seekStart d with ⟨_|x,d₁⟩
  · rw [hk] at h
    rw [← File.control_unfailing hf hk]
    simp only at h
    rcases hs : f.stat d₁ with ⟨x|n,d₂⟩
    · rw [hs] at h
      cases h
      simp [← File.stat_unfailing hf hs]
    · rw [hs] at h
      rw [loadLoop_unfailing h]
      simp [← File.stat_unfailing hf hs]
  · rw [hk] at h
    cases h
    simp [← File.control_unfailing hf hk]

theorem openIndex_unfailing {b : ℕ} {r : Except Err Index} (h : openIndex dir b d = (r,e)) :
    (∃ x, r = .ok x) ∧ e.Unfailing ↔ d.Unfailing := by
  cases Index.opening h with
  | file ho => simp [← openFile_unfailing ho]
  | load ho hl =>
      have hf := congrArg File.closed (openFile_ok ho).1
      simp [← openFile_unfailing ho,← loadEntries_unfailing hf hl]
  | opened ho hl =>
      have hf := congrArg File.closed (openFile_ok ho).1
      simp [← openFile_unfailing ho,← loadEntries_unfailing hf hl]

theorem openSegment_unfailing {b : ℕ} {cfg : SegmentConfig} {r : Except Err Segment}
    (h : openSegment dir b cfg d = (r,e)) : (∃ x, r = .ok x) ∧ e.Unfailing ↔ d.Unfailing := by
  cases opening h with
  | file ho => simp [← openFile_unfailing ho]
  | stat ho hs =>
      have hf := congrArg File.closed (openFile_ok ho).1
      simp [← openFile_unfailing ho,← File.stat_unfailing hf hs]
  | index ho hs hi =>
      have hf := congrArg File.closed (openFile_ok ho).1
      simp [← openFile_unfailing ho,← File.stat_unfailing hf hs,← openIndex_unfailing hi]
  | opened ho hs hi =>
      have hf := congrArg File.closed (openFile_ok ho).1
      simp [← openFile_unfailing ho,← File.stat_unfailing hf hs,← openIndex_unfailing hi]

theorem indexClose_unfailing {x y : Index} {r : Option Err} (hx : x.Live)
    (h : x.close d = (r,y,e)) : r = none ∧ e.Unfailing ↔ d.Unfailing := by
  cases Index.closing h with
  | flush hw => simp [← Writer.flush_unfailing hx.1 hx.2 hw]
  | file hw hc hr =>
      simp [hr,← Writer.flush_unfailing hx.1 hx.2 hw,← File.close_unfailing hx.1 hc]

theorem segmentClose_unfailing {s t : Segment} {r : Option Err} (hs : ¬Stuck s)
    (hx : s.idx.Live) (h : s.close d = (r,t,e)) : r = none ∧ e.Unfailing ↔ d.Unfailing := by
  have hf : s.file.closed = false := by simpa using fun hc => hs (.inl hc)
  have he : s.bw.err = none := by simpa using fun hc => hs (.inr hc)
  cases Segment.closing h with
  | flush hw => simp [← Writer.flush_unfailing hf he hw]
  | file hw hc => simp [← Writer.flush_unfailing hf he hw,← File.close_unfailing hf hc]
  | index hw hc hi =>
      simp [← Writer.flush_unfailing hf he hw,← File.close_unfailing hf hc,
        ← indexClose_unfailing hx hi]

end Unfailing

end Kage.SegmentFaults
