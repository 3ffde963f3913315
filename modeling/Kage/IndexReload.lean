import Kage.SegmentFaults

/-!
# Opening an index again

The file of an index is opened for appending. Opening it loads the whole entries
it has and passes over an incomplete one at its end, but does not remove it. The
entries of the session are written behind it, and the next opening reads the
file from the front again. If the length of the file was no multiple of the size
of an entry, each of the entries read from there on is made of parts of two.
-/
namespace Kage.IndexReload
open ByteStrings FaultyDisk BufferedWriter FixedRecords SparseIndex SegmentFaults

/-- A record that the index is told about. -/
structure Record where
  offset : UInt64
  position : UInt32
  size : ℕ
  deriving DecidableEq, Repr

def appendAll : List Record → Index → Disk → Option Err × Index × Disk
  | [],x,d => (none,x,d)
  | r::rs,x,d =>
      match x.maybeAppend r.offset r.position r.size d with
      | (some e,x,d) => (some e,x,d)
      | (none,x,d) => appendAll rs x d

/-- The entries that were loaded, those appended in the session, and those
loaded after it. -/
structure Reload where
  loaded : List Entry
  appended : List Entry
  reloaded : List Entry
  deriving DecidableEq, Repr

/-- Open the index, tell it about records, close it and open it again. -/
def reload (dir : List Bytes) (b : ℕ) (rs : List Record) (d : Disk) : Except Err Reload :=
  match openIndex dir b d with
  | (.error e,_) => .error e
  | (.ok x,d) =>
      match appendAll rs x d with
      | (some e,_,_) => .error e
      | (none,y,d) =>
          match y.close d with
          | (some e,_,_) => .error e
          | (none,_,d) =>
              match openIndex dir b d with
              | (.error e,_) => .error e
              | (.ok z,_) => .ok ⟨x.entries,y.entries.drop x.entries.length,z.entries⟩

/-- The file and the buffer of the index hold these bytes. -/
def Stores (x : Index) (d : Disk) (s : Bytes) : Prop :=
  x.file.path ∈ d.files ∧ d.content x.file.path++x.bw.buf = s

section Session
variable {x y : Index} {d e : Disk} {s : Bytes} {rs : List Record}

theorem maybeAppend_stores {r : Record} (h : Stores x d s)
    (hr : x.maybeAppend r.offset r.position r.size d = (none,y,e)) :
    ∃ as, y.entries = x.entries++as ∧ y.file = x.file ∧ Stores y e (s++entryCodec.writeAll as) := by
  cases Index.considering hr with
  | early hn =>
      refine ⟨[],(List.append_nil _).symm,rfl,?_⟩
      rw [Codec.writeAll,List.flatMap_nil,List.append_nil]
      exact h
  | @written bw _ _ hw =>
      obtain ⟨-,-,out,lost,hb,hrec,hl⟩ := Writer.write_spec hw
      rw [hl rfl,List.append_nil] at hb
      refine ⟨[⟨r.offset,r.position⟩],rfl,rfl,(hrec.mem _).mpr h.1,?_⟩
      rw [hrec.content h.1,List.append_assoc,← hb,← List.append_assoc,h.2]
      rfl

theorem appendAll_stores (h : Stores x d s) (hr : appendAll rs x d = (none,y,e)) :
    ∃ as, y.entries = x.entries++as ∧ y.file = x.file ∧ Stores y e (s++entryCodec.writeAll as) := by
  induction rs generalizing x d s with
  | nil =>
      cases hr
      exact ⟨[],(List.append_nil _).symm,rfl,by simpa [Codec.writeAll] using h⟩
  | cons r rs ih =>
      unfold appendAll at hr
      rcases hm : x.maybeAppend r.offset r.position r.size d with ⟨_|c,x₁,d₁⟩
      · rw [hm] at hr
        obtain ⟨as,has,hfile,h₁⟩ := maybeAppend_stores h hm
        obtain ⟨bs,hbs,hfile₂,h₂⟩ := ih h₁ hr
        refine ⟨as++bs,by rw [hbs,has,List.append_assoc],hfile₂.trans hfile,?_⟩
        rw [Codec.writeAll,List.flatMap_append,← List.append_assoc]
        exact h₂
      · rw [hm] at hr
        cases hr

theorem close_stores (h : Stores x d s) (hc : x.close d = (none,y,e)) :
    e.content x.file.path = s := by
  cases Index.closing hc with
  | @file _ _ _ _ d₁ _ hw hf _ =>
      obtain ⟨-,-,out,hb,hrec,hnil⟩ := Writer.flush_spec hw
      rw [hnil rfl,List.append_nil] at hb
      have hidle := x.file.close_idle d₁
      rw [hf] at hidle
      rw [hidle.content,hrec.content h.1,← hb,h.2]

theorem appendAll_healthy (hd : d.Healthy) (hx : x.Live) (rs : List Record) :
    ∃ y e, appendAll rs x d = (none,y,e) ∧ e.Healthy ∧ y.Live := by
  induction rs generalizing x d with
  | nil => exact ⟨x,d,rfl,hd,hx⟩
  | cons r rs ih =>
      obtain ⟨x₁,d₁,hm,hx₁,-,hd₁,-⟩ :=
        Index.maybeAppend_healthy hd hx r.offset r.position r.size
      obtain ⟨y,e,ha,he,hy⟩ := ih hd₁ hx₁
      exact ⟨y,e,by rw [appendAll,hm]; exact ha,he,hy⟩

end Session

/-- What the two openings loaded. -/
theorem reload_entries {dir : List Bytes} {b : ℕ} {rs : List Record} {d : Disk} {r : Reload}
    (h : reload dir b rs d = .ok r) :
    r.loaded = entryCodec.readFile (d.content (indexPath dir b)) ∧
      r.reloaded = entryCodec.readFile (d.content (indexPath dir b)++
        entryCodec.writeAll r.appended) := by
  unfold reload at h
  rcases hx : openIndex dir b d with ⟨c|x,d₁⟩
  · rw [hx] at h
    cases h
  · rw [hx] at h
    obtain ⟨rfl,hm,hcontent⟩ := openIndex_loaded hx
    simp only at h
    split at h
    · cases h
    · rename_i y d₂ ha
      obtain ⟨as,has,hfile,hstores⟩ := appendAll_stores ⟨hm,List.append_nil _⟩ ha
      split at h
      · cases h
      · rename_i d₃ hc
        have hd₃ := close_stores hstores hc
        rw [hfile] at hd₃
        split at h
        · cases h
        · rename_i hz
          cases h
          refine ⟨rfl,?_⟩
          rw [(openIndex_loaded hz).1]
          simp only [has,List.drop_left] at hd₃ ⊢
          rw [hd₃,hcontent]

/-- A file of whole entries is read again with what was appended to it. -/
theorem reload_whole {dir : List Bytes} {b : ℕ} {rs : List Record} {d : Disk} {r : Reload}
    (h : reload dir b rs d = .ok r)
    (hw : indexEntrySize ∣ (d.content (indexPath dir b)).length) :
    r.reloaded = r.loaded++r.appended := by
  obtain ⟨hloaded,hreloaded⟩ := reload_entries h
  rw [hloaded,hreloaded,readAll_append_iff,leftover_of_dvd hw,List.nil_append]

theorem reload_healthy {dir : List Bytes} {b : ℕ} {rs : List Record} {d : Disk}
    (hd : d.Healthy) : ∃ r, reload dir b rs d = .ok r := by
  obtain ⟨x,hx,hlive,-⟩ := openIndex_healthy hd dir b
  have hd₁ : (d.create (indexPath dir b)).Healthy := by simpa using hd
  obtain ⟨y,d₂,ha,hd₂,hy⟩ := appendAll_healthy hd₁ hlive rs
  obtain ⟨z,d₃,hc,hd₃,-⟩ := Index.close_healthy hd₂ hy
  obtain ⟨w,hw,-⟩ := openIndex_healthy hd₃ dir b
  unfold reload
  simp only [hx,ha,hc,hw]
  exact ⟨_,rfl⟩

/-- Whatever the file held before: reading the index again gives what was loaded
and then what was appended if and only if the entries, as they are stored, are a
prefix of the incomplete entry followed by them. On a disk without failures the
index is read again. -/
theorem reload_exact_iff (dir : List Bytes) (b : ℕ) (rs : List Record) (d : Disk) :
    (∀ r, reload dir b rs d = .ok r → (r.reloaded = r.loaded++r.appended ↔
      entryCodec.writeAll r.appended <+:
        leftover indexEntrySize (d.content (indexPath dir b))++
          entryCodec.writeAll r.appended)) ∧
    (d.Healthy → ∃ r, reload dir b rs d = .ok r) := by
  refine ⟨fun r hr => ?_,reload_healthy⟩
  obtain ⟨hloaded,hreloaded⟩ := reload_entries hr
  rw [hloaded,hreloaded,readAll_append_iff]

/-- A disk whose index file has a single byte. -/
def tornDisk : Disk :=
  (Disk.blank.create (indexPath [] 0)).appendTo (indexPath [] 0) [1]

/-- The entry of offset zero comes back with the offset `2^56`. -/
theorem torn_entry_shifts : reload [] 0 [⟨0,0,4096⟩] tornDisk =
    .ok ⟨[],[⟨0,0⟩],[⟨72057594037927936,0⟩]⟩ := by
  decide +kernel

end Kage.IndexReload
