import Kage.ConfigLoading

/-!
# Quoted values of the configuration file

A value in double quotes loses them, and then everything from the first `#` on is
dropped as a comment, whether or not it stood between the quotes. Where a
comment follows the quotes, the value does not end in a quote; both quotes stay,
and the comment alone is dropped. A quoted directory is therefore taken as it is
written only without a comment and without a `#`.
-/
namespace Kage.QuotedValues
open ByteStrings FaultyDisk TextTrimming ConfigLoading

/-- A line that sets the log directory to a quoted text, with or without a
comment behind it. -/
def quotedLine (v : Bytes) : Option Bytes → Bytes
  | none => ascii "log_directory: \""++(v++[34])
  | some c => ascii "log_directory: \""++(v++(34::32::35::32::c))

section Values
variable {v c s : Bytes}

theorem not_mem_spaces {b : UInt8} (hb : spaces.all fun w => !w.contains b) :
    ∀ w ∈ spaces, b ∉ w := by
  intro w hw
  have := List.all_eq_true.mp hb w hw
  simpa using this

theorem quote_not_space : ∀ w ∈ spaces, 34 ∉ w := not_mem_spaces (by decide)

theorem hash_not_space : ∀ w ∈ spaces, 35 ∉ w := not_mem_spaces (by decide)

theorem letter_not_space : ∀ w ∈ spaces, 108 ∉ w := not_mem_spaces (by decide)

theorem trimSpace_space (s : Bytes) : trimSpace (32::s) = trimSpace s := trim_cons_of_find rfl

theorem trimSpace_length_le (s : Bytes) : (trimSpace s).length ≤ s.length := trim_length_le _ s

/-- Only a text without a comment sign is left as it is. -/
theorem uncomment_eq_iff : uncomment v = v ↔ 35 ∉ v := by
  constructor
  · intro h hmem
    obtain ⟨u,r,hv,-,hcut⟩ := exists_cut hmem
    have hle := trimSpace_length_le u
    have hu : trimSpace u = v := by
      rw [uncomment,hcut] at h
      exact h
    have hl := congrArg List.length (hu.trans hv)
    rw [List.length_append,List.length_cons] at hl
    omega
  · intro h
    rw [uncomment,cut_eq_none h]

theorem unquote_quoted (v : Bytes) : unquote (34::(v++[34])) = v := by
  have hl : (34::(v++[34])).getLast? = some 34 := List.getLast?_concat (l := 34::v)
  rw [unquote,if_pos ⟨by simp,.inl ⟨rfl,hl⟩⟩,List.tail_cons,List.dropLast_concat]

/-- Without a quote at the end both quotes stay. -/
theorem unquote_open {m : Bytes} (h : (34::m).getLast? ≠ some 34) : unquote (34::m) = 34::m := by
  rw [unquote,if_neg]
  rintro ⟨-,⟨-,hl⟩ | ⟨hh,-⟩⟩
  · exact h hl
  · cases hh

/-- A comment behind a quoted text is taken off and the first quote is not. -/
theorem uncomment_open {m : Bytes} (h : 35 ∈ m) : ∃ u, uncomment (34::m) = 34::u := by
  obtain ⟨u,r,rfl,hu⟩ := List.eq_append_cons_of_mem h
  have hcut : cut 35 (34::(u++35::r)) = some (34::u,r) :=
    cut_append (u := 34::u) (by simpa using hu) r
  obtain ⟨u',-,ht⟩ := trim_cons quote_not_space u
  exact ⟨u',by rw [uncomment,hcut]; exact ht⟩

/-- The key of a line that starts like this and the text of its value. -/
theorem splitLine_key {text m : Bytes}
    (h : trimSpace text = ascii "log_directory"++58::m) :
    splitLine text = some (ascii "log_directory",uncomment (unquote (trimSpace m))) := by
  have hcut : cut 58 (ascii "log_directory"++58::m) = some (ascii "log_directory",m) :=
    cut_append (by decide) m
  have hkey : trimSpace (ascii "log_directory") = ascii "log_directory" := by decide
  rw [splitLine,h,hcut]
  simp only [hkey]
  rw [if_neg]
  rintro (hnil | hhead)
  · cases hnil
  · cases hhead

theorem splitLine_quoted (v : Bytes) :
    splitLine (quotedLine v none) = some (ascii "log_directory",uncomment v) := by
  have hline : trimSpace (quotedLine v none) = ascii "log_directory"++58::32::34::(v++[34]) :=
    trim_between letter_not_space quote_not_space (ascii "og_directory: \""++v)
  rw [splitLine_key hline,trimSpace_space,trimSpace,trim_between quote_not_space quote_not_space,
    unquote_quoted]

theorem splitLine_commented (v : Bytes) {c : Bytes} (hc : 34 ∉ c) :
    ∃ u, splitLine (quotedLine v (some c)) = some (ascii "log_directory",34::u) := by
  have hsplit : quotedLine v (some c) =
      ascii "log_directory: \""++(v++[34,32])++35::32::c := by simp [quotedLine]
  have hstrip : strip spaces (quotedLine v (some c)) =
      ascii "log_directory: \""++(v++[34,32])++35::32::c := by
    rw [hsplit]
    exact strip_cons_of_not_mem letter_not_space _
  obtain ⟨c₁,hc₁,hline⟩ := trim_of_strip hash_not_space hstrip
  have hkey : trimSpace (quotedLine v (some c)) =
      ascii "log_directory"++58::32::(34::(v++[34,32])++35::c₁) := by
    rw [trimSpace,hline]
    simp [ascii]
  have hopen : strip spaces (34::(v++[34,32])++35::c₁) = 34::(v++[34,32])++35::c₁ :=
    strip_cons_of_not_mem quote_not_space _
  obtain ⟨c₂,hc₂,hval⟩ := trim_of_strip hash_not_space hopen
  rw [splitLine_key hkey,trimSpace_space,trimSpace,hval]
  have hlast : (34::(v++[34,32])++35::c₂).getLast? ≠ some 34 := by
    rw [List.getLast?_append_of_ne_nil _ (List.cons_ne_nil 35 c₂)]
    intro hl
    rcases List.mem_cons.mp (List.mem_of_getLast? hl) with h35 | hmem
    · cases h35
    · rcases List.mem_cons.mp (hc₁.subset (hc₂.subset hmem)) with h32 | hmem
      · cases h32
      · exact hc hmem
  rw [List.cons_append] at hlast ⊢
  rw [unquote_open hlast]
  obtain ⟨u,hu⟩ := uncomment_open (m := v++[34,32]++35::c₂) (by simp)
  exact ⟨u,by rw [hu]⟩

/-- One line that sets the directory. -/
theorem parseYAML_directory {parseDuration : Bytes → Except Err Int64} {cfg : Config}
    {line val : Bytes} (hn : 10 ∉ line) (hne : line ≠ [])
    (h : splitLine (dropCR line) = some (ascii "log_directory",val)) (hv : v ≠ []) :
    parseYAML parseDuration line cfg = .ok {cfg with logDirectory := v} ↔
      line.length < maxScanTokenSize ∧ val = v := by
  have hkey : Field.ofKey (ascii "log_directory") = some .logDirectory :=
    Field.ofKey_key .logDirectory
  rw [parseYAML,lines_eq_singleton hn hne,scanLines]
  by_cases hlen : maxScanTokenSize ≤ line.length
  · rw [if_pos hlen]
    exact iff_of_false (fun hx => by cases hx) fun hx => absurd hx.1 (not_lt.mpr hlen)
  · rw [if_neg hlen,h]
    simp only [applyField,hkey,Field.read]
    by_cases hval : val = []
    · rw [if_pos hval]
      refine iff_of_false (fun hx => by cases hx) fun hx => hv (hx.2.symm.trans hval)
    · rw [if_neg hval]
      simp only [Except.map,scanLines,Config.set,Except.ok.injEq,Config.mk.injEq,true_and,and_true,
        not_le.mp hlen]

theorem dropCR_append {l : Bytes} (hl : l.getLast? ≠ some 13) (c : Bytes) :
    dropCR (l++c) = l++dropCR c := by
  unfold dropCR
  by_cases hc : c = []
  · rw [hc,List.append_nil,if_neg hl]
    simp
  · rw [List.getLast?_append_of_ne_nil l hc]
    split
    · exact List.dropLast_append_of_ne_nil hc
    · rfl

theorem dropCR_quoted (v : Bytes) : dropCR (quotedLine v none) = quotedLine v none := by
  have hl : (ascii "log_directory: \""++(v++[34])).getLast? ≠ some 13 := by simp
  exact if_neg hl

theorem dropCR_commented (v c : Bytes) :
    dropCR (quotedLine v (some c)) = quotedLine v (some (dropCR c)) := by
  have hl : (ascii "log_directory: \""++(v++[34,32,35,32])).getLast? ≠ some 13 := by simp
  have h := dropCR_append hl c
  simpa [quotedLine] using h

theorem quotedLine_ne_nil (v : Bytes) (comment : Option Bytes) : quotedLine v comment ≠ [] := by
  cases comment <;> exact List.cons_ne_nil _ _

end Values

/-- A quoted directory is taken literally exactly without a comment behind it and
without a comment sign in it, on a line that fits in the scanner. -/
theorem quoted_literal_iff (parseDuration : Bytes → Except Err Int64) (cfg : Config) {v : Bytes}
    {comment : Option Bytes} (hv : v ≠ []) (hq : 34 ∉ v) (hn : 10 ∉ v)
    (hc : ∀ c ∈ comment, 34 ∉ c ∧ 10 ∉ c) :
    parseYAML parseDuration (quotedLine v comment) cfg = .ok {cfg with logDirectory := v} ↔
      comment = none ∧ 35 ∉ v ∧ (quotedLine v comment).length < maxScanTokenSize := by
  have hkey : 10 ∉ ascii "log_directory: \"" := by decide
  have hne := quotedLine_ne_nil v comment
  cases comment with
  | none =>
      have hline : 10 ∉ quotedLine v none := by simp [quotedLine,hkey,hn]
      have hsplit := splitLine_quoted v
      rw [← dropCR_quoted] at hsplit
      rw [parseYAML_directory hline hne hsplit hv,uncomment_eq_iff]
      simp [and_comm]
  | some c =>
      obtain ⟨hcq,hcn⟩ := hc c rfl
      have hline : 10 ∉ quotedLine v (some c) := by simp [quotedLine,hkey,hn,hcn]
      have hdrop : 34 ∉ dropCR c := by
        unfold dropCR
        split
        · exact fun h => hcq (List.mem_of_mem_dropLast h)
        · exact hcq
      obtain ⟨u,hsplit⟩ := splitLine_commented v hdrop
      rw [← dropCR_commented] at hsplit
      rw [parseYAML_directory hline hne hsplit hv]
      refine iff_of_false (fun h => ?_) (fun h => by cases h.1)
      exact hq (h.2 ▸ List.mem_cons_self)

theorem quoted_literal_iff_plain :
    ascii "/a b" ≠ [] ∧ 34 ∉ ascii "/a b" ∧ 10 ∉ ascii "/a b" ∧
      (parseYAML (fun _ => .ok 0) (quotedLine (ascii "/a b") none) defaults =
          .ok {defaults with logDirectory := ascii "/a b"} ↔
        (none : Option Bytes) = none ∧ 35 ∉ ascii "/a b" ∧
          (quotedLine (ascii "/a b") none).length < maxScanTokenSize) :=
  ⟨by decide,by decide,by decide,
    quoted_literal_iff _ _ (by decide) (by decide) (by decide) (by simp)⟩

/-- A comment makes the quotes part of the directory, and a comment sign between
the quotes cuts it. -/
theorem quotes_kept_and_value_cut :
    parseYAML (fun _ => .ok 0) (quotedLine (ascii "/a") (some (ascii "x"))) defaults =
      .ok {defaults with logDirectory := ascii "\"/a\""} ∧
    parseYAML (fun _ => .ok 0) (quotedLine (ascii "/a#b") none) defaults =
      .ok {defaults with logDirectory := ascii "/a"} := by
  decide +kernel

end Kage.QuotedValues
