import Kage.ConfigLoading
import Kage.SettingOverlay

/-!
# Which source a configuration value comes from

The lines of the file and the variables of the environment are texts for fields,
and loading lays them over the defaults one after another. `load_table` says so:
up to the wording of an error, `load` is `overlay` on the texts of the file
followed by those of the environment. The final check never fails, since every
reading of a text is within the range of its field and the defaults are.

Each variable occurs once in the environment, so the order in which the map is
walked changes neither which texts there are nor the last one for a field.
-/
namespace Kage.ConfigPrecedence
open ByteStrings FaultyDisk LastWrite TextTrimming SettingOverlay ConfigLoading

/-- The texts that are meant for a field. -/
def assignments (pairs : List (Bytes × Bytes)) : List (Field × Bytes) :=
  pairs.filterMap fun p => (Field.ofKey p.1).map fun f => (f,p.2)

/-- The texts of lines. -/
def ofLines (ls : List Bytes) : List (Field × Bytes) :=
  assignments (ls.filterMap fun line => splitLine (dropCR line))

/-- The texts of the file, line by line. -/
def ofFile (file : Option Bytes) : List (Field × Bytes) := ofLines (lines 10 (file.getD []))

/-- The texts of the environment. -/
def ofOrder (order : List (Bytes × Bytes)) : List (Field × Bytes) :=
  assignments (order.filter fun p => p.2 ≠ [])

def readable (parseDuration : Bytes → Except Err Int64) (f : Field) (val : Bytes) :
    Option f.Value := (f.read parseDuration val).toOption

/-- The values of a configuration, if there is one. -/
def table (r : Except Err Config) : Option (∀ f : Field, f.Value) := r.toOption.map Config.get

section Table
variable {parseDuration : Bytes → Except Err Int64} {cfg : Config}

theorem overlay_pair (key val : Bytes) (rest : List (Bytes × Bytes)) :
    overlay (readable parseDuration) cfg.get (assignments ((key,val)::rest)) =
      (applyField parseDuration cfg key val).toOption.bind fun c =>
        overlay (readable parseDuration) c.get (assignments rest) := by
  unfold applyField assignments
  rw [List.filterMap_cons]
  cases Field.ofKey key with
  | none => rfl
  | some f =>
      simp only [Option.map_some,overlay,readable]
      cases f.read parseDuration val with
      | error e => rfl
      | ok v =>
          simp only [Except.toOption,Except.map,Option.bind_some,Config.get_set]

theorem scanLines_table {ls : List Bytes} (h : ∀ line ∈ ls, line.length < maxScanTokenSize) :
    table (scanLines parseDuration ls cfg) =
      overlay (readable parseDuration) cfg.get (ofLines ls) := by
  induction ls generalizing cfg with
  | nil => rfl
  | cons line ls ih =>
      have hls : ∀ l ∈ ls, l.length < maxScanTokenSize := fun l hl =>
        h l (List.mem_cons_of_mem _ hl)
      rw [scanLines,if_neg (not_le.mpr (h line List.mem_cons_self)),ofLines,List.filterMap_cons]
      cases splitLine (dropCR line) with
      | none => exact ih hls
      | some p =>
          obtain ⟨key,val⟩ := p
          simp only [overlay_pair]
          cases applyField parseDuration cfg key val with
          | error e => rfl
          | ok c => exact ih hls

theorem applyEnv_table (order : List (Bytes × Bytes)) :
    table (applyEnv parseDuration order cfg) =
      overlay (readable parseDuration) cfg.get (ofOrder order) := by
  induction order generalizing cfg with
  | nil => rfl
  | cons p order ih =>
      obtain ⟨key,val⟩ := p
      rw [applyEnv,ofOrder,List.filter_cons]
      by_cases hv : val = []
      · simp only [hv,ne_eq,not_true_eq_false,decide_false,Bool.false_eq_true,if_false]
        exact ih
      · simp only [hv,ne_eq,not_false_eq_true,decide_true,if_true,overlay_pair]
        cases applyField parseDuration cfg key val with
        | error e => rfl
        | ok c => exact ih

theorem readable_eq_some {f : Field} {val : Bytes} {v : f.Value} :
    readable parseDuration f val = some v ↔ f.read parseDuration val = .ok v := by
  unfold readable
  cases f.read parseDuration val <;> simp [Except.toOption]

theorem overlay_inRange {ws : List (Field × Bytes)} {c : Config}
    (h : overlay (readable parseDuration) defaults.get ws = some c.get) (f : Field) :
    f.InRange (c.get f) := by
  refine overlay_forall defaults_inRange (fun k t v hv => ?_) h f
  exact Field.read_inRange (readable_eq_some.mp hv)

theorem table_eq_none {r : Except Err Config} : table r = none ↔ ∃ e, r = .error e := by
  cases r <;> simp [table,Except.toOption]

theorem table_eq_some {r : Except Err Config} {c : Config} : table r = some c.get ↔ r = .ok c := by
  cases r with
  | error e => simp [table,Except.toOption]
  | ok c' => simp [table,Except.toOption,Config.get_injective.eq_iff]

theorem table_injective {r r' : Except Err Config} (h : table r = table r') :
    r.toOption = r'.toOption := Option.map_injective Config.get_injective h

/-- Loading lays the texts of the file and of the environment over the defaults. -/
theorem load_table {file : Option Bytes}
    (h : ∀ line ∈ lines 10 (file.getD []), line.length < maxScanTokenSize)
    (order : List (Bytes × Bytes)) : table (load parseDuration file order) =
      overlay (readable parseDuration) defaults.get (ofFile file++ofOrder order) := by
  have hfile : table (file.elim (.ok defaults) fun text => parseYAML parseDuration text defaults) =
      overlay (readable parseDuration) defaults.get (ofFile file) := by
    cases file with
    | none => rfl
    | some text => exact scanLines_table h
  unfold load
  cases hcfg : file.elim (.ok defaults) fun text => parseYAML parseDuration text defaults with
  | error e =>
      rw [overlay_append,← hfile,hcfg]
      rfl
  | ok cfg =>
      have hall : overlay (readable parseDuration) defaults.get (ofFile file++ofOrder order) =
          table (applyEnv parseDuration order cfg) := by
        rw [overlay_append,← hfile,hcfg,applyEnv_table]
        rfl
      rw [hall]
      simp only
      cases hc : applyEnv parseDuration order cfg with
      | error e => rfl
      | ok c =>
          rw [hc] at hall
          simp only [Config.validate_eq_none (overlay_inRange hall)]

end Table

/-- A text that its field does not take. -/
def Invalid (parseDuration : Bytes → Except Err Int64) (a : Field × Bytes) : Prop :=
  ∃ e, a.1.read parseDuration a.2 = .error e

/-- Where the value of a field comes from, and its range. -/
structure Decided (parseDuration : Bytes → Except Err Int64) (file : Option Bytes)
    (getenv : Bytes → Bytes) (c : Config) (f : Field) : Prop where
  fromEnvironment : getenv f.variableName ≠ [] →
    f.read parseDuration (getenv f.variableName) = .ok (c.get f)
  fromFile : getenv f.variableName = [] → ∀ val, lastValue (ofFile file) f = some val →
    f.read parseDuration val = .ok (c.get f)
  fromDefaults : getenv f.variableName = [] → lastValue (ofFile file) f = none →
    c.get f = defaults.get f
  inRange : f.InRange (c.get f)

section Orders
variable {parseDuration : Bytes → Except Err Int64} {getenv : Bytes → Bytes}
variable {order : List (Bytes × Bytes)}

theorem readable_eq_none {f : Field} {val : Bytes} :
    readable parseDuration f val = none ↔ Invalid parseDuration (f,val) := by
  unfold readable Invalid
  cases f.read parseDuration val <;> simp [Except.toOption]

theorem ofOrder_vars (getenv : Bytes → Bytes) : ofOrder (vars getenv) =
    (Field.all.filter fun f => getenv f.variableName ≠ []).map fun f =>
      (f,getenv f.variableName) := by
  unfold ofOrder vars assignments
  rw [List.filter_map,List.filterMap_map]
  simp only [Function.comp_def,Field.ofKey_key,Option.map_some]
  rw [List.filterMap_eq_map']

theorem mem_ofOrder (h : order.Perm (vars getenv)) {f : Field} {val : Bytes} :
    (f,val) ∈ ofOrder order ↔ getenv f.variableName ≠ [] ∧ val = getenv f.variableName := by
  have hp : (ofOrder order).Perm (ofOrder (vars getenv)) := (h.filter _).filterMap _
  rw [hp.mem_iff,ofOrder_vars]
  simp only [List.mem_map,List.mem_filter,Prod.mk.injEq,decide_eq_true_eq]
  constructor
  · rintro ⟨g,⟨-,hg⟩,rfl,rfl⟩
    exact ⟨hg,rfl⟩
  · rintro ⟨hf,rfl⟩
    exact ⟨f,⟨f.mem_all,hf⟩,rfl,rfl⟩

theorem ofOrder_nodup (h : order.Perm (vars getenv)) : ((ofOrder order).map Prod.fst).Nodup := by
  have hp : (ofOrder order).Perm (ofOrder (vars getenv)) := (h.filter _).filterMap _
  rw [(hp.map Prod.fst).nodup_iff,ofOrder_vars,List.map_map]
  have hid : (Prod.fst ∘ fun f : Field => (f,getenv f.variableName)) = id := rfl
  rw [hid,List.map_id]
  exact (by decide : Field.all.Nodup).filter _

theorem lastValue_ofOrder (h : order.Perm (vars getenv)) (f : Field) :
    lastValue (ofOrder order) f =
      if getenv f.variableName = [] then none else some (getenv f.variableName) := by
  apply Option.ext
  intro val
  rw [lastValue_of_nodup (ofOrder_nodup h),mem_ofOrder h]
  by_cases hf : getenv f.variableName = []
  · simp [hf]
  · rw [if_neg hf,Option.some.injEq]
    exact ⟨fun hval => hval.2.symm,fun hval => ⟨hf,hval.symm⟩⟩

/-- The walk over the map does not matter. -/
theorem overlay_order {file : Option Bytes} {order' : List (Bytes × Bytes)}
    (h : order.Perm (vars getenv)) (h' : order'.Perm (vars getenv)) :
    overlay (readable parseDuration) defaults.get (ofFile file++ofOrder order) =
      overlay (readable parseDuration) defaults.get (ofFile file++ofOrder order') := by
  have hp : (ofOrder order).Perm (ofOrder order') := ((h.trans h'.symm).filter _).filterMap _
  apply overlay_congr
  · intro w
    rw [List.mem_append,List.mem_append,hp.mem_iff]
  · funext f
    rw [lastValue_append,lastValue_append,lastValue_perm hp (ofOrder_nodup h)]

theorem load_decided {file : Option Bytes} {c : Config} (h : order.Perm (vars getenv))
    (hc : overlay (readable parseDuration) defaults.get (ofFile file++ofOrder order) = some c.get)
    (f : Field) : Decided parseDuration file getenv c f := by
  have hs := overlay_settles hc f
  rw [Settles,lastValue_append,lastValue_ofOrder h] at hs
  refine ⟨fun hf => ?_,fun hf val hval => ?_,fun hf hnone => ?_,overlay_inRange hc f⟩
  · rw [if_neg hf] at hs
    exact readable_eq_some.mp hs
  · rw [if_pos hf,hval] at hs
    exact readable_eq_some.mp hs
  · rw [if_pos hf,hnone] at hs
    exact hs

end Orders

/-- For every file, every environment and every way of walking over the map:
the order of the walk does not matter, loading fails exactly if some text is not
valid for its field, and otherwise the environment decides before the file and
the file before the defaults. -/
theorem load_precedence (parseDuration : Bytes → Except Err Int64) (file : Option Bytes)
    (getenv : Bytes → Bytes)
    (hshort : ∀ line ∈ lines 10 (file.getD []), line.length < maxScanTokenSize) :
    (∀ order order' : List (Bytes × Bytes), order.Perm (vars getenv) →
      order'.Perm (vars getenv) →
      (load parseDuration file order).toOption = (load parseDuration file order').toOption) ∧
    ∀ order : List (Bytes × Bytes), order.Perm (vars getenv) →
      ((∃ e, load parseDuration file order = .error e) ↔
        (∃ a ∈ ofFile file, Invalid parseDuration a) ∨
          ∃ f : Field, getenv f.variableName ≠ [] ∧
            Invalid parseDuration (f,getenv f.variableName)) ∧
      ∀ c, load parseDuration file order = .ok c → ∀ f, Decided parseDuration file getenv c f := by
  refine ⟨fun order order' h h' => ?_,fun order h => ⟨?_,fun c hc f => ?_⟩⟩
  · apply table_injective
    rw [load_table hshort,load_table hshort,overlay_order h h']
  · rw [← table_eq_none,load_table hshort,overlay_eq_none_iff]
    simp only [List.mem_append,or_and_right,exists_or]
    apply or_congr
    · simp only [readable_eq_none]
    · constructor
      · rintro ⟨⟨f,val⟩,hmem,hnone⟩
        obtain ⟨hf,rfl⟩ := (mem_ofOrder h).mp hmem
        exact ⟨f,hf,readable_eq_none.mp hnone⟩
      · rintro ⟨f,hf,hinvalid⟩
        exact ⟨_,(mem_ofOrder h).mpr ⟨hf,rfl⟩,readable_eq_none.mpr hinvalid⟩
  · rw [← table_eq_some,load_table hshort] at hc
    exact load_decided h hc f

/-- A file that sets the port twice. -/
def portFile : Bytes := ascii "port: 80\nport: 81\n"

/-- An environment that sets only the directory. -/
def directoryEnv (name : Bytes) : Bytes :=
  if name = ascii "KAGE_LOG_DIRECTORY" then ascii "/x" else []

theorem load_precedence_reversed :
    (∀ line ∈ lines 10 portFile, line.length < maxScanTokenSize) ∧
    load (fun _ => .ok 0) (some portFile) (vars directoryEnv) =
      .ok {defaults with port := 81, logDirectory := ascii "/x"} ∧
    (load (fun _ => .ok 0) (some portFile) (vars directoryEnv).reverse).toOption =
      (load (fun _ => .ok 0) (some portFile) (vars directoryEnv)).toOption := by
  have hshort : ∀ line ∈ lines 10 portFile, line.length < maxScanTokenSize := by decide +kernel
  refine ⟨hshort,by decide +kernel,?_⟩
  exact (load_precedence _ (some portFile) directoryEnv hshort).1 _ _ (List.reverse_perm _)
    (.refl _)

end Kage.ConfigPrecedence
