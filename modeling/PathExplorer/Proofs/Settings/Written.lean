import PathExplorer.Proofs.Result
import PathExplorer.Settings.Document

namespace PathExplorer

def written? {α : Type} (read : Yaml → Option α) (fields : List (String × Yaml)) (name : String) :
    Option (Option α) := do
  defaulted none (fun y => (read y).map some) (← field? fields name)

structure SelectorWriting where
  inner : Option UInt32 := none
  inter : Option UInt32 := none
  capacity : Option UInt64 := none
deriving DecidableEq

/-- The fields written in a section on the exploration; the limit may be written to be none. -/
structure ExplorationWriting where
  stepsLimit : Option (Option UInt64) := none
  stopWhenSatisfied : Option Bool := none
deriving DecidableEq

structure Writing where
  preset : Preset
  selector : Option SelectorWriting
  exploration : Option ExplorationWriting
deriving DecidableEq

namespace SelectorWriting

def ofYaml? (y : Yaml) : Option SelectorWriting := do
  let fields ← y.fields?
  let inner ← written? (Yaml.nat? greatest32) fields "inner_distance_coefficient"
  let inter ← written? (Yaml.nat? greatest32) fields "inter_distance_coefficient"
  let capacity ← written? (Yaml.nat? greatest64) fields "distance_cache_capacity"
  return { inner := inner.map .ofNat, inter := inter.map .ofNat, capacity := capacity.map .ofNat }

def onto (w : SelectorWriting) (s : SelectorSettings) : SelectorSettings where
  inner := w.inner.getD s.inner
  inter := w.inter.getD s.inter
  capacity := w.capacity.getD s.capacity

end SelectorWriting

namespace ExplorationWriting

def ofYaml? (y : Yaml) : Option ExplorationWriting := do
  let fields ← y.fields?
  let limit ← written? (Yaml.nullable (Yaml.nat? greatest64)) fields "steps_limit"
  let stop ← written? Yaml.bool? fields "stop_when_goals_satisfied"
  return { stepsLimit := limit.map (·.map .ofNat), stopWhenSatisfied := stop }

def onto (w : ExplorationWriting) (s : ExplorationSettings) : ExplorationSettings where
  stepsLimit := w.stepsLimit.getD s.stepsLimit
  stopWhenSatisfied := w.stopWhenSatisfied.getD s.stopWhenSatisfied

end ExplorationWriting

namespace Writing

/-- A section that is null counts as not written. -/
def ofYaml? (y : Yaml) : Option Writing := do
  let fields ← y.fields?
  let name ← written? (Yaml.nullable Yaml.text?) fields "preset"
  let preset ← name.join.elim (some .default) fun n => (Preset.parse n).toOption
  let selector ← written? (Yaml.nullable SelectorWriting.ofYaml?) fields "selector"
  let exploration ← written? (Yaml.nullable ExplorationWriting.ofYaml?) fields "exploration"
  return ⟨preset, selector.join, exploration.join⟩

def settings (w : Writing) : Settings where
  preset := w.preset
  selector := (w.selector.getD {}).onto (Settings.ofPreset w.preset).selector
  exploration := (w.exploration.getD {}).onto (Settings.ofPreset w.preset).exploration

/-- The exploration section is there without a limit, and the preset is not the default one. -/
def DropsLimit (w : Writing) : Prop :=
  w.preset ≠ .default ∧ ∃ e, w.exploration = some e ∧ e.stepsLimit = none

end Writing

def Settings.withDefaultLimit (s : Settings) : Settings where
  preset := s.preset
  selector := s.selector
  exploration :=
    { s.exploration with stepsLimit := ExplorationSettings.default.stepsLimit }

section Read

variable {α β : Type} {read : Yaml → Option α} {fields : List (String × Yaml)} {name : String}
  {value : Option Yaml} {a : α}

/-- What is read with a default is what is written, or else the default. -/
theorem written_of_defaulted {fallback : α} (hf : field? fields name = some value)
    (h : defaulted fallback read value = some a) :
    ∃ w, written? read fields name = some w ∧ a = w.getD fallback := by
  unfold written?
  rw [hf]
  cases value with
  | none =>
    cases h
    exact ⟨none, rfl, rfl⟩
  | some y =>
    change read y = some a at h
    exact ⟨some a, by simp [defaulted, h], rfl⟩

theorem nullable_of_reads {sparse : Yaml → Option β} {full : β → α}
    (hread : ∀ y a, read y = some a → ∃ b, sparse y = some b ∧ a = full b) {a : Option α}
    (hf : field? fields name = some value)
    (h : defaulted none (Yaml.nullable read) value = some a) :
    ∃ b, written? (Yaml.nullable sparse) fields name = some b ∧ a = b.join.map full := by
  unfold written?
  rw [hf]
  cases value with
  | none =>
    cases h
    exact ⟨none, rfl, rfl⟩
  | some y =>
    change (if y.isNull then some none else (read y).map some) = some a at h
    cases hnull : y.isNull with
    | true =>
      rw [hnull] at h
      cases h
      exact ⟨some none, by simp [defaulted, Yaml.nullable, hnull], rfl⟩
    | false =>
      rw [hnull] at h
      obtain ⟨c, hc, rfl⟩ := Option.map_eq_some_iff.mp h
      obtain ⟨b, hb, rfl⟩ := hread y c hc
      exact ⟨some (some b), by simp [defaulted, Yaml.nullable, hnull, hb], rfl⟩

end Read

theorem SelectorSettings.written_of_ofYaml? {y : Yaml} {s : SelectorSettings}
    (h : ofYaml? y = some s) : ∃ w, SelectorWriting.ofYaml? y = some w ∧ s = w.onto .default := by
  obtain ⟨fields, hy, h⟩ := Option.bind_eq_some_iff.mp h
  obtain ⟨slots, hslots, h⟩ := Option.bind_eq_some_iff.mp h
  simp only [fieldNames, List.mapM_cons, List.mapM_nil] at hslots
  obtain ⟨inner?, hinner, hslots⟩ := Option.bind_eq_some_iff.mp hslots
  obtain ⟨_, hrest, hslots⟩ := Option.bind_eq_some_iff.mp hslots
  obtain ⟨inter?, hinter, hrest⟩ := Option.bind_eq_some_iff.mp hrest
  obtain ⟨_, hlast, hrest⟩ := Option.bind_eq_some_iff.mp hrest
  obtain ⟨capacity?, hcapacity, hlast⟩ := Option.bind_eq_some_iff.mp hlast
  cases hlast
  cases hrest
  cases hslots
  obtain ⟨inner, hi, h⟩ := Option.bind_eq_some_iff.mp h
  obtain ⟨inter, hj, h⟩ := Option.bind_eq_some_iff.mp h
  obtain ⟨capacity, hc, h⟩ := Option.bind_eq_some_iff.mp h
  cases h
  obtain ⟨u, hu, rfl⟩ := written_of_defaulted hinner hi
  obtain ⟨v, hv, rfl⟩ := written_of_defaulted hinter hj
  obtain ⟨w, hw, rfl⟩ := written_of_defaulted hcapacity hc
  refine ⟨_, by simp [SelectorWriting.ofYaml?, hy, hu, hv, hw]; rfl, ?_⟩
  cases u <;> cases v <;> cases w <;> simp [SelectorWriting.onto]

theorem ExplorationSettings.written_of_ofYaml? {y : Yaml} {s : ExplorationSettings}
    (h : ofYaml? y = some s) :
    ∃ w, ExplorationWriting.ofYaml? y = some w ∧ s = w.onto .default := by
  obtain ⟨fields, hy, h⟩ := Option.bind_eq_some_iff.mp h
  obtain ⟨slots, hslots, h⟩ := Option.bind_eq_some_iff.mp h
  simp only [fieldNames, List.mapM_cons, List.mapM_nil] at hslots
  obtain ⟨limit?, hlimit, hslots⟩ := Option.bind_eq_some_iff.mp hslots
  obtain ⟨_, hlast, hslots⟩ := Option.bind_eq_some_iff.mp hslots
  obtain ⟨stop?, hstop, hlast⟩ := Option.bind_eq_some_iff.mp hlast
  cases hlast
  cases hslots
  obtain ⟨limit, hl, h⟩ := Option.bind_eq_some_iff.mp h
  obtain ⟨stop, hs, h⟩ := Option.bind_eq_some_iff.mp h
  cases h
  obtain ⟨u, hu, rfl⟩ := written_of_defaulted hlimit hl
  obtain ⟨v, hv, rfl⟩ := written_of_defaulted hstop hs
  refine ⟨_, by simp [ExplorationWriting.ofYaml?, hy, hu, hv]; rfl, ?_⟩
  cases u with
  | none => simp [ExplorationWriting.onto, default, ofPreset, Preset.default]
  | some limit => rfl

theorem SettingsDocument.written_of_ofYaml? {y : Yaml} {d : SettingsDocument} {s : Settings}
    (h : ofYaml? y = some d) (hs : d.settings = .ok s) :
    ∃ w, Writing.ofYaml? y = some w ∧ s.preset = w.preset ∧
      s.selector = (w.selector.getD {}).onto .default ∧
      s.exploration = w.exploration.elim (.ofPreset w.preset) (·.onto .default) := by
  obtain ⟨fields, hy, h⟩ := Option.bind_eq_some_iff.mp h
  split at h
  · cases h
  obtain ⟨version, -, h⟩ := Option.bind_eq_some_iff.mp h
  obtain ⟨name, hname, h⟩ := Option.bind_eq_some_iff.mp h
  obtain ⟨selector, hselector, h⟩ := Option.bind_eq_some_iff.mp h
  obtain ⟨exploration, hexploration, h⟩ := Option.bind_eq_some_iff.mp h
  cases h
  obtain ⟨name?, hfn, hname⟩ := Option.bind_eq_some_iff.mp hname
  obtain ⟨selector?, hfs, hselector⟩ := Option.bind_eq_some_iff.mp hselector
  obtain ⟨exploration?, hfe, hexploration⟩ := Option.bind_eq_some_iff.mp hexploration
  have htext : ∀ y t, Yaml.text? y = some t → ∃ u, Yaml.text? y = some u ∧ t = id u :=
    fun y t h => ⟨t, h, rfl⟩
  obtain ⟨n, hn, rfl⟩ := nullable_of_reads htext hfn hname
  obtain ⟨u, hu, rfl⟩ :=
    nullable_of_reads (fun y s => SelectorSettings.written_of_ofYaml?) hfs hselector
  obtain ⟨v, hv, rfl⟩ :=
    nullable_of_reads (fun y s => ExplorationSettings.written_of_ofYaml?) hfe hexploration
  obtain ⟨_, -, hs⟩ := bind_eq_ok_iff.mp hs
  obtain ⟨preset, hpreset, hs⟩ := bind_eq_ok_iff.mp hs
  cases hs
  refine ⟨⟨preset, u.join, v.join⟩, ?_, rfl, ?_, ?_⟩
  · have hp : (n.join.elim (some .default) fun n => (Preset.parse n).toOption) = some preset := by
      cases hj : n.join with
      | none =>
        rw [hj] at hpreset
        cases hpreset
        rfl
      | some t =>
        rw [hj] at hpreset
        change Preset.parse t = .ok preset at hpreset
        simp [hpreset, Except.toOption]
    simp [Writing.ofYaml?, hy, hn, hu, hv, hp]
  · cases u.join <;> rfl
  · cases v.join <;> rfl

/-- The presets differ in the limit on the steps alone, so one that is written hides the preset. -/
theorem ExplorationWriting.onto_ofPreset {e : ExplorationWriting} (h : e.stepsLimit ≠ none)
    (p q : Preset) : e.onto (.ofPreset p) = e.onto (.ofPreset q) := by
  obtain ⟨limit, hl⟩ := Option.ne_none_iff_exists'.mp h
  cases p <;> cases q <;> simp [onto, hl, ExplorationSettings.ofPreset]

theorem ExplorationSettings.stepsLimit_ofPreset_ne {p : Preset} (h : p ≠ .default) :
    (ofPreset p).stepsLimit ≠ default.stepsLimit := by
  cases p with
  | balanced => exact absurd rfl h
  | fast | thorough => decide

/-- The format of one text, which stands for one tree. -/
def Format.only {α : Type} (text : String) (a : α) : Format α where
  read? t := if t = text then some a else none
  write _ := text

theorem Format.only_read? {α : Type} (text : String) (a : α) :
    (Format.only text a).read? text = some a := if_pos rfl

namespace Settings

variable {w : Writing} {s : Settings}

theorem exploration_of_keepsLimit
    (hs : s.exploration = w.exploration.elim (.ofPreset w.preset) (·.onto .default))
    (h : ¬ w.DropsLimit) : s.exploration = w.settings.exploration := by
  rw [hs, Writing.settings]
  cases he : w.exploration with
  | none => rfl
  | some e =>
    by_cases hl : e.stepsLimit = none
    · have hp : w.preset = .default := Classical.not_not.mp fun hp => h ⟨hp, e, he, hl⟩
      rw [hp]
      rfl
    · exact ExplorationWriting.onto_ofPreset hl _ _

theorem exploration_of_dropsLimit
    (hs : s.exploration = w.exploration.elim (.ofPreset w.preset) (·.onto .default))
    (h : w.DropsLimit) : s.exploration = w.settings.withDefaultLimit.exploration := by
  obtain ⟨-, e, he, hl⟩ := h
  have hstop : ∀ p, (ExplorationSettings.ofPreset p).stopWhenSatisfied = true := by
    intro p
    cases p <;> rfl
  rw [hs, withDefaultLimit, Writing.settings, he]
  simp [ExplorationWriting.onto, hl, ofPreset, ExplorationSettings.default, hstop]

theorem stepsLimit_of_dropsLimit (h : w.DropsLimit) :
    w.settings.exploration.stepsLimit ≠ ExplorationSettings.default.stepsLimit := by
  obtain ⟨hp, e, he, hl⟩ := h
  have hw : w.settings.exploration.stepsLimit =
      (ExplorationSettings.ofPreset w.preset).stepsLimit := by
    simp [Writing.settings, he, ExplorationWriting.onto, hl, ofPreset]
  rw [hw]
  exact ExplorationSettings.stepsLimit_ofPreset_ne hp

theorem ofYaml_written {y : Yaml} (h : ofYaml y = .ok s) :
    ∃ w, Writing.ofYaml? y = some w ∧ (s = w.settings ↔ ¬ w.DropsLimit) ∧
      (w.DropsLimit → s = w.settings.withDefaultLimit) := by
  unfold ofYaml at h
  split at h
  · cases h
  rename_i d hd
  obtain ⟨_, hs, h⟩ := bind_eq_ok_iff.mp h
  obtain ⟨_, -, h⟩ := bind_eq_ok_iff.mp h
  cases h
  obtain ⟨w, hw, hpreset, hselector, hexploration⟩ := SettingsDocument.written_of_ofYaml? hd hs
  have hsame : ∀ e, s.exploration = e → s = ⟨w.preset, w.settings.selector, e⟩ := by
    rintro e rfl
    cases s
    cases hpreset
    cases hselector
    rfl
  have hdrop : w.DropsLimit → s = w.settings.withDefaultLimit := fun hd =>
    hsame _ (exploration_of_dropsLimit hexploration hd)
  refine ⟨w, hw, ⟨fun heq hd => ?_, fun hkeeps => ?_⟩, hdrop⟩
  · have hlimit := congrArg (·.exploration.stepsLimit) (hdrop hd)
    rw [heq] at hlimit
    exact stepsLimit_of_dropsLimit hd hlimit
  · exact hsame _ (exploration_of_keepsLimit hexploration hkeeps)

/-- Whatever documents the format reads, a text stands for the settings of the preset with the
fields written in its document in their place, unless the exploration section gives up the limit of
the preset for the default one. -/
theorem ofYamlText_written {yaml : Format Yaml} {text : String} (h : ofYamlText yaml text = .ok s) :
    ∃ y w, yaml.read? text = some y ∧ Writing.ofYaml? y = some w ∧
      (s = w.settings ↔ ¬ w.DropsLimit) ∧ (w.DropsLimit → s = w.settings.withDefaultLimit) := by
  unfold ofYamlText at h
  split at h
  · cases h
  · rename_i y hy
    obtain ⟨w, hw⟩ := ofYaml_written h
    exact ⟨y, w, hy, hw⟩

def fieldsOf (fields : List (String × Yaml)) : Yaml :=
  .mapping (fields.map fun f => (.scalar f.1 true, f.2))

theorem ofYamlText_written_thorough :
    let text := "version: 1\npreset: thorough\nselector:\n  inter_distance_coefficient: 7\n"
    let y := fieldsOf [("version", .scalar "1" true), ("preset", .scalar "thorough" true),
      ("selector", fieldsOf [("inter_distance_coefficient", .scalar "7" true)])]
    let yaml := Format.only text y
    ∃ s w, ofYamlText yaml text = .ok s ∧ Writing.ofYaml? y = some w ∧ s = w.settings ∧
      s.selector.inter = 7 ∧ s.exploration.stepsLimit = none := by
  intro text y yaml
  have hs : ofYamlText yaml text = .ok ⟨.thorough, { inter := 7 }, { stepsLimit := none }⟩ :=
    eq_ok_of_toOption (by decide +kernel)
  have hw : Writing.ofYaml? y = some ⟨.thorough, some { inter := some 7 }, none⟩ := by
    decide +kernel
  obtain ⟨y', w, hy, hw', hkeeps, -⟩ := ofYamlText_written hs
  cases (Format.only_read? text y).symm.trans hy
  cases hw.symm.trans hw'
  refine ⟨_, _, hs, hw, hkeeps.mpr ?_, rfl, rfl⟩
  rintro ⟨-, e, he, -⟩
  cases he

/-- A document that names a preset and only writes when to stop has ten times the preset's limit. -/
theorem ofYamlText_dropsLimit_fast :
    let text := "version: 1\npreset: fast\nexploration:\n  stop_when_goals_satisfied: false\n"
    let y := fieldsOf [("version", .scalar "1" true), ("preset", .scalar "fast" true),
      ("exploration", fieldsOf [("stop_when_goals_satisfied", .scalar "false" true)])]
    ∃ s w, ofYamlText (Format.only text y) text = .ok s ∧ Writing.ofYaml? y = some w ∧
      w = ⟨.fast, none, some { stopWhenSatisfied := some false }⟩ ∧
      w.settings.exploration = ⟨some 10000, false⟩ ∧ s.exploration = ⟨some 100000, false⟩ ∧
      s ≠ w.settings := by
  intro text y
  have hs : ofYamlText (Format.only text y) text =
      .ok ⟨.fast, .default, ⟨some 100000, false⟩⟩ := eq_ok_of_toOption (by decide +kernel)
  exact ⟨_, _, hs, by decide +kernel, rfl, rfl, rfl, by decide⟩

end Settings

end PathExplorer
