import PathExplorer.Settings.Basic
import PathExplorer.Text.Format
import PathExplorer.Text.Yaml.Scalar

namespace PathExplorer

def supportedVersions : List Nat := [1]

namespace SelectorSettings

def fieldNames : List String :=
  ["inner_distance_coefficient", "inter_distance_coefficient", "distance_cache_capacity"]

def ofSlots? {α : Type} (nat? : Nat → α → Option Nat) : List (Option α) → Option SelectorSettings
  | [inner, inter, capacity] => do
    let inner ← defaulted default.inner.toNat (nat? greatest32) inner
    let inter ← defaulted default.inter.toNat (nat? greatest32) inter
    let capacity ← defaulted default.capacity.toNat (nat? greatest64) capacity
    return { inner := .ofNat inner, inter := .ofNat inter, capacity := .ofNat capacity }
  | _ => none

def numbers (s : SelectorSettings) : List Nat := [s.inner.toNat, s.inter.toNat, s.capacity.toNat]

/-- A section of a document.  Fields it does not know are left out of account. -/
def ofYaml? (y : Yaml) : Option SelectorSettings := do
  let fields ← y.fields?
  ofSlots? Yaml.nat? (← fieldNames.mapM (field? fields))

def toYaml (s : SelectorSettings) : Yaml :=
  .mapping ((fieldNames.zip s.numbers).map fun f => (.scalar f.1 true, .scalar (toString f.2) true))

def ofJson? (j : Json) : Option SelectorSettings := do ofSlots? Json.nat? (← j.slots? fieldNames)

def toJson (s : SelectorSettings) : Json :=
  .ofFields ((fieldNames.zip s.numbers).map fun f => (f.1, .natural f.2))

end SelectorSettings

namespace ExplorationSettings

def fieldNames : List String := ["steps_limit", "stop_when_goals_satisfied"]

def ofSlots? {α : Type} (limit? : α → Option (Option Nat)) (bool? : α → Option Bool) :
    List (Option α) → Option ExplorationSettings
  | [limit, stop] => do
    let limit ← defaulted (default.stepsLimit.map UInt64.toNat) limit? limit
    let stop ← defaulted default.stopWhenSatisfied bool? stop
    return { stepsLimit := limit.map UInt64.ofNat, stopWhenSatisfied := stop }
  | _ => none

def ofYaml? (y : Yaml) : Option ExplorationSettings := do
  let fields ← y.fields?
  ofSlots? (Yaml.nullable (Yaml.nat? greatest64)) Yaml.bool? (← fieldNames.mapM (field? fields))

def toYaml (s : ExplorationSettings) : Yaml :=
  let limit := s.stepsLimit.elim "null" toString
  .mapping [
    (.scalar "steps_limit" true, .scalar limit true),
    (.scalar "stop_when_goals_satisfied" true, .scalar (toString s.stopWhenSatisfied) true)]

def ofJson? (j : Json) : Option ExplorationSettings := do
  ofSlots? (Json.nullable (Json.nat? greatest64)) Json.bool? (← j.slots? fieldNames)

def toJson (s : ExplorationSettings) : Json :=
  .ofFields [
    ("steps_limit", s.stepsLimit.elim .null fun n => .natural n.toNat),
    ("stop_when_goals_satisfied", .bool s.stopWhenSatisfied)]

end ExplorationSettings

def Preset.ofJson? (j : Json) : Option Preset := do
  let (name, value) ← j.choice?
  if Json.isBare value then Preset.ofName? name else none

structure SettingsDocument where
  version : Option Nat
  preset : Option String
  selector : Option SelectorSettings
  exploration : Option ExplorationSettings

namespace SettingsDocument

def fieldNames : List String := ["version", "preset", "selector", "exploration"]

def ofYaml? (y : Yaml) : Option SettingsDocument := do
  let fields ← y.fields?
  if fields.any fun f => !fieldNames.contains f.1 then none
  else
    let read {α : Type} (name : String) (value? : Yaml → Option α) : Option (Option α) := do
      defaulted none (Yaml.nullable value?) (← field? fields name)
    return {
      version := ← read "version" (Yaml.nat? greatest32)
      preset := ← read "preset" Yaml.text?
      selector := ← read "selector" SelectorSettings.ofYaml?
      exploration := ← read "exploration" ExplorationSettings.ofYaml? }

def checkVersion (d : SettingsDocument) : Except SettingsFault Unit :=
  match d.version with
  | none => .error .missingVersion
  | some v =>
    if supportedVersions.contains v then .ok ()
    else .error (.unsupportedVersion v supportedVersions)

/-- The settings that a document stands for: those of its preset, in which the sections it has
replace the whole section. -/
def settings (d : SettingsDocument) : Except SettingsFault Settings := do
  d.checkVersion
  let preset ← d.preset.elim (.ok .default) Preset.parse
  let base := Settings.ofPreset preset
  return { base with
    selector := d.selector.getD base.selector
    exploration := d.exploration.getD base.exploration }

end SettingsDocument

namespace Settings

def ofYaml (y : Yaml) : Except SettingsFault Settings :=
  match SettingsDocument.ofYaml? y with
  | none => .error (.yaml "no settings document")
  | some document => do (← document.settings).validated

def ofYamlText (yaml : Format Yaml) (text : String) : Except SettingsFault Settings :=
  match yaml.read? text with
  | none => .error (.yaml "no document")
  | some y => ofYaml y

def toYaml (s : Settings) : Yaml :=
  .mapping [
    (.scalar "version" true, .scalar "1" true),
    (.scalar "preset" true, .scalar s.preset.name true),
    (.scalar "selector" true, s.selector.toYaml),
    (.scalar "exploration" true, s.exploration.toYaml)]

def yamlText (yaml : Format Yaml) (s : Settings) : String := yaml.write s.toYaml

def ofJson? (j : Json) : Option Settings := do
  match ← j.slots? ["preset", "selector", "exploration"] with
  | [preset, selector, exploration] => return {
      preset := ← defaulted default.preset Preset.ofJson? preset
      selector := ← defaulted default.selector SelectorSettings.ofJson? selector
      exploration := ← defaulted default.exploration ExplorationSettings.ofJson? exploration }
  | _ => none

/-- The settings that the text of a record stands for, whether they are in order or not. -/
def ofJsonText (json : Format Json) (text : String) : Except SettingsFault Settings :=
  match json.read? text >>= ofJson? with
  | none => .error (.json "no settings record")
  | some s => .ok s

def toJson (s : Settings) : Json :=
  .ofFields [("preset", .text s.preset.name), ("selector", s.selector.toJson),
    ("exploration", s.exploration.toJson)]

def jsonText (json : Format Json) (s : Settings) : String := json.write s.toJson

end Settings

end PathExplorer
