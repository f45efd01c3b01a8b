import PathExplorer.Fault
import PathExplorer.Settings.Preset

namespace PathExplorer

structure SelectorSettings where
  inner : UInt32 := 1
  inter : UInt32 := 3
  capacity : UInt64 := 4096
deriving DecidableEq

structure ExplorationSettings where
  stepsLimit : Option UInt64
  stopWhenSatisfied : Bool := true
deriving DecidableEq

structure Settings where
  preset : Preset
  selector : SelectorSettings
  exploration : ExplorationSettings
deriving DecidableEq

class Checked (α : Type) where
  label : α → String
  validate : α → Except SettingsFault Unit

instance {α : Type} [Checked α] : Checked (Option α) where
  label
    | some a => Checked.label a
    | none => "Config"
  validate
    | some a => Checked.validate a
    | none => .ok ()

def accept {α : Type} [Checked α] (a : α) : Except Fault α :=
  match Checked.validate a with
  | .ok () => .ok a
  | .error fault => .error (.settings fault)

def greatest32 : Nat := UInt32.size - 1

def greatest64 : Nat := UInt64.size - 1

def checkRange (field : String) (value least greatest : Nat) (hint : String) :
    Except SettingsFault Unit :=
  if least ≤ value then .ok ()
  else .error (.range ⟨field, toString value, toString least, toString greatest, hint⟩)

namespace SelectorSettings

def default : SelectorSettings := {}

def validate (s : SelectorSettings) : Except SettingsFault Unit := do
  checkRange "inner_distance_coefficient" s.inner.toNat 1 greatest32
    "Statement steps must have a positive cost"
  checkRange "inter_distance_coefficient" s.inter.toNat s.inner.toNat greatest32
    "A call-graph hop must cost at least as much as a statement step"
  checkRange "distance_cache_capacity" s.capacity.toNat 1 greatest64
    "The interprocedural cache needs room for at least one entry"

instance : Checked SelectorSettings := ⟨fun _ => "SelectorConfig", validate⟩

end SelectorSettings

namespace ExplorationSettings

def ofPreset : Preset → ExplorationSettings
  | .fast => { stepsLimit := some 10000 }
  | .balanced => { stepsLimit := some 100000 }
  | .thorough => { stepsLimit := none }

def default : ExplorationSettings := ofPreset .default

def validate (s : ExplorationSettings) : Except SettingsFault Unit :=
  match s.stepsLimit with
  | some limit =>
    checkRange "steps_limit" limit.toNat 1 greatest64 "Use no limit instead of a zero budget"
  | none => .ok ()

instance : Checked ExplorationSettings := ⟨fun _ => "ExplorationConfig", validate⟩

end ExplorationSettings

namespace Settings

def ofPreset (p : Preset) : Settings := ⟨p, .default, .ofPreset p⟩

def default : Settings := ofPreset .default

def validate (s : Settings) : Except SettingsFault Unit := do
  s.selector.validate
  s.exploration.validate

instance : Checked Settings := ⟨fun _ => "GuidedConfig", validate⟩

def validated (s : Settings) : Except SettingsFault Settings := do
  s.validate
  return s

end Settings

end PathExplorer
