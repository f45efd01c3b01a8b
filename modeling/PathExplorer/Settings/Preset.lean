import PathExplorer.Settings.Fault

namespace PathExplorer

inductive Preset where
  | fast
  | balanced
  | thorough
deriving DecidableEq

namespace Preset

def default : Preset := .balanced

def name : Preset → String
  | fast => "fast"
  | balanced => "balanced"
  | thorough => "thorough"

instance : ToString Preset := ⟨name⟩

def ofName? (name : String) : Option Preset :=
  [fast, balanced, thorough].find? (·.name = name)

def parse (text : String) : Except SettingsFault Preset :=
  match ofName? text.toLower with
  | some preset => .ok preset
  | none => .error (.unknownPreset text)

end Preset

end PathExplorer
