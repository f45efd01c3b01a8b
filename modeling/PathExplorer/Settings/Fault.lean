namespace PathExplorer

structure RangeFault where
  field : String
  value : String
  least : String
  greatest : String
  hint : String
deriving DecidableEq

inductive SettingsFault where
  | range (fault : RangeFault)
  | missingVersion
  | unsupportedVersion (found : Nat) (supported : List Nat)
  | unknownPreset (name : String)
  | yaml (reason : String)
  | json (reason : String)
  | io (reason : String)
  | validation (reason : String)
deriving DecidableEq

def RangeFault.message (f : RangeFault) : String :=
  s!"Invalid range for field '{f.field}': {f.value} not in {f.least}..={f.greatest}. {f.hint}"

def SettingsFault.message : SettingsFault → String
  | range fault => fault.message
  | missingVersion =>
    "Missing 'version' field in configuration file. Add 'version: 1' to the top of your YAML file."
  | unsupportedVersion found supported =>
    let known := ", ".intercalate (supported.map toString)
    s!"Unsupported configuration version {found}. Supported versions: {known}"
  | unknownPreset name => s!"Unknown preset '{name}'. Valid presets: fast, balanced, thorough"
  | yaml reason => s!"YAML parsing error: {reason}"
  | json reason => s!"JSON error: {reason}"
  | io reason => s!"IO error: {reason}"
  | validation reason => s!"Validation error: {reason}"

end PathExplorer
