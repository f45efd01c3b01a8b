import PathExplorer.Proofs.Result
import PathExplorer.Proofs.Text.Json
import PathExplorer.Proofs.Text.Yaml.Mapping
import PathExplorer.Settings.Document

namespace PathExplorer

section Numbers

variable {n greatest : Nat}

theorem Yaml.word_toString (h : n ≤ greatest64) : Yaml.Word (toString n).toList := by
  have hn := numeral_toString n
  refine ⟨hn.nonempty, fun c hc => ?_, ?_⟩
  · have hdigit := hn.isDigit c hc
    simp [Yaml.isWordChar, Char.isAlphanum, hdigit]
  · -- Twenty digits, and a key may be much longer.
    have hlt : n < 10 ^ 20 := Nat.lt_of_le_of_lt h (by decide)
    have hlength := (Nat.length_toDigits_le_iff (by decide) (by decide)).mpr hlt
    rw [Nat.toString_eq_ofList_toDigits, String.toList_ofList]
    exact Nat.le_trans hlength (by decide)

theorem Yaml.nat?_toString (h : n ≤ greatest) :
    Yaml.nat? greatest (.scalar (toString n) true) = some n := by
  rw [Yaml.nat?, Yaml.natural?_of_numeral (numeral_toString n)]
  exact if_pos h

theorem Yaml.isNull_toString (n : Nat) : Yaml.isNull (.scalar (toString n) true) = false := by
  have hn := numeral_toString n
  have hnulls : ∀ text ∈ ["", "~", "null", "Null", "NULL"], ∀ c ∈ text.toList,
      c.isDigit = false := by simp
  rw [Yaml.isNull, Bool.eq_false_iff]
  intro hmem
  obtain ⟨c, hc⟩ := List.exists_mem_of_ne_nil _ hn.nonempty
  have hdigit := hn.isDigit c hc
  rw [hnulls _ (List.contains_iff_mem.mp hmem) c hc] at hdigit
  cases hdigit

theorem Json.nat?_natural (h : n ≤ greatest) : Json.nat? greatest (.natural n) = some n := if_pos h

end Numbers

theorem toNat_le_greatest32 (n : UInt32) : n.toNat ≤ greatest32 := Nat.le_of_lt_succ n.toNat_lt

theorem toNat_le_greatest64 (n : UInt64) : n.toNat ≤ greatest64 := Nat.le_of_lt_succ n.toNat_lt

namespace SelectorSettings

variable (s : SelectorSettings)

theorem ofSlots?_numbers {α : Type} {nat? : Nat → α → Option Nat} {written : Nat → α}
    (h : ∀ greatest n, n ≤ greatest → nat? greatest (written n) = some n) :
    ofSlots? nat? (s.numbers.map fun n => some (written n)) = some s := by
  have hinner := h _ _ (toNat_le_greatest32 s.inner)
  have hinter := h _ _ (toNat_le_greatest32 s.inter)
  have hcapacity := h _ _ (toNat_le_greatest64 s.capacity)
  simp [ofSlots?, numbers, defaulted, hinner, hinter, hcapacity]

theorem ofYaml?_toYaml : ofYaml? s.toYaml = some s := by
  have hslots : ofSlots? Yaml.nat?
      (s.numbers.map fun n => some (.scalar (toString n) true)) = some s :=
    s.ofSlots?_numbers fun _ _ => Yaml.nat?_toString
  simpa [ofYaml?, toYaml, Yaml.fields?, Yaml.text?, fieldNames, numbers, field?] using hslots

theorem simple_toYaml : Yaml.Simple s.toYaml := by
  have hsmall : greatest32 ≤ greatest64 := by decide
  have hinner := Yaml.word_toString (Nat.le_trans (toNat_le_greatest32 s.inner) hsmall)
  have hinter := Yaml.word_toString (Nat.le_trans (toNat_le_greatest32 s.inter) hsmall)
  have hcapacity := Yaml.word_toString (toNat_le_greatest64 s.capacity)
  have hnames : ∀ name ∈ fieldNames, Yaml.Word name.toList := by decide +kernel
  simp only [fieldNames, List.forall_mem_cons] at hnames
  obtain ⟨hname, hname', hname'', -⟩ := hnames
  exact ⟨List.cons_ne_nil _ _, ⟨rfl, hname⟩, ⟨rfl, hinner⟩, ⟨rfl, hname'⟩, ⟨rfl, hinter⟩,
    ⟨rfl, hname''⟩, ⟨rfl, hcapacity⟩, trivial⟩

theorem ofJson?_toJson : ofJson? s.toJson = some s := by
  have hslots : ofSlots? Json.nat? (s.numbers.map fun n => some (.natural n)) = some s :=
    s.ofSlots?_numbers fun _ _ => Json.nat?_natural
  simpa [ofJson?, toJson, Json.ofFields, Json.slots?, fieldNames, numbers, field?] using hslots

theorem plain_toJson : Json.Plain s.toJson := by
  simp [toJson, Json.ofFields, fieldNames, numbers, Json.Plain, Json.PlainFields]

end SelectorSettings

namespace ExplorationSettings

variable (s : ExplorationSettings)

theorem ofSlots?_values {α : Type} {limit? : α → Option (Option Nat)} {bool? : α → Option Bool}
    {limit stop : α} (hlimit : limit? limit = some (s.stepsLimit.map UInt64.toNat))
    (hstop : bool? stop = some s.stopWhenSatisfied) :
    ofSlots? limit? bool? [some limit, some stop] = some s := by
  have hback : (s.stepsLimit.map UInt64.toNat).map UInt64.ofNat = s.stepsLimit := by
    cases s.stepsLimit <;> simp
  simp only [ofSlots?, defaulted, hlimit, hstop, Option.bind_eq_bind, Option.bind_some, hback]
  rfl

theorem ofYaml?_toYaml : ofYaml? s.toYaml = some s := by
  have hlimit : Yaml.nullable (Yaml.nat? greatest64)
      (.scalar (s.stepsLimit.elim "null" toString) true) =
      some (s.stepsLimit.map UInt64.toNat) := by
    cases s.stepsLimit with
    | none => decide
    | some n =>
      have hnull : Yaml.isNull (.scalar (toString n) true) = false := Yaml.isNull_toString n.toNat
      have hn : Yaml.nat? greatest64 (.scalar (toString n) true) = some n.toNat :=
        Yaml.nat?_toString (toNat_le_greatest64 n)
      simp [Yaml.nullable, hnull, hn]
  have hstop : Yaml.bool? (.scalar (toString s.stopWhenSatisfied) true) =
      some s.stopWhenSatisfied := by
    cases s.stopWhenSatisfied <;> decide
  have hslots := s.ofSlots?_values hlimit hstop
  simpa [ofYaml?, toYaml, Yaml.fields?, Yaml.text?, fieldNames, field?] using hslots

theorem simple_toYaml : Yaml.Simple s.toYaml := by
  have hlimit : Yaml.Word (s.stepsLimit.elim "null" toString).toList := by
    cases s.stepsLimit with
    | none => decide +kernel
    | some n => exact Yaml.word_toString (toNat_le_greatest64 n)
  have hstop : Yaml.Word (toString s.stopWhenSatisfied).toList := by
    cases s.stopWhenSatisfied <;> decide +kernel
  have hnames : ∀ name ∈ fieldNames, Yaml.Word name.toList := by decide +kernel
  simp only [fieldNames, List.forall_mem_cons] at hnames
  obtain ⟨hname, hname', -⟩ := hnames
  exact ⟨List.cons_ne_nil _ _, ⟨rfl, hname⟩, ⟨rfl, hlimit⟩, ⟨rfl, hname'⟩, ⟨rfl, hstop⟩, trivial⟩

theorem ofJson?_toJson : ofJson? s.toJson = some s := by
  have hlimit : Json.nullable (Json.nat? greatest64)
      (s.stepsLimit.elim .null fun n => .natural n.toNat) =
      some (s.stepsLimit.map UInt64.toNat) := by
    cases s.stepsLimit with
    | none => rfl
    | some n => simp [Json.nullable, Json.nat?_natural (toNat_le_greatest64 n)]
  have hstop : Json.bool? (.bool s.stopWhenSatisfied) = some s.stopWhenSatisfied := rfl
  have hslots := s.ofSlots?_values hlimit hstop
  simpa [ofJson?, toJson, Json.ofFields, Json.slots?, fieldNames, field?] using hslots

theorem plain_toJson : Json.Plain s.toJson := by
  cases hlimit : s.stepsLimit <;>
    simp [toJson, hlimit, Json.ofFields, Json.Plain, Json.PlainFields]

end ExplorationSettings

namespace Preset

theorem word_name (p : Preset) : Yaml.Word p.name.toList := by
  cases p <;> decide +kernel

theorem parse_name (p : Preset) : parse p.name = .ok p := by
  cases p <;> exact eq_ok_of_toOption (by decide +kernel)

theorem isNull_name (p : Preset) : Yaml.isNull (.scalar p.name true) = false := by
  cases p <;> decide

theorem ofJson?_name (p : Preset) : ofJson? (.text p.name) = some p := by
  cases p <;> rfl

end Preset

namespace SettingsDocument

def ofSettings (s : Settings) : SettingsDocument :=
  ⟨some 1, some s.preset.name, some s.selector, some s.exploration⟩

theorem ofYaml?_toYaml (s : Settings) : ofYaml? s.toYaml = some (ofSettings s) := by
  have hversion : Yaml.nat? greatest32 (.scalar "1" true) = some 1 := by decide
  have hversion' : Yaml.isNull (.scalar "1" true) = false := by decide
  have hpreset := s.preset.isNull_name
  have hselector := s.selector.ofYaml?_toYaml
  have hselector' : Yaml.isNull s.selector.toYaml = false := rfl
  have hexploration := s.exploration.ofYaml?_toYaml
  have hexploration' : Yaml.isNull s.exploration.toYaml = false := rfl
  simp [ofYaml?, Settings.toYaml, Yaml.fields?, Yaml.text?, fieldNames, field?, defaulted,
    Yaml.nullable, hversion, hversion', hpreset, hselector, hselector', hexploration,
    hexploration', ofSettings]

theorem settings_ofSettings (s : Settings) : (ofSettings s).settings = .ok s := by
  have hversion : (ofSettings s).checkVersion = .ok () := rfl
  have hpreset : (ofSettings s).preset.elim (.ok .default) Preset.parse = .ok s.preset :=
    s.preset.parse_name
  rw [settings, hversion, ok_bind, hpreset]
  rfl

end SettingsDocument

theorem exists_range_of_checkRange {field hint : String} {value least greatest : Nat}
    {fault : SettingsFault} (h : checkRange field value least greatest hint = .error fault) :
    ∃ r, fault = .range r := by
  unfold checkRange at h
  split at h
  · cases h
  · cases h
    exact ⟨_, rfl⟩

namespace Settings

variable {s : Settings} {fault : SettingsFault} {text : String} {yaml : Format Yaml}
  {json : Format Json}

theorem simple_toYaml (s : Settings) : Yaml.Simple s.toYaml := by
  have hnames : ∀ name ∈ SettingsDocument.fieldNames, Yaml.Word name.toList := by decide +kernel
  simp only [SettingsDocument.fieldNames, List.forall_mem_cons] at hnames
  obtain ⟨hversion, hpreset, hselector, hexploration, -⟩ := hnames
  have hone : Yaml.Word "1".toList := by decide +kernel
  exact ⟨List.cons_ne_nil _ _, ⟨rfl, hversion⟩, ⟨rfl, hone⟩, ⟨rfl, hpreset⟩,
    ⟨rfl, s.preset.word_name⟩, ⟨rfl, hselector⟩, s.selector.simple_toYaml, ⟨rfl, hexploration⟩,
    s.exploration.simple_toYaml, trivial⟩

theorem plain_toJson (s : Settings) : Json.Plain s.toJson :=
  ⟨rfl, rfl, rfl, s.selector.plain_toJson, rfl, s.exploration.plain_toJson, trivial⟩

theorem ofYaml_toYaml (s : Settings) : ofYaml s.toYaml = s.validated := by
  rw [ofYaml, SettingsDocument.ofYaml?_toYaml]
  simp only [SettingsDocument.settings_ofSettings, ok_bind]

theorem ofYamlText_yamlText (h : yaml.ReadsBack s.toYaml) :
    ofYamlText yaml (s.yamlText yaml) = s.validated := by
  have hread : yaml.read? (s.yamlText yaml) = some s.toYaml := h
  rw [ofYamlText, hread]
  exact s.ofYaml_toYaml

theorem ofJson?_toJson (s : Settings) : ofJson? s.toJson = some s := by
  have hpreset := s.preset.ofJson?_name
  have hselector := s.selector.ofJson?_toJson
  have hexploration := s.exploration.ofJson?_toJson
  simp [ofJson?, toJson, Json.ofFields, Json.slots?, field?, defaulted, hpreset, hselector,
    hexploration]

theorem ofJsonText_jsonText (h : json.ReadsBack s.toJson) :
    ofJsonText json (s.jsonText json) = .ok s := by
  have hread : json.read? (s.jsonText json) = some s.toJson := h
  rw [ofJsonText, hread, Option.bind_eq_bind, Option.bind_some, ofJson?_toJson]

theorem validated_of_validate (h : s.validate = .ok ()) : s.validated = .ok s := by
  rw [validated, h]
  rfl

theorem validated_of_fault (h : s.validate = .error fault) : s.validated = .error fault := by
  rw [validated, h]
  rfl

theorem validate_of_ofYaml {y : Yaml} (h : ofYaml y = .ok s) : s.validate = .ok () := by
  unfold ofYaml at h
  split at h
  · cases h
  · obtain ⟨t, -, h⟩ := bind_eq_ok_iff.mp h
    obtain ⟨⟨⟩, hvalidate, h⟩ := bind_eq_ok_iff.mp h
    rw [pure_eq_ok_iff.mp h]
    exact hvalidate

theorem validate_of_ofYamlText (h : ofYamlText yaml text = .ok s) : s.validate = .ok () := by
  unfold ofYamlText at h
  split at h
  · cases h
  · exact validate_of_ofYaml h

theorem exists_range_of_validate (h : s.validate = .error fault) : ∃ r, fault = .range r := by
  obtain hselector | ⟨_, -, hexploration⟩ := bind_eq_error_iff.mp h
  · obtain hinner | ⟨_, -, hrest⟩ := bind_eq_error_iff.mp hselector
    · exact exists_range_of_checkRange hinner
    · obtain hinter | ⟨_, -, hcapacity⟩ := bind_eq_error_iff.mp hrest
      · exact exists_range_of_checkRange hinter
      · exact exists_range_of_checkRange hcapacity
  · unfold ExplorationSettings.validate at hexploration
    split at hexploration
    · exact exists_range_of_checkRange hexploration
    · cases hexploration

/-- With formats that read back what they write, settings written as a document are read back if
they are in order, and otherwise refused for the number that is out of its range; written as a
record they are read back in any case.  What is read from any document is in order, so that writing
and reading it again changes nothing. -/
theorem read_back (hyaml : yaml.ReadsBack s.toYaml) (hjson : json.ReadsBack s.toJson) :
    (s.validate = .ok () → ofYamlText yaml (s.yamlText yaml) = .ok s) ∧
      (∀ fault, s.validate = .error fault →
        (∃ r, fault = .range r) ∧ ofYamlText yaml (s.yamlText yaml) = .error fault) ∧
      ofJsonText json (s.jsonText json) = .ok s ∧
      ∀ text, ofYamlText yaml text = .ok s →
        s.validate = .ok () ∧ ofYamlText yaml (s.yamlText yaml) = .ok s := by
  have hread := ofYamlText_yamlText hyaml
  have hback (h : s.validate = .ok ()) : ofYamlText yaml (s.yamlText yaml) = .ok s :=
    hread.trans (validated_of_validate h)
  refine ⟨hback, fun fault h => ?_, ofJsonText_jsonText hjson, fun text h => ?_⟩
  · exact ⟨exists_range_of_validate h, hread.trans (validated_of_fault h)⟩
  · have hvalidate := validate_of_ofYamlText h
    exact ⟨hvalidate, hback hvalidate⟩

theorem yaml_readsBack (s : Settings) : Yaml.format.ReadsBack s.toYaml :=
  Yaml.read?_write s.simple_toYaml

theorem json_readsBack (s : Settings) : Json.format.ReadsBack s.toJson :=
  Json.read?_write s.plain_toJson

theorem read_back_greatest :
    let greatest : Settings :=
      ⟨.thorough, ⟨1, 4294967295, 18446744073709551615⟩, ⟨some 18446744073709551615, false⟩⟩
    let unlimited : Settings := ⟨.fast, {}, { stepsLimit := none }⟩
    let costless : Settings := ⟨.balanced, { inner := 0 }, .default⟩
    let text := "version: 1\npreset: Thorough\nselector:\n  inter_distance_coefficient: 7\n"
    let written (s : Settings) := s.yamlText Yaml.format
    (∀ s : Settings, Yaml.format.ReadsBack s.toYaml ∧ Json.format.ReadsBack s.toJson) ∧
      ofYamlText Yaml.format (written greatest) = .ok greatest ∧
      ofYamlText Yaml.format (written unlimited) = .ok unlimited ∧
      (∃ r, ofYamlText Yaml.format (written costless) = .error (.range r) ∧
        r.field = "inner_distance_coefficient" ∧ r.value = "0") ∧
      ofJsonText Json.format (costless.jsonText Json.format) = .ok costless ∧
      ∃ s, ofYamlText Yaml.format text = .ok s ∧ s.selector.inter = 7 ∧
        ofYamlText Yaml.format (written s) = .ok s := by
  intro greatest unlimited costless text written
  have hback (s : Settings) := read_back s.yaml_readsBack s.json_readsBack
  have hcostless : costless.validate = .error (.range ⟨"inner_distance_coefficient", "0", "1",
      "4294967295", "Statement steps must have a positive cost"⟩) := by decide +kernel
  have hs : ofYamlText Yaml.format text =
      .ok ⟨.thorough, { inter := 7 }, { stepsLimit := none }⟩ :=
    eq_ok_of_toOption (by decide +kernel)
  exact ⟨fun s => ⟨s.yaml_readsBack, s.json_readsBack⟩, (hback greatest).1 rfl,
    (hback unlimited).1 rfl, ⟨_, ((hback costless).2.1 _ hcostless).2, rfl, rfl⟩,
    (hback costless).2.2.1, ⟨_, hs, rfl, ((hback _).2.2.2 text hs).2⟩⟩

end Settings

end PathExplorer
