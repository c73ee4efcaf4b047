import Nmos6502.Config
import Nmos6502.Proofs.Config.Records

/-!
# What a configuration is read from

An object gives a setting by the member with its name, and an array by the element at its
position (`Setting.Gives`).  Whichever codec reads it, a value is read as a configuration if it has
one of these two shapes and gives no setting a value of another kind; then each setting is the one
given, or its default (`Config.read?_eq_some_iff`).

So of an object only the members that name a setting count.  Where no name is used twice a member
counts wherever it stands (`Json.member?_eq_some_iff_mem`), and neither the order of the members
nor the other ones can be seen in the configuration.
-/

set_option autoImplicit false

namespace Nmos6502

namespace Json

/-! ## Members in any order -/

/-- The last of the members with this name has the value. -/
def Holds (members : List (String × Json)) (name : String) (value : Json) : Prop :=
  ∃ earlier later, members = earlier ++ (name, value) :: later ∧ ∀ other, (name, other) ∉ later

variable {members : List (String × Json)} {name : String} {value : Json}

theorem member?_eq_some_iff : member? members name = some value ↔ Holds members name value := by
  rw [member?, List.lookup_eq_some_iff]
  constructor
  · rintro ⟨later, earlier, reversed, apart⟩
    refine ⟨earlier.reverse, later.reverse, ?_, fun other found => ?_⟩
    · rw [← List.reverse_reverse members, reversed]
      simp
    · exact absurd (apart _ (List.mem_reverse.mp found)) (by simp)
  · rintro ⟨earlier, later, rfl, apart⟩
    refine ⟨later.reverse, earlier.reverse, by simp, fun member found => bne_iff_ne.mpr ?_⟩
    rintro rfl
    exact apart member.2 (List.mem_reverse.mp found)

theorem member?_eq_some_iff_mem (distinct : (members.map Prod.fst).Nodup) :
    member? members name = some value ↔ (name, value) ∈ members := by
  rw [member?_eq_some_iff]
  constructor
  · rintro ⟨earlier, later, rfl, -⟩
    exact List.mem_append_right _ (List.mem_cons_self ..)
  · intro found
    obtain ⟨earlier, later, rfl⟩ := List.append_of_mem found
    refine ⟨earlier, later, rfl, fun other again => ?_⟩
    rw [List.map_append, List.map_cons, List.nodup_append, List.nodup_cons] at distinct
    exact distinct.2.1.1 (List.mem_map.mpr ⟨(name, other), again, rfl⟩)

theorem member?_perm {others : List (String × Json)} (distinct : (members.map Prod.fst).Nodup)
    (same : members.Perm others) (name : String) : member? members name = member? others name := by
  ext value
  rw [member?_eq_some_iff_mem distinct, member?_eq_some_iff_mem ((same.map _).nodup distinct),
    same.mem_iff]

theorem lookup_filter {keeps : String → Bool} (kept : keeps name = true) :
    (members.filter fun member => keeps member.1).lookup name = members.lookup name := by
  induction members with
  | nil => rfl
  | cons member rest inductionHypothesis =>
      obtain ⟨other, value⟩ := member
      by_cases same : name = other
      · subst same
        rw [List.filter_cons, if_pos kept, List.lookup_cons_self, List.lookup_cons_self]
      · rw [List.lookup_cons, beq_false_of_ne same, ← inductionHypothesis, List.filter_cons]
        split
        · rw [List.lookup_cons, beq_false_of_ne same]
        · rfl

theorem member?_filter {keeps : String → Bool} (kept : keeps name = true) :
    member? (members.filter fun member => keeps member.1) name = member? members name := by
  rw [member?, member?, ← List.filter_reverse, lookup_filter kept]

end Json

/-! ## Settings -/

inductive Setting where
  | strict
  | decimalMode
  | resetSp
  deriving DecidableEq, Repr

namespace Setting

def all : List Setting := [strict, decimalMode, resetSp]

def name : Setting → String
  | strict => "strict"
  | decimalMode => "decimal_mode"
  | resetSp => "reset_sp"

def position : Setting → Nat
  | strict => 0
  | decimalMode => 1
  | resetSp => 2

def default : Setting → Json
  | strict | decimalMode => .bool true
  | resetSp => .integer 253

def datum (config : Config) : Setting → Datum
  | strict => .bool config.strict
  | decimalMode => .bool config.decimalMode
  | resetSp => .byte config.resetSp

def field (setting : Setting) : Field where
  name := setting.name
  default := setting.datum {}

/-- The kind of value that a setting has: a Boolean, or an integer that a byte can hold. -/
def Suits : Setting → Json → Prop
  | strict, value | decimalMode, value => ∃ choice, value = .bool choice
  | resetSp, value => ∃ number : Int, 0 ≤ number ∧ number ≤ 255 ∧ value = .integer number

/-- The value is given for the setting: by its name in an object, by its position in an array. -/
inductive Gives : Json → Setting → Json → Prop where
  | member {members : List (String × Json)} {setting : Setting} {value : Json}
      (held : Json.Holds members setting.name value) : Gives (.object members) setting value
  | element {elements : List Json} {setting : Setting} {value : Json}
      (placed : elements[setting.position]? = some value) : Gives (.array elements) setting value

def known (members : List (String × Json)) : List (String × Json) :=
  members.filter fun member => (all.map name).contains member.1

def given? (setting : Setting) : Json → Option Json
  | .object members => Json.member? members setting.name
  | .array elements => elements[setting.position]?
  | _ => none

theorem given?_eq_some_iff {setting : Setting} {json value : Json} :
    setting.given? json = some value ↔ Gives json setting value := by
  constructor
  · intro found
    cases json with
    | object members => exact .member (Json.member?_eq_some_iff.mp found)
    | array elements => exact .element found
    | _ => cases found
  · rintro (held | placed)
    · exact Json.member?_eq_some_iff.mpr held
    · exact placed

theorem given?_eq_none_iff {setting : Setting} {json : Json} :
    setting.given? json = none ↔ ∀ value, ¬ Gives json setting value := by
  simp only [Option.eq_none_iff_forall_ne_some, ne_eq, given?_eq_some_iff]

theorem suits_default (setting : Setting) : setting.Suits setting.default := by
  cases setting with
  | strict | decimalMode => exact ⟨true, rfl⟩
  | resetSp => exact ⟨253, by decide, by decide, rfl⟩

theorem contains_name (setting : Setting) : (all.map name).contains setting.name = true := by
  cases setting <;> decide

theorem given?_of_known {members others : List (String × Json)}
    (distinct : ((known members).map Prod.fst).Nodup) (same : (known members).Perm (known others))
    (setting : Setting) : setting.given? (.object members) = setting.given? (.object others) :=
  calc Json.member? members setting.name
      = Json.member? (known members) setting.name :=
        (Json.member?_filter setting.contains_name).symm
    _ = Json.member? (known others) setting.name := Json.member?_perm distinct same _
    _ = Json.member? others setting.name := Json.member?_filter setting.contains_name

end Setting

namespace Config

inductive Shaped : Json → Prop where
  | object (members : List (String × Json)) : Shaped (.object members)
  | array {elements : List Json} (short : elements.length ≤ 3) : Shaped (.array elements)

def value (config : Config) (setting : Setting) : Json := (setting.datum config).json

theorem suits_value (config : Config) (setting : Setting) :
    setting.Suits (config.value setting) := by
  cases setting with
  | strict | decimalMode => exact ⟨_, rfl⟩
  | resetSp =>
      have bound := config.resetSp.isLt
      exact ⟨config.resetSp.toNat, by omega, by omega, rfl⟩

/-! ## Reading -/

theorem ofData?_eq_some_iff {data : List Datum} {config : Config} :
    ofData? data = some config ↔ data = config.data := by
  constructor
  · intro made
    unfold ofData? at made
    split at made
    · cases made
      rfl
    · cases made
  · rintro rfl
    rfl

theorem names_distinct : (fields.map Field.name).Nodup := by decide

theorem getElem?_fields (setting : Setting) : fields[setting.position]? = some setting.field := by
  cases setting <;> rfl

theorem exists_position {index : Nat} {field : Field} (found : fields[index]? = some field) :
    ∃ setting : Setting, index = setting.position ∧ field = setting.field := by
  have within : index < 3 := (List.getElem?_eq_some_iff.mp found).1
  have position : ∃ setting : Setting, index = setting.position := by
    match index, within with
    | 0, _ => exact ⟨.strict, rfl⟩
    | 1, _ => exact ⟨.decimalMode, rfl⟩
    | 2, _ => exact ⟨.resetSp, rfl⟩
  obtain ⟨setting, rfl⟩ := position
  exact ⟨setting, rfl, Option.some.inj (found.symm.trans (getElem?_fields setting))⟩

section

variable {codec : Codec} {config : Config}

theorem settle?_eq_some_iff (laws : codec.Laws) {setting : Setting} {given : Option Json} :
    codec.settle? setting.field given = some (setting.datum config) ↔
      given.getD setting.default = config.value setting := by
  cases given with
  | none =>
      cases setting with
      | strict | decimalMode =>
          change some (Datum.bool true) = some (.bool _) ↔ Json.bool true = .bool _
          rw [Option.some_inj, Datum.bool.injEq, Json.bool.injEq]
      | resetSp =>
          change some (Datum.byte 0xFD) = some (.byte config.resetSp) ↔
            Json.integer (0xFD : Byte).toNat = .integer config.resetSp.toNat
          rw [Option.some_inj, Datum.byte.injEq, Json.integer.injEq, Int.natCast_inj,
            BitVec.toNat_inj]
  | some json =>
      cases setting with
      | strict | decimalMode =>
          change (codec.bool? json).map Datum.bool = some (.bool _) ↔ json = .bool _
          simp only [Option.map_eq_some_iff, Datum.bool.injEq, exists_eq_right, laws.bool]
      | resetSp =>
          change (codec.byte? json).map Datum.byte = some (.byte _) ↔ json = .integer _
          simp only [Option.map_eq_some_iff, Datum.byte.injEq, exists_eq_right, laws.byte]

theorem fills_iff (laws : codec.Laws) {given : Nat → Field → Option Json} :
    codec.Fills fields given config.data ↔ ∀ setting : Setting,
      (given setting.position setting.field).getD setting.default = config.value setting := by
  have data : ∀ setting : Setting,
      config.data[setting.position]? = some (setting.datum config) := by
    rintro (_ | _ | _) <;> rfl
  constructor
  · intro fills setting
    rw [← settle?_eq_some_iff laws, ← data]
    exact (fills.settled _ _ (getElem?_fields setting)).symm
  · intro each
    refine ⟨rfl, fun index field found => ?_⟩
    obtain ⟨setting, rfl, rfl⟩ := exists_position found
    rw [data, (settle?_eq_some_iff laws).mpr (each setting)]

/-- A configuration is read from either shape, setting by setting. -/
theorem read?_eq_some_iff (laws : codec.Laws) {json : Json} :
    read? codec json = some config ↔
      Shaped json ∧ ∀ setting : Setting,
        (setting.given? json).getD setting.default = config.value setting := by
  have filled : read? codec json = some config ↔
      codec.record? fields json = some config.data := by
    rw [read?, Option.bind_eq_some_iff]
    simp only [ofData?_eq_some_iff, exists_eq_right]
  rw [filled]
  cases json with
  | object members =>
      rw [laws.object_iff names_distinct, fills_iff laws, and_iff_right (.object members)]
      rfl
  | array elements =>
      rw [laws.array_iff, fills_iff laws]
      exact and_congr_left' ⟨fun short => .array short, by rintro ⟨⟩; assumption⟩
  | _ =>
      rw [laws.shapeless _ _ (by simp) (by simp)]
      exact iff_of_false (by simp) (by rintro ⟨⟨⟩, -⟩)

theorem exists_value_eq {choice : Setting → Json}
    (suits : ∀ setting : Setting, setting.Suits (choice setting)) :
    ∃ config : Config, ∀ setting, choice setting = config.value setting := by
  obtain ⟨strict, isStrict⟩ := suits .strict
  obtain ⟨decimalMode, isDecimalMode⟩ := suits .decimalMode
  obtain ⟨number, atLeast, atMost, isNumber⟩ := suits .resetSp
  refine ⟨{ strict, decimalMode, resetSp := BitVec.ofInt 8 number }, ?_⟩
  rintro (_ | _ | _)
  · exact isStrict
  · exact isDecimalMode
  · rw [isNumber, value, Setting.datum, Datum.json, BitVec.toNat_ofInt]
    congr 1
    omega

theorem exists_read?_iff (laws : codec.Laws) {json : Json} :
    (∃ config, read? codec json = some config) ↔
      Shaped json ∧ ∀ setting value, Setting.Gives json setting value → setting.Suits value := by
  constructor
  · rintro ⟨config, read⟩
    obtain ⟨shaped, values⟩ := (read?_eq_some_iff laws).mp read
    refine ⟨shaped, fun setting value gives => ?_⟩
    have same := values setting
    rw [Setting.given?_eq_some_iff.mpr gives, Option.getD_some] at same
    exact same ▸ config.suits_value setting
  · rintro ⟨shaped, suits⟩
    have each : ∀ setting : Setting,
        setting.Suits ((setting.given? json).getD setting.default) := by
      intro setting
      cases given : setting.given? json with
      | none => exact setting.suits_default
      | some value => exact suits setting value (Setting.given?_eq_some_iff.mp given)
    obtain ⟨config, values⟩ := exists_value_eq each
    exact ⟨config, (read?_eq_some_iff laws).mpr ⟨shaped, values⟩⟩

theorem read?_eq_of_given? (laws : codec.Laws) {members others : List (String × Json)}
    (same : ∀ setting : Setting,
      setting.given? (.object members) = setting.given? (.object others)) :
    read? codec (.object members) = read? codec (.object others) := by
  ext config
  rw [read?_eq_some_iff laws, read?_eq_some_iff laws]
  simp only [same, Shaped.object]

/-! ## Written forms -/

def members (config : Config) : List (String × Json) :=
  (names.zip config.data).map fun (name, datum) => (name, datum.json)

theorem members_distinct (config : Config) : (config.members.map Prod.fst).Nodup := by
  change names.Nodup
  decide

theorem mem_members (setting : Setting) :
    (setting.name, config.value setting) ∈ config.members := by
  cases setting with
  | strict => exact .head _
  | decimalMode => exact .tail _ (.head _)
  | resetSp => exact .tail _ (.tail _ (.head _))

/-- The order in which a codec writes the members does not matter. -/
theorem read?_write (laws : codec.Laws) : read? codec (write codec config) = some config := by
  obtain ⟨members, written, same⟩ := laws.written (names.zip config.data)
  have distinct : (members.map Prod.fst).Nodup := (same.map _).nodup_iff.mpr config.members_distinct
  rw [write, written, read?_eq_some_iff laws]
  refine ⟨.object members, fun setting => ?_⟩
  have held : Json.member? members setting.name = some (config.value setting) :=
    (Json.member?_eq_some_iff_mem distinct).mpr (same.mem_iff.mpr (mem_members setting))
  rw [Setting.given?, held, Option.getD_some]

theorem read?_toArray (laws : codec.Laws) : read? codec config.toArray = some config := by
  rw [read?_eq_some_iff laws]
  refine ⟨.array (Nat.le_refl 3), ?_⟩
  rintro (_ | _ | _) <;> rfl

end

/-- Whichever codec is used: a value is read as a configuration if and only if it is an object or an
array of at most three elements and gives a Boolean for each of the two switches and a byte for the
stack pointer, as far as it gives them.  A setting is then the one given or, if none is, its
default.  Two objects that name no setting twice and have the same members for the settings, in any
order and with any others, are read alike, and both written forms of a configuration are read
back. -/
theorem reads_settings (codec : Codec) (laws : codec.Laws) :
    (∀ json : Json, (∃ config, read? codec json = some config) ↔
      Shaped json ∧ ∀ setting value, Setting.Gives json setting value → setting.Suits value) ∧
    (∀ (json : Json) (config : Config), read? codec json = some config → ∀ setting : Setting,
      (∀ value, Setting.Gives json setting value → config.value setting = value) ∧
        ((∀ value, ¬ Setting.Gives json setting value) →
          config.value setting = setting.default)) ∧
    (∀ members others : List (String × Json), ((Setting.known members).map Prod.fst).Nodup →
      (Setting.known members).Perm (Setting.known others) →
        read? codec (.object members) = read? codec (.object others)) ∧
    ∀ config : Config, read? codec (write codec config) = some config ∧
      read? codec config.toArray = some config := by
  refine ⟨fun json => exists_read?_iff laws, ?given, ?members, ?written⟩
  case given =>
    intro json config read setting
    have same := ((read?_eq_some_iff laws).mp read).2 setting
    refine ⟨fun value gives => ?_, fun none => ?_⟩
    · rw [Setting.given?_eq_some_iff.mpr gives, Option.getD_some] at same
      exact same.symm
    · rw [Setting.given?_eq_none_iff.mpr none, Option.getD_none] at same
      exact same.symm
  case members =>
    intro members others distinct same
    exact read?_eq_of_given? laws (Setting.given?_of_known distinct same)
  case written => exact fun config => ⟨read?_write laws, read?_toArray laws⟩

/-- A stack pointer and a switch in either order, once beside a member of no meaning; the other
switch is missing. -/
theorem reads_reordered :
    let members : List (String × Json) :=
      [("reset_sp", .integer 16), ("clock", .array [.null]), ("strict", .bool false)]
    let others : List (String × Json) := [("strict", .bool false), ("reset_sp", .integer 16)]
    ∃ config, read? .plain (.object members) = some config ∧
      config.value .resetSp = .integer 16 ∧ config.value .decimalMode = .bool true ∧
        read? .plain (.object members) = read? .plain (.object others) := by
  intro members others
  have read : read? .plain (.object members) = some { strict := false, resetSp := 16 } := by rfl
  have given : Setting.Gives (.object members) .resetSp (.integer 16) :=
    Setting.given?_eq_some_iff.mp (by rfl)
  have missing : ∀ value, ¬ Setting.Gives (.object members) .decimalMode value :=
    Setting.given?_eq_none_iff.mp (by rfl)
  have same : (Setting.known members).Perm (Setting.known others) := by
    have left : Setting.known members = [("reset_sp", .integer 16), ("strict", .bool false)] := by
      rfl
    have right : Setting.known others = others := by rfl
    rw [left, right]
    exact .swap ..
  exact ⟨_, read, ((reads_settings .plain Codec.plain_laws).2.1 _ _ read .resetSp).1 _ given,
    ((reads_settings .plain Codec.plain_laws).2.1 _ _ read .decimalMode).2 missing,
    (reads_settings .plain Codec.plain_laws).2.2.1 members others (by decide) same⟩

end Config

end Nmos6502
