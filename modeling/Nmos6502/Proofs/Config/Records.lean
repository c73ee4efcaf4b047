import Nmos6502.Record

/-!
# Codecs that keep the rules

A codec is known by its rules (`Codec.Laws`): which values stand for a Boolean and for a byte,
what one more member or one more element does to a record, and what the members of a written
record are.  From the rules for a single member and a single element it follows, by induction on
the members and on the elements, what is read from a whole object (`Codec.Laws.object_iff`) and
from a whole array (`Codec.Laws.array_iff`): every field has what is given for it, or its default
(`Scalars.Fills`).
-/

set_option autoImplicit false

namespace Nmos6502

/-- A missing field takes its default, a member that names no field is passed over, of two members
with one name the later counts, and a field that is given must be readable.  An array gives the
fields in their order and no more than these.  A record is written as an object with a member for
each field. -/
structure Codec.Laws (codec : Codec) : Prop where
  bool : ∀ json value, codec.bool? json = some value ↔ json = .bool value
  byte : ∀ json value, codec.byte? json = some value ↔ json = .integer value.toNat
  memberless : ∀ fields, codec.record? fields (.object []) = some (fields.map Field.default)
  unknown : ∀ fields name value rest, (∀ field ∈ fields, field.name ≠ name) →
    codec.record? fields (.object ((name, value) :: rest)) = codec.record? fields (.object rest)
  repeated : ∀ fields name value rest, name ∈ rest.map Prod.fst →
    codec.record? fields (.object ((name, value) :: rest)) = codec.record? fields (.object rest)
  member : ∀ fields index field value rest, fields[index]? = some field →
    (fields.map Field.name).Nodup → field.name ∉ rest.map Prod.fst →
      codec.record? fields (.object ((field.name, value) :: rest)) = do
        let datum ← codec.datum? field value
        let data ← codec.record? fields (.object rest)
        return data.set index datum
  elementless : ∀ fields, codec.record? fields (.array []) = some (fields.map Field.default)
  element : ∀ field fields value rest,
    codec.record? (field :: fields) (.array (value :: rest)) = do
      let datum ← codec.datum? field value
      let data ← codec.record? fields (.array rest)
      return datum :: data
  surplus : ∀ value rest, codec.record? [] (.array (value :: rest)) = none
  shapeless : ∀ fields json, (∀ members, json ≠ .object members) →
    (∀ elements, json ≠ .array elements) → codec.record? fields json = none
  written : ∀ record, ∃ members, codec.write record = .object members ∧
    members.Perm (record.map fun (name, datum) => (name, datum.json))

/-! ## Members of an object -/

namespace Json

variable {members rest : List (String × Json)} {name other : String} {value : Json}

theorem member?_cons : member? ((name, value) :: rest) other =
    (member? rest other).or (if other == name then some value else none) := by
  rw [member?, List.reverse_cons, List.lookup_append, ← member?]
  congr 1
  rw [List.lookup_cons]
  cases other == name <;> rfl

theorem member?_eq_none_iff : member? members name = none ↔ name ∉ members.map Prod.fst := by
  rw [member?, List.lookup_eq_none_iff]
  constructor
  · intro apart named
    obtain ⟨member, found, rfl⟩ := List.mem_map.mp named
    exact absurd (apart member (List.mem_reverse.mpr found)) (by simp)
  · intro unnamed member found
    refine bne_iff_ne.mpr fun same => unnamed ?_
    exact List.mem_map.mpr ⟨member, List.mem_reverse.mp found, same.symm⟩

theorem member?_cons_of_ne (apart : other ≠ name) :
    member? ((name, value) :: rest) other = member? rest other := by
  rw [member?_cons, beq_false_of_ne apart, if_neg Bool.false_ne_true, Option.or_none]

theorem member?_cons_of_mem (again : name ∈ rest.map Prod.fst) :
    member? ((name, value) :: rest) other = member? rest other := by
  by_cases same : other = name
  · obtain ⟨later, found⟩ := Option.ne_none_iff_exists'.mp
      (mt member?_eq_none_iff.mp (not_not_intro again))
    rw [same, member?_cons, found, Option.some_or]
  · exact member?_cons_of_ne same

theorem member?_cons_self (last : name ∉ rest.map Prod.fst) :
    member? ((name, value) :: rest) name = some value := by
  rw [member?_cons, member?_eq_none_iff.mpr last, Option.none_or, beq_self_eq_true, if_pos rfl]

end Json

/-! ## Filled records -/

theorem Field.index_inj {fields : List Field} (distinct : (fields.map Field.name).Nodup)
    {index position : Nat} {field other : Field} (found : fields[index]? = some field)
    (there : fields[position]? = some other) (same : field.name = other.name) :
    index = position := by
  have within : index < (fields.map Field.name).length := by
    rw [List.length_map]
    exact (List.getElem?_eq_some_iff.mp found).1
  refine (List.getElem?_inj within distinct).mp ?_
  rw [List.getElem?_map, List.getElem?_map, found, there]
  exact congrArg some same

namespace Scalars

variable (scalars : Scalars)

def settle? (field : Field) : Option Json → Option Datum
  | none => some field.default
  | some json => scalars.datum? field json

/-- Each field has the datum that is given for it, or its default if none is. -/
structure Fills (fields : List Field) (given : Nat → Field → Option Json) (data : List Datum) :
    Prop where
  length : data.length = fields.length
  settled : ∀ index field, fields[index]? = some field →
    data[index]? = scalars.settle? field (given index field)

variable {scalars} {field : Field} {fields : List Field} {given also : Nat → Field → Option Json}
  {data : List Datum}

theorem fills_congr (same : ∀ index field, fields[index]? = some field →
      also index field = given index field) :
    scalars.Fills fields also data ↔ scalars.Fills fields given data := by
  constructor
  · intro fills
    refine ⟨fills.length, fun index field found => ?_⟩
    rw [fills.settled index field found, same index field found]
  · intro fills
    refine ⟨fills.length, fun index field found => ?_⟩
    rw [fills.settled index field found, same index field found]

theorem Fills.getElem? (fills : scalars.Fills fields given data) {index : Nat}
    (found : fields[index]? = some field) : ∃ datum, data[index]? = some datum ∧
      scalars.settle? field (given index field) = some datum := by
  have within : index < data.length := fills.length ▸ (List.getElem?_eq_some_iff.mp found).1
  exact ⟨_, List.getElem?_eq_getElem within,
    (fills.settled index field found).symm.trans (List.getElem?_eq_getElem within)⟩

theorem Fills.set (fills : scalars.Fills fields given data) {index : Nat} {datum : Datum}
    (found : fields[index]? = some field)
    (settled : scalars.settle? field (also index field) = some datum)
    (same : ∀ other field, other ≠ index → fields[other]? = some field →
      also other field = given other field) :
    scalars.Fills fields also (data.set index datum) where
  length := (List.length_set ..).trans fills.length
  settled other field' there := by
    by_cases here : other = index
    · subst here
      obtain rfl : field' = field := Option.some.inj (there.symm.trans found)
      have within : other < data.length := fills.length ▸ (List.getElem?_eq_some_iff.mp there).1
      rw [List.getElem?_set_self within, settled]
    · rw [List.getElem?_set_ne (Ne.symm here), same other field' here there,
        fills.settled other field' there]

theorem fills_defaults :
    scalars.Fills fields (fun _ _ => none) data ↔ data = fields.map Field.default := by
  constructor
  · intro fills
    apply List.ext_getElem?
    intro index
    rw [List.getElem?_map]
    cases found : fields[index]? with
    | some field => exact fills.settled index field found
    | none =>
        rw [List.getElem?_eq_none_iff] at found
        exact List.getElem?_eq_none (fills.length ▸ found)
  · rintro rfl
    exact ⟨List.length_map _, fun index field found => by rw [List.getElem?_map, found]; rfl⟩

theorem fills_cons {datum : Datum} :
    scalars.Fills (field :: fields) given (datum :: data) ↔
      scalars.settle? field (given 0 field) = some datum ∧
        scalars.Fills fields (fun index => given (index + 1)) data := by
  constructor
  · intro fills
    exact ⟨(fills.settled 0 field rfl).symm, Nat.succ.inj fills.length,
      fun index => fills.settled (index + 1)⟩
  · rintro ⟨first, rest⟩
    refine ⟨congrArg Nat.succ rest.length, ?_⟩
    rintro (_ | index) other found
    · obtain rfl : field = other := Option.some.inj found
      exact first.symm
    · exact rest.settled index other found

end Scalars

/-! ## Whole objects and whole arrays -/

namespace Codec.Laws

variable {codec : Codec} {fields : List Field} {data : List Datum}

/-- One more member that names a field gives this field another value, and leaves the others. -/
theorem member_iff (laws : codec.Laws) (distinct : (fields.map Field.name).Nodup)
    {rest : List (String × Json)} {value : Json} {index : Nat} {field : Field}
    (found : fields[index]? = some field) (last : field.name ∉ rest.map Prod.fst)
    (rest_iff : ∀ data, codec.record? fields (.object rest) = some data ↔
      codec.Fills fields (fun _ field => Json.member? rest field.name) data) :
    codec.record? fields (.object ((field.name, value) :: rest)) = some data ↔
      codec.Fills fields (fun _ other => Json.member? ((field.name, value) :: rest) other.name)
        data := by
  have others : ∀ position other, position ≠ index → fields[position]? = some other →
      Json.member? ((field.name, value) :: rest) other.name = Json.member? rest other.name :=
    fun position other apart there => Json.member?_cons_of_ne fun same =>
      apart (Field.index_inj distinct there found same)
  rw [laws.member _ _ _ _ _ found distinct last]
  simp only [Option.bind_eq_bind, Option.bind_eq_some_iff, Option.pure_def, Option.some_inj]
  constructor
  · rintro ⟨datum, readable, before, read, rfl⟩
    refine ((rest_iff before).mp read).set found ?_ others
    rwa [Json.member?_cons_self last]
  · intro fills
    obtain ⟨datum, there, settled⟩ := fills.getElem? found
    rw [Json.member?_cons_self last] at settled
    -- Without this member the field has its default, and nothing else is different.
    refine ⟨datum, settled, data.set index field.default, (rest_iff _).mpr ?_, ?_⟩
    · refine fills.set found ?_ fun position other apart there =>
        (others position other apart there).symm
      rw [Json.member?_eq_none_iff.mpr last]
      rfl
    · obtain ⟨within, rfl⟩ := List.getElem?_eq_some_iff.mp there
      rw [List.set_set, List.set_getElem_self]

theorem object_iff (laws : codec.Laws) (distinct : (fields.map Field.name).Nodup)
    {members : List (String × Json)} :
    codec.record? fields (.object members) = some data ↔
      codec.Fills fields (fun _ field => Json.member? members field.name) data := by
  induction members generalizing data with
  | nil =>
      rw [laws.memberless, Option.some_inj, eq_comm]
      exact Scalars.fills_defaults.symm
  | cons head rest inductionHypothesis =>
      obtain ⟨name, value⟩ := head
      -- The name comes again in a later member, or is that of one field, or of none.
      by_cases again : name ∈ rest.map Prod.fst
      · rw [laws.repeated _ _ _ _ again, inductionHypothesis]
        simp only [Json.member?_cons_of_mem again]
      by_cases known : ∃ field ∈ fields, field.name = name
      · obtain ⟨field, member, rfl⟩ := known
        obtain ⟨index, found⟩ := List.mem_iff_getElem?.mp member
        exact laws.member_iff distinct found again fun _ => inductionHypothesis
      · have apart : ∀ field ∈ fields, field.name ≠ name :=
          fun field member same => known ⟨field, member, same⟩
        have unseen : ∀ (index : Nat) (field : Field), fields[index]? = some field →
            Json.member? ((name, value) :: rest) field.name = Json.member? rest field.name :=
          fun index field found =>
            Json.member?_cons_of_ne (apart field (List.mem_of_getElem? found))
        rw [laws.unknown _ _ _ _ apart, inductionHypothesis, Scalars.fills_congr unseen]

theorem array_iff (laws : codec.Laws) {elements : List Json} :
    codec.record? fields (.array elements) = some data ↔
      elements.length ≤ fields.length ∧
        codec.Fills fields (fun index _ => elements[index]?) data := by
  induction elements generalizing fields data with
  | nil =>
      rw [laws.elementless, Option.some_inj, eq_comm]
      exact Scalars.fills_defaults.symm.trans (and_iff_right (Nat.zero_le _)).symm
  | cons value rest inductionHypothesis =>
      cases fields with
      | nil =>
          rw [laws.surplus]
          exact iff_of_false (by simp) fun filled => absurd filled.1 (by simp)
      | cons field fields =>
          rw [laws.element]
          simp only [Option.bind_eq_bind, Option.bind_eq_some_iff, Option.pure_def,
            Option.some_inj, List.length_cons, Nat.add_le_add_iff_right]
          constructor
          · rintro ⟨datum, readable, tail, read, rfl⟩
            obtain ⟨short, fills⟩ := inductionHypothesis.mp read
            exact ⟨short, Scalars.fills_cons.mpr ⟨readable, fills⟩⟩
          · rintro ⟨short, fills⟩
            cases data with
            | nil => exact absurd fills.length (by simp)
            | cons datum tail =>
                obtain ⟨readable, rest⟩ := Scalars.fills_cons.mp fills
                exact ⟨datum, readable, tail, inductionHypothesis.mpr ⟨short, rest⟩, rfl⟩

end Codec.Laws

/-! ## The plain codec -/

theorem Codec.plain_laws : Codec.plain.Laws where
  bool _ _ := Json.bool?_eq_some_iff
  byte _ _ := Json.byte?_eq_some_iff
  memberless _ := rfl
  unknown fields name value rest apart := by
    have absent : fields.findIdx? (·.name == name) = none := by
      rw [List.findIdx?_eq_none_iff]
      exact fun field member => beq_false_of_ne (apart field member)
    change ofMembers? fields ((name, value) :: rest) = ofMembers? fields rest
    rw [ofMembers?, absent]
    exact ite_self _
  repeated fields name value rest again := by
    change ofMembers? fields ((name, value) :: rest) = ofMembers? fields rest
    rw [ofMembers?, if_pos again]
  member fields index field value rest found distinct last := by
    have first : fields.findIdx? (·.name == field.name) = some index := by
      obtain ⟨within, here⟩ := List.getElem?_eq_some_iff.mp found
      refine List.findIdx?_eq_some_iff_getElem.mpr ⟨within, by simp [here], ?_⟩
      intro earlier before same
      have there := List.getElem?_eq_getElem (Nat.lt_trans before within)
      exact Nat.ne_of_lt before (Field.index_inj distinct there found (beq_iff_eq.mp same))
    change ofMembers? fields ((field.name, value) :: rest) = _
    rw [ofMembers?, if_neg last, first]
    change (fields[index]?.bind _) = _
    rw [found]
    rfl
  elementless fields := by
    change ofElements? fields [] = _
    cases fields <;> rfl
  element _ _ _ _ := rfl
  surplus _ _ := rfl
  shapeless fields json noObject noArray := by
    cases json with
    | object members => exact absurd rfl (noObject members)
    | array elements => exact absurd rfl (noArray elements)
    | _ => rfl
  written record := ⟨_, rfl, .refl _⟩

end Nmos6502
