import Mathlib.Data.List.Forall2
import Stencil.Json.Record

-- The rules of records in the template format, as relations between JSON values and what they say. The functions that
-- read records follow these rules.

namespace Stencil.Json

-- The declared fields of a record. In an object each of them stands once or not at all, and other fields do not
-- matter. A list gives them in their order, and may end before the last.
inductive Record (names : List String) : Json → List (Option Json) → Prop where
  | object {fields : List (String × Json)} {slots : List (Option Json)} :
    List.Forall₂ (fun name slot => fields.filter (fun field => field.1 = name) =
      (slot.map fun value => (name, value)).toList) names slots →
    Record names (.object fields) slots
  | array {items : List Json} : items.length ≤ names.length →
    Record names (.array items) (items.map some ++ List.replicate (names.length - items.length) none)

-- What stands for the type of a tagged record, and the record of the other fields.
inductive Tagged : Json → Json → Json → Prop where
  | object {fields : List (String × Json)} {tag : Json} :
    fields.filter (fun field => field.1 = "type") = [("type", tag)] → Tagged (.object fields) tag (.object fields)
  | array {tag : Json} {rest : List Json} : Tagged (.array (tag :: rest)) tag (.array rest)

-- The type that a name or a number stands for. Numbers count the types, and those beyond stand for another one.
inductive TypeName (types : List String) (other : Option String) : Json → String → Prop where
  | name (kind : String) : TypeName types other (.string kind) kind
  | number {index : Nat} {kind : String} : types[index]? = some kind →
    TypeName types other (.number (.integer index)) kind
  | beyond {index : Nat} {kind : String} : types.length ≤ index → other = some kind →
    TypeName types other (.number (.integer index)) kind

-- A tagged record of some type, with the record of its other fields.
def Typed (types : List String) (other : Option String) (json : Json) (kind : String) (rest : Json) : Prop :=
  ∃ tag, Tagged json tag rest ∧ TypeName types other tag kind

-- The declared fields of a tagged record of some type.
def Fields (types : List String) (other : Option String) (json : Json) (kind : String) (names : List String)
    (slots : List (Option Json)) : Prop :=
  ∃ rest, Typed types other json kind rest ∧ Record names rest slots

-- A tagged record that gives its type by name.
def Named (json : Json) : Prop := ∃ kind rest, Tagged json (.string kind) rest

-- A value that stands by itself gives its type by name, and otherwise follows the rules of nested values.
def Alone {β : Type} (nested : Json → β → Prop) (json : Json) (value : β) : Prop := nested json value ∧ json.Named

-- A choice in a nested record.
inductive Choice : Json → String → Prop where
  | name (name : String) : Choice (.string name) name
  | null (name : String) : Choice (.object [(name, .null)]) name
  | empty (name : String) : Choice (.object [(name, .object [])]) name

-- A list, item by item.
def Lists {β : Type} (holds : Json → β → Prop) (json : Json) (values : List β) : Prop :=
  ∃ items, json = .array items ∧ List.Forall₂ holds items values

-- A field with a default.
def Filled {β : Type} (slot : Option Json) (absent : β) (holds : Json → β → Prop) (value : β) : Prop :=
  match slot with
  | none => value = absent
  | some json => holds json value

theorem mapM_eq_some {α β : Type} {f : α → Option β} {items : List α} {results : List β} :
    items.mapM f = some results ↔ List.Forall₂ (fun item result => f item = some result) items results := by
  constructor
  · intro mapped
    induction items generalizing results with
    | nil =>
      cases mapped
      exact .nil
    | cons item rest ih =>
      simp only [List.mapM_cons, Option.bind_eq_bind, Option.bind_eq_some_iff, Option.pure_def,
        Option.some.injEq] at mapped
      obtain ⟨result, first, others, more, rfl⟩ := mapped
      exact .cons first (ih more)
  · intro each
    induction each with
    | nil => rfl
    | cons first _ ih =>
      rw [List.mapM_cons, first, ih]
      rfl

namespace Body

variable {α β : Type}

theorem optional_eq_some {slot : Option Json} {absent : β} {read? : Json → Option β} {value : β} :
    optional slot absent read? = some value ↔ Filled slot absent (fun json value => read? json = some value) value := by
  cases slot with
  | none => exact ⟨fun same => (Option.some.inj same).symm, fun same => congrArg some same.symm⟩
  | some json => exact Iff.rfl

theorem optional_map {γ : Type} (f : α → γ) (slot : Option α) (absent : β) (read? : γ → Option β) :
    optional (slot.map f) absent read? = optional slot absent (fun value => read? (f value)) := by
  cases slot <;> rfl

def map (f : α → β) : Body α → Body β
  | .named fields => .named (fields.map fun field => (field.1, f field.2))
  | .listed items => .listed (items.map f)

theorem field?_map (f : α → β) (fields : List (String × α)) (name : String) :
    field? (fields.map fun field => (field.1, f field.2)) name = (field? fields name).map (Option.map f) := by
  have filtered : (fields.map fun field => (field.1, f field.2)).filter (fun field => field.1 = name) =
      (fields.filter fun field => field.1 = name).map fun field => (field.1, f field.2) := List.filter_map
  unfold field?
  rw [filtered]
  generalize fields.filter (fun field => field.1 = name) = found
  rcases found with _ | ⟨first, _ | ⟨second, more⟩⟩
  · rfl
  · rfl
  · rfl

theorem slots?_map (f : α → β) (names : List String) (body : Body α) :
    (body.map f).slots? names = (body.slots? names).map (List.map (Option.map f)) := by
  cases body with
  | named fields =>
    show names.mapM (field? (fields.map fun field => (field.1, f field.2))) =
      (names.mapM (field? fields)).map (List.map (Option.map f))
    induction names with
    | nil => rfl
    | cons name rest ih =>
      rw [List.mapM_cons, List.mapM_cons, field?_map, ih]
      cases field? fields name with
      | none => rfl
      | some slot => cases rest.mapM (field? fields) <;> rfl
  | listed items =>
    simp only [map, slots?, List.length_map]
    split
    · simp
    · rfl

theorem tagged?_map (f : α → β) (type? : β → Option String) (body : Body α) :
    (body.map f).tagged? type? =
      (body.tagged? fun item => type? (f item)).map fun found => (found.1, found.2.map f) := by
  cases body with
  | named fields =>
    simp only [map, tagged?, field?_map]
    rcases field? fields "type" with _ | _ | tag
    · rfl
    · rfl
    · show (type? (f tag)).bind _ = ((type? (f tag)).bind _).map _
      cases type? (f tag) <;> rfl
  | listed items =>
    cases items with
    | nil => rfl
    | cons tag rest =>
      show (type? (f tag)).map _ = ((type? (f tag)).map _).map _
      cases type? (f tag) <;> rfl

theorem field?_eq_some {fields : List (String × α)} {name : String} {slot : Option α} :
    field? fields name = some slot ↔
      fields.filter (fun field => field.1 = name) = (slot.map fun value => (name, value)).toList := by
  have named : ∀ field ∈ fields.filter (fun field => field.1 = name), field.1 = name := fun field member =>
    of_decide_eq_true (List.mem_filter.mp member).2
  unfold field?
  generalize fields.filter (fun field => field.1 = name) = found at named
  rcases found with _ | ⟨⟨own, value⟩, _ | ⟨second, more⟩⟩
  · cases slot <;> simp
  · cases named _ List.mem_cons_self
    cases slot <;> simp
  · cases slot <;> simp

end Body

section Reading

variable {json : Json} {names : List String} {slots : List (Option Json)}

theorem record_iff : (json.body?.bind fun body => body.slots? names) = some slots ↔ Record names json slots := by
  cases json with
  | object fields =>
    calc (names.mapM (Body.field? fields) = some slots)
      _ ↔ List.Forall₂ (fun name slot => Body.field? fields name = some slot) names slots := mapM_eq_some
      _ ↔ Record names (.object fields) slots := by
        simp only [Body.field?_eq_some]
        constructor
        · exact .object
        · intro record
          cases record with
          | object each => exact each
  | array items =>
    show (if items.length ≤ names.length then _ else none) = some slots ↔ _
    constructor
    · intro read
      split at read
      · rename_i short
        cases read
        exact .array short
      · cases read
    · intro record
      cases record with
      | array short => rw [if_pos short]
  | _ => exact ⟨nofun, nofun⟩

theorem record_of {body : Body Json} (same : json.body? = some body) (read : body.slots? names = some slots) :
    Record names json slots := by
  apply record_iff.mp
  rw [same]
  exact read

theorem Record.body (record : Record names json slots) :
    ∃ body, json.body? = some body ∧ body.slots? names = some slots :=
  Option.bind_eq_some_iff.mp (record_iff.mpr record)

theorem tagged_iff {type? : Json → Option String} {kind : String} {body : Body Json} :
    (json.body?.bind fun body => body.tagged? type?) = some (kind, body) ↔
      ∃ tag rest, Tagged json tag rest ∧ type? tag = some kind ∧ rest.body? = some body := by
  cases json with
  | object fields =>
    constructor
    · intro read
      simp only [body?, Option.bind_some, Body.tagged?, Option.bind_eq_bind, Option.bind_eq_some_iff,
        Option.some.injEq, Prod.mk.injEq] at read
      obtain ⟨_, found, tag, rfl, _, named, rfl, rfl⟩ := read
      exact ⟨tag, .object fields, .object (Body.field?_eq_some.mp found), named, rfl⟩
    · rintro ⟨tag, rest, tagged, named, same⟩
      cases tagged with
      | object found =>
        cases same
        have field : Body.field? fields "type" = some (some tag) := Body.field?_eq_some.mpr found
        simp [body?, Body.tagged?, field, named]
  | array items =>
    constructor
    · intro read
      cases items with
      | nil => cases read
      | cons tag rest =>
        obtain ⟨_, named, same⟩ := Option.map_eq_some_iff.mp read
        cases same
        exact ⟨tag, .array rest, .array, named, rfl⟩
    · rintro ⟨tag, rest, tagged, named, same⟩
      cases tagged with
      | array =>
        cases same
        exact Option.map_eq_some_iff.mpr ⟨kind, named, rfl⟩
  | _ =>
    constructor
    · intro read
      cases read
    · rintro ⟨_, _, tagged, _⟩
      cases tagged

theorem nestedType?_iff {types : List String} {other : Option String} {tag : Json} {kind : String} :
    tag.nestedType? types other = some kind ↔ TypeName types other tag kind := by
  constructor
  · intro read
    unfold nestedType? at read
    split at read
    · cases read
      exact .name kind
    · rename_i value
      split at read
      · rename_i positive
        obtain ⟨index, rfl⟩ := Int.eq_ofNat_of_zero_le positive
        rw [Int.toNat_natCast] at read
        cases found : types[index]? with
        | some own =>
          rw [found, Option.some_or] at read
          cases read
          exact .number found
        | none =>
          rw [found, Option.none_or] at read
          exact .beyond (List.getElem?_eq_none_iff.mp found) read
      · cases read
    · cases read
  · intro named
    cases named with
    | name => rfl
    | number found => simp [nestedType?, found]
    | beyond past another => simp [nestedType?, List.getElem?_eq_none_iff.mpr past, another]

section Typed

variable {β : Type} {types : List String} {other : Option String} (next : String × Body Json → Option β)

theorem typed_eq {kind : String} {rest : Json} {body : Body Json} (typed : Typed types other json kind rest)
    (same : rest.body? = some body) :
    (json.body?.bind fun body => (body.tagged? (nestedType? types other)).bind next) = next (kind, body) := by
  obtain ⟨tag, tagged, named⟩ := typed
  rw [← Option.bind_assoc, tagged_iff.mpr ⟨tag, rest, tagged, nestedType?_iff.mpr named, same⟩]
  rfl

theorem typed_iff {result : β} :
    (json.body?.bind fun body => (body.tagged? (nestedType? types other)).bind next) = some result ↔
      ∃ kind rest body, Typed types other json kind rest ∧ rest.body? = some body ∧
        next (kind, body) = some result := by
  constructor
  · intro read
    rw [← Option.bind_assoc, Option.bind_eq_some_iff] at read
    obtain ⟨⟨kind, body⟩, typed, read⟩ := read
    obtain ⟨tag, rest, tagged, named, same⟩ := tagged_iff.mp typed
    exact ⟨kind, rest, body, ⟨tag, tagged, nestedType?_iff.mp named⟩, same, read⟩
  · rintro ⟨kind, rest, body, typed, same, read⟩
    rw [typed_eq next typed same]
    exact read

end Typed

theorem nestedChoice?_iff {name : String} : json.nestedChoice? = some name ↔ Choice json name := by
  constructor
  · intro read
    unfold nestedChoice? at read
    split at read
    · cases read
      exact .empty name
    · unfold choice? at read
      split at read
      · cases read
        exact .name name
      · cases read
        exact .null name
      · cases read
  · intro choice
    cases choice with
    | name => rfl
    | null => rfl
    | empty => rfl

theorem choice?_iff {name : String} :
    json.choice? = some name ↔ json = .string name ∨ json = .object [(name, .null)] := by
  constructor
  · intro read
    unfold choice? at read
    split at read
    · cases read
      exact .inl rfl
    · cases read
      exact .inr rfl
    · cases read
  · rintro (rfl | rfl) <;> rfl

theorem string?_iff {text : String} : json.string? = some text ↔ json = .string text := by
  cases json <;> simp [string?]

theorem bool?_iff {value : Bool} : json.bool? = some value ↔ json = .bool value := by
  cases json <;> simp [bool?]

theorem number?_iff {value : Number} : json.number? = some value ↔ json = .number value := by
  cases json <;> simp [number?]

theorem array?_iff {items : List Json} : json.array? = some items ↔ json = .array items := by
  cases json <;> simp [array?]

theorem lists_iff {β : Type} {read? : Json → Option β} {holds : Json → β → Prop}
    (agree : ∀ item value, read? item = some value ↔ holds item value) {values : List β} :
    (json.array?.bind fun items => items.mapM read?) = some values ↔ Lists holds json values := by
  simp only [Option.bind_eq_some_iff, array?_iff, mapM_eq_some, agree]
  exact Iff.rfl

theorem word?_iff {value : UInt32} : json.word? = some value ↔ json = ofWord value := by
  constructor
  · intro read
    unfold word? at read
    split at read
    · rename_i number
      split at read
      · rename_i small
        simp only [Bool.and_eq_true, decide_eq_true_eq] at small
        obtain ⟨positive, bounded⟩ := small
        obtain ⟨whole, rfl⟩ := Int.eq_ofNat_of_zero_le positive
        cases read
        have fits : whole < 2 ^ 32 := by exact_mod_cast bounded
        rw [ofWord, Int.toNat_natCast, Nat.toUInt32, UInt32.toNat_ofNat_of_lt' fits]
      · cases read
    · cases read
  · rintro rfl
    have bounded : (value.toNat : Int) < Nat.pow 2 32 := Int.ofNat_lt.mpr value.toNat_lt
    have small : (decide (0 ≤ (value.toNat : Int)) && decide ((value.toNat : Int) < Nat.pow 2 32)) = true := by
      rw [Bool.and_eq_true, decide_eq_true_eq, decide_eq_true_eq]
      exact ⟨Int.natCast_nonneg _, bounded⟩
    rw [ofWord, word?, if_pos small, Int.toNat_natCast]
    exact congrArg some value.ofNat_toNat

@[simp] theorem word?_ofWord (value : UInt32) : (ofWord value).word? = some value := word?_iff.mpr rfl

-- For a tagged record the two ways to tell that it gives its type by name are the same.
theorem Tagged.namesType_iff {tag rest : Json} (tagged : Tagged json tag rest) :
    json.namesType = true ↔ ∃ kind, tag = .string kind := by
  cases tagged with
  | object found =>
    rename_i fields
    have typed (value : Json) : ("type", value) ∈ fields ↔ value = tag := by
      have member : ("type", value) ∈ fields.filter (fun field => field.1 = "type") ↔ value = tag := by simp [found]
      rw [← member, List.mem_filter]
      simp
    constructor
    · intro any
      obtain ⟨⟨name, value⟩, member, isType⟩ := List.any_eq_true.mp any
      simp only [Bool.and_eq_true, decide_eq_true_eq, Option.isSome_iff_exists] at isType
      obtain ⟨rfl, kind, named⟩ := isType
      cases string?_iff.mp named
      exact ⟨kind, ((typed _).mp member).symm⟩
    · rintro ⟨kind, rfl⟩
      exact List.any_eq_true.mpr ⟨("type", .string kind), (typed _).mpr rfl, rfl⟩
  | array =>
    show tag.string?.isSome = true ↔ _
    rw [Option.isSome_iff_exists]
    simp only [string?_iff]

-- A value by itself is read as a nested one that gives its type by name.
theorem alone_iff {β : Type} {read? : Json → Option β} {value : β}
    (typed : read? json = some value → ∃ tag rest, Tagged json tag rest) :
    (if json.namesType then read? json else none) = some value ↔ read? json = some value ∧ Named json := by
  constructor
  · intro read
    split at read
    · rename_i names
      obtain ⟨tag, rest, tagged⟩ := typed read
      obtain ⟨kind, rfl⟩ := tagged.namesType_iff.mp names
      exact ⟨read, kind, rest, tagged⟩
    · cases read
  · rintro ⟨read, kind, rest, tagged⟩
    rw [if_pos (tagged.namesType_iff.mpr ⟨kind, rfl⟩)]
    exact read

end Reading

section Writing

variable {names : List String} {values : List Json}

theorem Record.behind {front : List (String × Json)} (apart : ∀ field ∈ front, field.1 ∉ names)
    (distinct : names.Nodup) (full : values.length = names.length) :
    Record names (.object (front ++ names.zip values)) (values.map some) := by
  refine .object ?_
  induction names generalizing values front with
  | nil =>
    cases List.length_eq_zero_iff.mp full
    exact .nil
  | cons name rest ih =>
    obtain _ | ⟨value, others⟩ := values
    · cases full
    · obtain ⟨fresh, distinct⟩ := List.nodup_cons.mp distinct
      have none_before : front.filter (fun field => field.1 = name) = [] := by
        rw [List.filter_eq_nil_iff]
        intro field member same
        exact apart field member (of_decide_eq_true same ▸ List.mem_cons_self)
      have none_behind : (rest.zip others).filter (fun field => field.1 = name) = [] := by
        rw [List.filter_eq_nil_iff]
        intro field member same
        exact fresh (of_decide_eq_true same ▸ (List.of_mem_zip member).1)
      refine .cons ?_ ?_
      · rw [List.zip_cons_cons, List.filter_append, List.filter_cons_of_pos (by simp), none_before, none_behind]
        rfl
      · rw [List.zip_cons_cons, ← List.singleton_append, ← List.append_assoc]
        refine ih ?_ distinct (Nat.succ.inj full)
        intro field member
        rcases List.mem_append.mp member with earlier | own
        · exact fun listed => apart field earlier (List.mem_cons_of_mem _ listed)
        · cases List.mem_singleton.mp own
          exact fresh

-- A record is written as an object with all its fields in their order.
theorem Record.written (names : List String) (values : List Json) (distinct : names.Nodup := by decide)
    (full : values.length = names.length := by rfl) : Record names (.object (names.zip values)) (values.map some) :=
  .behind (List.forall_mem_nil _) distinct full

theorem Tagged.written (names : List String) (values : List Json) {tag : Json} (distinct : "type" ∉ names) :
    Tagged (.object (("type", tag) :: names.zip values)) tag (.object (("type", tag) :: names.zip values)) := by
  have none_behind : (names.zip values).filter (fun field => field.1 = "type") = [] := by
    rw [List.filter_eq_nil_iff]
    intro field member same
    exact distinct (of_decide_eq_true same ▸ (List.of_mem_zip member).1)
  refine .object ?_
  rw [List.filter_cons_of_pos (by simp), none_behind]

theorem Fields.written {types : List String} {other : Option String} (kind : String) (names : List String)
    (values : List Json) (distinct : ("type" :: names).Nodup := by decide)
    (full : values.length = names.length := by rfl) :
    Fields types other (.object (("type", .string kind) :: names.zip values)) kind names (values.map some) := by
  obtain ⟨untyped, distinct⟩ := List.nodup_cons.mp distinct
  have apart : ∀ field ∈ [("type", Json.string kind)], field.1 ∉ names := by
    intro field member
    cases List.mem_singleton.mp member
    exact untyped
  exact ⟨_, ⟨_, .written names values untyped, .name kind⟩, .behind apart distinct full⟩

end Writing

-- The values that stand in an array or an object.
def Contains : Json → Json → Prop
  | .array items, part => part ∈ items
  | .object fields, part => ∃ name, (name, part) ∈ fields
  | _, _ => False

theorem Contains.sizeOf_lt {json part : Json} (contains : json.Contains part) : sizeOf part < sizeOf json := by
  cases json with
  | array items =>
    have smaller := List.sizeOf_lt_of_mem contains
    simp only [Json.array.sizeOf_spec]
    omega
  | object fields =>
    obtain ⟨name, member⟩ := contains
    have smaller := List.sizeOf_lt_of_mem member
    simp only [Prod.mk.sizeOf_spec] at smaller
    simp only [Json.object.sizeOf_spec]
    omega
  | _ => cases contains

theorem Record.contains {names : List String} {json part : Json} {slots : List (Option Json)}
    (record : Record names json slots) (member : some part ∈ slots) : json.Contains part := by
  cases record with
  | object each =>
    rename_i fields
    obtain ⟨name, found⟩ : ∃ name, fields.filter (fun field => field.1 = name) = [(name, part)] := by
      induction each with
      | nil => cases member
      | cons first _ ih =>
        rcases List.mem_cons.mp member with rfl | later
        · exact ⟨_, first⟩
        · exact ih later
    have listed : (name, part) ∈ fields.filter (fun field => field.1 = name) := by simp [found]
    exact ⟨name, (List.mem_filter.mp listed).1⟩
  | array short =>
    rcases List.mem_append.mp member with given | absent
    · obtain ⟨_, listed, same⟩ := List.mem_map.mp given
      cases same
      exact listed
    · cases (List.mem_replicate.mp absent).2

theorem Tagged.contains {json tag rest part : Json} (tagged : Tagged json tag rest) (contains : rest.Contains part) :
    json.Contains part := by
  cases tagged with
  | object => exact contains
  | array => exact List.mem_cons_of_mem _ contains

section Slots

-- The fields of a record, with its values read in advance. A record is refused if a required field is not there.
variable {α β : Type} {f : Json → α} {json : Json} {body : Body Json} {result : β}

theorem slots_map (same : json.body? = some body) {names : List String} {slots : List (Option Json)}
    (record : Record names json slots) : (body.map f).slots? names = some (slots.map (Option.map f)) := by
  have read := record_iff.mpr record
  rw [same, Option.bind_some] at read
  rw [Body.slots?_map, read]
  rfl

theorem slots_of_map (same : json.body? = some body) {names : List String} {found : List (Option α)}
    (read : (body.map f).slots? names = some found) :
    ∃ slots, Record names json slots ∧ slots.map (Option.map f) = found := by
  rw [Body.slots?_map, Option.map_eq_some_iff] at read
  obtain ⟨slots, given, rfl⟩ := read
  refine ⟨slots, record_iff.mp ?_, rfl⟩
  rw [same]
  exact given

theorem required {name : String} {value : α} (same : json.body? = some body)
    (read : (body.map f).slots? [name] = some [some value]) :
    ∃ part, Record [name] json [some part] ∧ f part = value := by
  obtain ⟨slots, record, shape⟩ := slots_of_map same read
  simp only [List.map_eq_cons_iff, List.map_eq_nil_iff, Option.map_eq_some_iff] at shape
  obtain ⟨_, _, rfl, ⟨part, rfl, own⟩, rfl⟩ := shape
  exact ⟨part, record, own⟩

theorem allowed {name : String} {value : Option α} (same : json.body? = some body)
    (read : (body.map f).slots? [name] = some [value]) : ∃ slot, Record [name] json [slot] ∧ slot.map f = value := by
  obtain ⟨slots, record, shape⟩ := slots_of_map same read
  simp only [List.map_eq_cons_iff, List.map_eq_nil_iff] at shape
  obtain ⟨slot, _, rfl, own, rfl⟩ := shape
  exact ⟨slot, record, own⟩

theorem required_allowed {first second : String} {value : α} {other : Option α} (same : json.body? = some body)
    (read : (body.map f).slots? [first, second] = some [some value, other]) :
    ∃ part slot, Record [first, second] json [some part, slot] ∧ f part = value ∧ slot.map f = other := by
  obtain ⟨slots, record, shape⟩ := slots_of_map same read
  simp only [List.map_eq_cons_iff, List.map_eq_nil_iff, Option.map_eq_some_iff] at shape
  obtain ⟨_, _, rfl, ⟨part, rfl, own⟩, slot, _, rfl, last, rfl⟩ := shape
  exact ⟨part, slot, record, own, last⟩

theorem allowed_required {first second : String} {value : Option α} {other : α} (same : json.body? = some body)
    (read : (body.map f).slots? [first, second] = some [value, some other]) :
    ∃ slot part, Record [first, second] json [slot, some part] ∧ slot.map f = value ∧ f part = other := by
  obtain ⟨slots, record, shape⟩ := slots_of_map same read
  simp only [List.map_eq_cons_iff, List.map_eq_nil_iff, Option.map_eq_some_iff] at shape
  obtain ⟨slot, _, rfl, own, _, _, rfl, ⟨part, rfl, last⟩, rfl⟩ := shape
  exact ⟨slot, part, record, own, last⟩

theorem required_two {first second : String} {value other : α} (same : json.body? = some body)
    (read : (body.map f).slots? [first, second] = some [some value, some other]) :
    ∃ part more, Record [first, second] json [some part, some more] ∧ f part = value ∧ f more = other := by
  obtain ⟨part, slot, record, own, rest⟩ := required_allowed same read
  obtain ⟨more, rfl, last⟩ := Option.map_eq_some_iff.mp rest
  exact ⟨part, more, record, own, last⟩

theorem required_two_allowed {first second third : String} {value other : α} {last : Option α}
    (same : json.body? = some body)
    (read : (body.map f).slots? [first, second, third] = some [some value, some other, last]) :
    ∃ part more slot, Record [first, second, third] json [some part, some more, slot] ∧
      f part = value ∧ f more = other ∧ slot.map f = last := by
  obtain ⟨slots, record, shape⟩ := slots_of_map same read
  simp only [List.map_eq_cons_iff, List.map_eq_nil_iff, Option.map_eq_some_iff] at shape
  obtain ⟨_, _, rfl, ⟨part, rfl, own⟩, _, _, rfl, ⟨more, rfl, next⟩, slot, _, rfl, closing, rfl⟩ := shape
  exact ⟨part, more, slot, record, own, next, closing⟩

theorem required_three {first second third : String} {value other last : α} (same : json.body? = some body)
    (read : (body.map f).slots? [first, second, third] = some [some value, some other, some last]) :
    ∃ part more final, Record [first, second, third] json [some part, some more, some final] ∧
      f part = value ∧ f more = other ∧ f final = last := by
  obtain ⟨part, more, slot, record, own, next, rest⟩ := required_two_allowed same read
  obtain ⟨final, rfl, closing⟩ := Option.map_eq_some_iff.mp rest
  exact ⟨part, more, final, record, own, next, closing⟩

end Slots

end Stencil.Json
