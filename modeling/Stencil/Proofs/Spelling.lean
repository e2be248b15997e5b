import Stencil.Expr.Format
import Stencil.Proofs.Records

-- How expressions are spelled in the template format. A value spells an expression, an entry, or a list of either, by the
-- rules below; reading follows the rules, and writing chooses one spelling for each expression.

namespace Stencil

open Json (Body Typed Choice)

theorem BinaryOp.ofName?_iff {name : String} {op : BinaryOp} : ofName? name = some op ↔ name = op.name := by
  constructor
  · intro found
    have same := List.find?_some found
    exact (of_decide_eq_true same).symm
  · rintro rfl
    exact ofName?_name op

theorem UnaryOp.ofName?_iff {name : String} {op : UnaryOp} : ofName? name = some op ↔ name = op.name := by
  constructor
  · intro found
    have same := List.find?_some found
    exact (of_decide_eq_true same).symm
  · rintro rfl
    exact ofName?_name op

-- A closed range has two names.
def RangeKind.spellings : RangeKind → List String
  | .halfOpen => ["open"]
  | .closed => ["closed", "close"]

theorem RangeKind.ofName?_iff {name : String} {kind : RangeKind} :
    ofName? name = some kind ↔ name ∈ kind.spellings := by
  constructor
  · intro found
    unfold ofName? at found
    split at found
    · rename_i same
      cases found
      simp [spellings, same]
    · split at found
      · rename_i same
        cases found
        simpa [spellings] using same
      · cases found
  · intro listed
    cases kind with
    | halfOpen =>
      cases List.mem_singleton.mp listed
      rfl
    | closed =>
      rcases List.mem_cons.mp listed with rfl | listed
      · rfl
      · cases List.mem_singleton.mp listed
        rfl

namespace Expr

-- What a value in the place of an expression, or of a part of one, stands for.
inductive Meaning where
  | expr (expr : Expr)
  | entry (entry : Entry)
  | exprs (exprs : List Expr)
  | entries (entries : List Entry)

-- The fields of an expression of some type.
def Fields (json : Json) (kind : String) (names : List String) (slots : List (Option Json)) : Prop :=
  Json.Fields types (some unsupportedType) json kind names slots

inductive Spells : Option Json → Meaning → Prop where
  | var {json name slot keys} : Fields json "var" ["name", "keys"] [some (.string name), slot] →
    Spells slot (.exprs keys) → Spells (some json) (.expr (.var name keys))
  | const {json text} : Fields json "const" ["value"] [some (.string text)] → Spells (some json) (.expr (.const text))
  | str {json text} : Fields json "str" ["value"] [some (.string text)] → Spells (some json) (.expr (.str text))
  | num {json value} : Fields json "num" ["value"] [some (.number value)] → Spells (some json) (.expr (.num value))
  | binary {json choice first second op left right} :
    Fields json "binary" ["op", "left", "right"] [some choice, some first, some second] →
    Choice choice (BinaryOp.name op) → Spells (some first) (.expr left) → Spells (some second) (.expr right) →
    Spells (some json) (.expr (.binary op left right))
  | unary {json choice inner op value} : Fields json "unary" ["op", "value"] [some choice, some inner] →
    Choice choice (UnaryOp.name op) → Spells (some inner) (.expr value) → Spells (some json) (.expr (.unary op value))
  | isset {json inner value} : Fields json "isset" ["value"] [some inner] → Spells (some inner) (.expr value) →
    Spells (some json) (.expr (.isset value))
  | ternary {json first second third condition consequent alternate} :
    Fields json "ternary" ["condition", "consequent", "alternate"] [some first, some second, some third] →
    Spells (some first) (.expr condition) → Spells (some second) (.expr consequent) →
    Spells (some third) (.expr alternate) → Spells (some json) (.expr (.ternary condition consequent alternate))
  | concat {json list values} : Fields json "concat" ["values"] [some list] → Spells (some list) (.exprs values) →
    Spells (some json) (.expr (.concat values))
  | array {json slot entries} : Fields json "array" ["values"] [slot] → Spells slot (.entries entries) →
    Spells (some json) (.expr (.array entries))
  | range {json choice first second name kind start stop} :
    Fields json "range" ["kind", "start", "end"] [some choice, some first, some second] → Choice choice name →
    name ∈ RangeKind.spellings kind → Spells (some first) (.expr start) → Spells (some second) (.expr stop) →
    Spells (some json) (.expr (.range kind start stop))
  | call {json first slot callee args} : Fields json "func" ["callee", "args"] [some first, slot] →
    Spells (some first) (.expr callee) → Spells slot (.exprs args) → Spells (some json) (.expr (.call callee args))
  -- An expression of another type, whatever its fields are. As a list it has none.
  | unsupported {json kind rest} : Typed types (some unsupportedType) json kind rest → kind ∉ types →
    (∀ item more, rest ≠ .array (item :: more)) → Spells (some json) (.expr .unsupported)
  | plain {json slot inner value} : Json.Record ["key", "value"] json [slot, some inner] →
    slot = none ∨ slot = some .null →
    Spells (some inner) (.expr value) → Spells (some json) (.entry (.plain value))
  | keyed {json first second key value} : Json.Record ["key", "value"] json [some first, some second] →
    Spells (some first) (.expr key) → Spells (some second) (.expr value) →
    Spells (some json) (.entry (.keyed key value))
  | absentExprs : Spells none (.exprs [])
  | noExprs : Spells (some (.array [])) (.exprs [])
  | moreExprs {item rest value values} : Spells (some item) (.expr value) →
    Spells (some (.array rest)) (.exprs values) → Spells (some (.array (item :: rest))) (.exprs (value :: values))
  | absentEntries : Spells none (.entries [])
  | noEntries : Spells (some (.array [])) (.entries [])
  | moreEntries {item rest entry entries} : Spells (some item) (.entry entry) →
    Spells (some (.array rest)) (.entries entries) → Spells (some (.array (item :: rest))) (.entries (entry :: entries))

-- The value of a field is read as this. A list that is not there is empty.
def Meaning.IsRead (slot : Option Json) : Meaning → Prop
  | .expr e => (slot.bind fun json => (reading json).expr) = some e
  | .entry one => (slot.bind fun json => (reading json).entry) = some one
  | .exprs values => Body.optional (slot.map reading) [] Reading.exprs = some values
  | .entries values => Body.optional (slot.map reading) [] Reading.entries = some values

section Reading

theorem readings_eq (items : List Json) : readings items = items.map reading := by
  induction items with
  | nil => rfl
  | cons item rest ih => rw [readings, ih, List.map_cons]

theorem fieldReadings_eq (fields : List (String × Json)) :
    fieldReadings fields = fields.map fun field => (field.1, reading field.2) := by
  induction fields with
  | nil => rfl
  | cons field rest ih => rw [fieldReadings, ih, List.map_cons]

@[simp] theorem json_reading (json : Json) : (reading json).json = json := by
  cases json <;> rfl

theorem string_reading {json : Json} {text : String} : (reading json).string? = some text ↔ json = .string text := by
  rw [Reading.string?, json_reading, Json.string?_iff]

theorem expr_reading (json : Json) :
    (reading json).expr = json.body?.bind fun body => ofBody? (body.map reading) := by
  cases json with
  | object fields =>
    show ofBody? (.named (fieldReadings fields)) = _
    rw [fieldReadings_eq]
    rfl
  | array items =>
    show ofBody? (.listed (readings items)) = _
    rw [readings_eq]
    rfl
  | _ => rfl

theorem entry_reading (json : Json) :
    (reading json).entry = json.body?.bind fun body => entryOfBody? (body.map reading) := by
  cases json with
  | object fields =>
    show entryOfBody? (.named (fieldReadings fields)) = _
    rw [fieldReadings_eq]
    rfl
  | array items =>
    show entryOfBody? (.listed (readings items)) = _
    rw [readings_eq]
    rfl
  | _ => rfl

theorem exprs_reading (items : List Json) : (reading (.array items)).exprs = (items.map reading).mapM Reading.expr := by
  rw [← readings_eq]
  rfl

theorem entries_reading (items : List Json) :
    (reading (.array items)).entries = (items.map reading).mapM Reading.entry := by
  rw [← readings_eq]
  rfl

-- An expression is read from a tagged record of its type.
theorem expr_tagged (json : Json) : (reading json).expr =
    json.body?.bind fun body => (body.tagged? (Json.nestedType? types unsupportedType)).bind fun found =>
      ofSlots? found.1 (found.2.map reading) := by
  have tagged (body : Body Json) : ofBody? (body.map reading) =
      (body.tagged? (Json.nestedType? types unsupportedType)).bind fun found =>
        ofSlots? found.1 (found.2.map reading) := by
    simp only [ofBody?, Body.tagged?_map, json_reading]
    cases body.tagged? (Json.nestedType? types unsupportedType) <;> rfl
  rw [expr_reading]
  simp only [tagged]

theorem expr_eq_some {json : Json} {e : Expr} : (reading json).expr = some e ↔
    ∃ kind rest body, Typed types (some unsupportedType) json kind rest ∧ rest.body? = some body ∧
      ofSlots? kind (body.map reading) = some e := by
  rw [expr_tagged]
  exact Json.typed_iff _

theorem expr_of_fields {json : Json} {kind : String} {names : List String} {slots : List (Option Json)}
    (fields : Fields json kind names slots) : ∃ body : Body Reading,
      body.slots? names = some (slots.map (Option.map reading)) ∧ (reading json).expr = ofSlots? kind body := by
  obtain ⟨rest, typed, record⟩ := fields
  obtain ⟨body, same, _⟩ := record.body
  refine ⟨body.map reading, Json.slots_map same record, ?_⟩
  rw [expr_tagged]
  exact Json.typed_eq _ typed same

theorem entry_of_record {json : Json} {slots : List (Option Json)} (record : Json.Record ["key", "value"] json slots) :
    ∃ body : Body Reading, body.slots? ["key", "value"] = some (slots.map (Option.map reading)) ∧
      (reading json).entry = entryOfBody? body := by
  obtain ⟨body, same, _⟩ := record.body
  refine ⟨body.map reading, Json.slots_map same record, ?_⟩
  rw [entry_reading, same]
  rfl

theorem ofSlots?_unknown {kind : String} (unknown : kind ∉ types) (body : Body Reading) :
    ofSlots? kind body = match body with
      | .named _ => some .unsupported
      | .listed items => if items.isEmpty then some .unsupported else none := by
  unfold ofSlots?
  split
  all_goals first
    | exact absurd (by decide) unknown
    | rfl

end Reading

namespace Meaning

variable {json : Json} {slot : Option Json}

theorem isRead_expr {e : Expr} : (Meaning.expr e).IsRead (some json) ↔ (reading json).expr = some e := Iff.rfl

theorem isRead_entry {entry : Entry} : (Meaning.entry entry).IsRead (some json) ↔ (reading json).entry = some entry :=
  Iff.rfl

theorem isRead_slot {values : List Expr} :
    (Meaning.exprs values).IsRead slot ↔ Body.optional (slot.map reading) [] Reading.exprs = some values := Iff.rfl

theorem isRead_exprs {values : List Expr} :
    (Meaning.exprs values).IsRead (some json) ↔ (reading json).exprs = some values := Iff.rfl

theorem isRead_entries {entries : List Entry} :
    (Meaning.entries entries).IsRead slot ↔ Body.optional (slot.map reading) [] Reading.entries = some entries :=
  Iff.rfl

end Meaning

-- What the rules say is read.
theorem Spells.isRead {slot : Option Json} {meaning : Meaning} (spells : Spells slot meaning) :
    meaning.IsRead slot := by
  induction spells with
  | var fields _ keys =>
    obtain ⟨body, slots, read⟩ := expr_of_fields fields
    rw [Meaning.isRead_expr, read]
    simp [ofSlots?, slots, Reading.string?, Json.string?, Meaning.isRead_slot.mp keys]
  | const fields =>
    obtain ⟨body, slots, read⟩ := expr_of_fields fields
    rw [Meaning.isRead_expr, read]
    simp [ofSlots?, slots, Reading.string?, Json.string?]
  | str fields =>
    obtain ⟨body, slots, read⟩ := expr_of_fields fields
    rw [Meaning.isRead_expr, read]
    simp [ofSlots?, slots, Reading.string?, Json.string?]
  | num fields =>
    obtain ⟨body, slots, read⟩ := expr_of_fields fields
    rw [Meaning.isRead_expr, read]
    simp [ofSlots?, slots, Json.number?]
  | binary fields choice _ _ left right =>
    obtain ⟨body, slots, read⟩ := expr_of_fields fields
    rw [Meaning.isRead_expr, read]
    rw [Meaning.isRead_expr] at left right
    simp [ofSlots?, slots, Json.nestedChoice?_iff.mpr choice, BinaryOp.ofName?_name, left, right]
  | unary fields choice _ value =>
    obtain ⟨body, slots, read⟩ := expr_of_fields fields
    rw [Meaning.isRead_expr, read]
    rw [Meaning.isRead_expr] at value
    simp [ofSlots?, slots, Json.nestedChoice?_iff.mpr choice, UnaryOp.ofName?_name, value]
  | isset fields _ value =>
    obtain ⟨body, slots, read⟩ := expr_of_fields fields
    rw [Meaning.isRead_expr, read]
    rw [Meaning.isRead_expr] at value
    simp [ofSlots?, slots, value]
  | ternary fields _ _ _ condition consequent alternate =>
    obtain ⟨body, slots, read⟩ := expr_of_fields fields
    rw [Meaning.isRead_expr, read]
    rw [Meaning.isRead_expr] at condition consequent alternate
    simp [ofSlots?, slots, condition, consequent, alternate]
  | concat fields _ values =>
    obtain ⟨body, slots, read⟩ := expr_of_fields fields
    rw [Meaning.isRead_expr, read]
    simp [ofSlots?, slots, Meaning.isRead_exprs.mp values]
  | array fields _ entries =>
    obtain ⟨body, slots, read⟩ := expr_of_fields fields
    rw [Meaning.isRead_expr, read]
    simp [ofSlots?, slots, Meaning.isRead_entries.mp entries]
  | range fields choice spelled _ _ start stop =>
    obtain ⟨body, slots, read⟩ := expr_of_fields fields
    rw [Meaning.isRead_expr, read]
    rw [Meaning.isRead_expr] at start stop
    simp [ofSlots?, slots, Json.nestedChoice?_iff.mpr choice, RangeKind.ofName?_iff.mpr spelled, start, stop]
  | call fields _ _ callee args =>
    obtain ⟨body, slots, read⟩ := expr_of_fields fields
    rw [Meaning.isRead_expr, read]
    simp [ofSlots?, slots, Meaning.isRead_expr.mp callee, Meaning.isRead_slot.mp args]
  | @unsupported json kind rest typed unknown short =>
    have read (body : Body Json) (same : rest.body? = some body) : (reading json).expr = some .unsupported := by
      refine expr_eq_some.mpr ⟨kind, rest, body, typed, same, ?_⟩
      rw [ofSlots?_unknown unknown]
      cases body with
      | named fields => rfl
      | listed items =>
        cases items with
        | nil => rfl
        | cons item more =>
          cases rest with
          | array items =>
            cases same
            exact absurd rfl (short item more)
          | _ => cases same
    obtain ⟨_, tagged, _⟩ := typed
    cases tagged with
    | object found => exact read _ rfl
    | array => exact read _ rfl
  | plain record absent _ value =>
    obtain ⟨body, slots, read⟩ := entry_of_record record
    rw [Meaning.isRead_entry, read]
    rw [Meaning.isRead_expr] at value
    rcases absent with rfl | rfl
    · simp [entryOfBody?, slots, value]
    · simp [entryOfBody?, slots, value]
  | @keyed _ first _ _ _ record _ _ key value =>
    obtain ⟨body, slots, read⟩ := entry_of_record record
    rw [Meaning.isRead_entry, read]
    rw [Meaning.isRead_expr] at key value
    cases first with
    | null => cases key
    | _ => simp [entryOfBody?, slots, key, value]
  | absentExprs => rfl
  | noExprs => rfl
  | moreExprs _ _ first rest =>
    rw [Meaning.isRead_exprs, exprs_reading] at rest ⊢
    rw [List.map_cons, List.mapM_cons, Meaning.isRead_expr.mp first, rest]
    rfl
  | absentEntries => rfl
  | noEntries => rfl
  | @moreEntries _ others _ entries _ _ first rest =>
    have tail : (reading (.array others)).entries = some entries := rest
    show (reading _).entries = _
    rw [entries_reading] at tail ⊢
    rw [List.map_cons, List.mapM_cons, Meaning.isRead_entry.mp first, tail]
    rfl

theorem spells_absent {meaning : Meaning} (read : meaning.IsRead none) : Spells none meaning := by
  cases meaning with
  | expr e => cases read
  | entry entry => cases read
  | exprs values =>
    cases read
    exact .absentExprs
  | entries entries =>
    cases read
    exact .absentEntries

section Complete

variable {json : Json}

theorem spells_exprs {items : List Json} {values : List Expr}
    (below : ∀ item ∈ items, ∀ e, (reading item).expr = some e → Spells (some item) (.expr e))
    (read : (reading (.array items)).exprs = some values) : Spells (some (.array items)) (.exprs values) := by
  rw [exprs_reading] at read
  induction items generalizing values with
  | nil =>
    cases read
    exact .noExprs
  | cons item rest ih =>
    simp only [List.map_cons, List.mapM_cons, Option.bind_eq_bind, Option.bind_eq_some_iff, Option.pure_def,
      Option.some.injEq] at read
    obtain ⟨value, first, others, more, rfl⟩ := read
    obtain ⟨here, there⟩ := List.forall_mem_cons.mp below
    exact .moreExprs (here value first) (ih there more)

theorem spells_entries {items : List Json} {entries : List Entry}
    (below : ∀ item ∈ items, ∀ entry, (reading item).entry = some entry → Spells (some item) (.entry entry))
    (read : (reading (.array items)).entries = some entries) : Spells (some (.array items)) (.entries entries) := by
  rw [entries_reading] at read
  induction items generalizing entries with
  | nil =>
    cases read
    exact .noEntries
  | cons item rest ih =>
    simp only [List.map_cons, List.mapM_cons, Option.bind_eq_bind, Option.bind_eq_some_iff, Option.pure_def,
      Option.some.injEq] at read
    obtain ⟨entry, first, others, more, rfl⟩ := read
    obtain ⟨here, there⟩ := List.forall_mem_cons.mp below
    exact .moreEntries (here entry first) (ih there more)

theorem spells_entry {entry : Entry} (below : ∀ part, json.Contains part →
    ∀ e, (reading part).expr = some e → Spells (some part) (.expr e)) (read : (reading json).entry = some entry) :
    Spells (some json) (.entry entry) := by
  rw [entry_reading, Option.bind_eq_some_iff] at read
  obtain ⟨body, same, read⟩ := read
  unfold entryOfBody? at read
  split at read
  · rename_i found
    obtain ⟨slot, inner, record, rfl, rfl⟩ := Json.allowed_required same found
    simp only [Option.bind_eq_bind, Option.bind_eq_some_iff] at read
    obtain ⟨value, valued, read⟩ := read
    have spelled := below inner (record.contains (by simp)) value valued
    cases slot with
    | none =>
      cases read
      exact .plain record (.inl rfl) spelled
    | some first =>
      simp only [Option.map_some, json_reading] at read
      split at read
      · cases read
        exact .plain record (.inr rfl) spelled
      · obtain ⟨key, keyed, rfl⟩ := Option.map_eq_some_iff.mp read
        exact .keyed record (below first (record.contains (by simp)) key keyed) spelled
  · cases read

theorem spells_expr {e : Expr} (below : ∀ part, json.Contains part → ∀ meaning : Meaning, meaning.IsRead (some part) →
    Spells (some part) meaning) (read : (reading json).expr = some e) : Spells (some json) (.expr e) := by
  obtain ⟨kind, rest, body, typed, same, read⟩ := expr_eq_some.mp read
  -- The rules apply to the fields of the record.
  have inside {names : List String} {slots : List (Option Json)} (record : Json.Record names rest slots)
      (slot : Option Json) (member : slot ∈ slots) (meaning : Meaning) (read : meaning.IsRead slot) :
      Spells slot meaning := by
    obtain ⟨tag, tagged, _⟩ := typed
    cases slot with
    | none => exact spells_absent read
    | some part => exact below part (tagged.contains (record.contains member)) meaning read
  -- One case for each type in the order of the types, and one for all others.
  unfold ofSlots? at read
  split at read
  · split at read
    · rename_i found
      obtain ⟨named, slot, record, rfl, rfl⟩ := Json.required_allowed same found
      simp only [Option.bind_eq_bind, Option.bind_eq_some_iff, Option.some.injEq, string_reading] at read
      obtain ⟨name, rfl, keys, listed, rfl⟩ := read
      exact .var ⟨rest, typed, record⟩ (inside record slot (by simp) _ listed)
    · cases read
  · split at read
    · rename_i found
      obtain ⟨inner, record, rfl⟩ := Json.required same found
      simp only [Option.map_eq_some_iff, string_reading] at read
      obtain ⟨text, rfl, rfl⟩ := read
      exact .const ⟨rest, typed, record⟩
    · cases read
  · split at read
    · rename_i found
      obtain ⟨inner, record, rfl⟩ := Json.required same found
      simp only [Option.map_eq_some_iff, string_reading] at read
      obtain ⟨text, rfl, rfl⟩ := read
      exact .str ⟨rest, typed, record⟩
    · cases read
  · split at read
    · rename_i found
      obtain ⟨inner, record, rfl⟩ := Json.required same found
      simp only [Option.map_eq_some_iff, json_reading, Json.number?_iff] at read
      obtain ⟨value, rfl, rfl⟩ := read
      exact .num ⟨rest, typed, record⟩
    · cases read
  · split at read
    · rename_i found
      obtain ⟨choice, first, second, record, rfl, rfl, rfl⟩ := Json.required_three same found
      simp only [Option.bind_eq_bind, Option.bind_eq_some_iff, Option.some.injEq, json_reading, BinaryOp.ofName?_iff,
        Json.nestedChoice?_iff] at read
      obtain ⟨op, ⟨_, chosen, rfl⟩, left, here, right, there, rfl⟩ := read
      exact .binary ⟨rest, typed, record⟩ chosen (inside record first (by simp) _ here)
        (inside record second (by simp) _ there)
    · cases read
  · split at read
    · rename_i found
      obtain ⟨choice, inner, record, rfl, rfl⟩ := Json.required_two same found
      simp only [Option.bind_eq_bind, Option.bind_eq_some_iff, Option.some.injEq, json_reading, UnaryOp.ofName?_iff,
        Json.nestedChoice?_iff] at read
      obtain ⟨op, ⟨_, chosen, rfl⟩, value, here, rfl⟩ := read
      exact .unary ⟨rest, typed, record⟩ chosen (inside record inner (by simp) _ here)
    · cases read
  · split at read
    · rename_i found
      obtain ⟨inner, record, rfl⟩ := Json.required same found
      obtain ⟨value, here, rfl⟩ := Option.map_eq_some_iff.mp read
      exact .isset ⟨rest, typed, record⟩ (inside record inner (by simp) _ here)
    · cases read
  · split at read
    · rename_i found
      obtain ⟨first, second, third, record, rfl, rfl, rfl⟩ := Json.required_three same found
      simp only [Option.bind_eq_bind, Option.bind_eq_some_iff, Option.some.injEq] at read
      obtain ⟨condition, here, consequent, there, alternate, last, rfl⟩ := read
      exact .ternary ⟨rest, typed, record⟩ (inside record first (by simp) _ here)
        (inside record second (by simp) _ there) (inside record third (by simp) _ last)
    · cases read
  · split at read
    · rename_i found
      obtain ⟨list, record, rfl⟩ := Json.required same found
      obtain ⟨values, listed, rfl⟩ := Option.map_eq_some_iff.mp read
      exact .concat ⟨rest, typed, record⟩ (inside record list (by simp) (.exprs values) listed)
    · cases read
  · split at read
    · rename_i found
      obtain ⟨slot, record, rfl⟩ := Json.allowed same found
      obtain ⟨entries, listed, rfl⟩ := Option.map_eq_some_iff.mp read
      exact .array ⟨rest, typed, record⟩ (inside record slot (by simp) (.entries entries) listed)
    · cases read
  · split at read
    · rename_i found
      obtain ⟨choice, first, second, record, rfl, rfl, rfl⟩ := Json.required_three same found
      simp only [Option.bind_eq_bind, Option.bind_eq_some_iff, Option.some.injEq, json_reading, RangeKind.ofName?_iff,
        Json.nestedChoice?_iff] at read
      obtain ⟨kind, ⟨name, chosen, spelled⟩, start, here, stop, there, rfl⟩ := read
      exact .range ⟨rest, typed, record⟩ chosen spelled (inside record first (by simp) _ here)
        (inside record second (by simp) _ there)
    · cases read
  · split at read
    · rename_i found
      obtain ⟨first, slot, record, rfl, rfl⟩ := Json.required_allowed same found
      simp only [Option.bind_eq_bind, Option.bind_eq_some_iff, Option.some.injEq] at read
      obtain ⟨callee, here, args, listed, rfl⟩ := read
      exact .call ⟨rest, typed, record⟩ (inside record first (by simp) _ here)
        (inside record slot (by simp) (.exprs args) listed)
    · cases read
  · have unknown : kind ∉ types := by simp_all [types]
    cases body with
    | named fields =>
      cases read
      refine .unsupported typed unknown ?_
      rintro item more rfl
      cases same
    | listed items =>
      cases items with
      | nil =>
        cases read
        refine .unsupported typed unknown ?_
        rintro item more rfl
        cases same
      | cons item more => cases read

theorem spells_of_isRead (json : Json) (meaning : Meaning) (read : meaning.IsRead (some json)) :
    Spells (some json) meaning := by
  have below (part : Json) (contains : json.Contains part) (meaning : Meaning) (read : meaning.IsRead (some part)) :
      Spells (some part) meaning := by
    have smaller := contains.sizeOf_lt
    exact spells_of_isRead part meaning read
  cases meaning with
  | expr e => exact spells_expr below read
  | entry entry => exact spells_entry (fun part contains e => below part contains (.expr e)) read
  | exprs values =>
    cases json with
    | array items => exact spells_exprs (fun item member e => below item member (.expr e)) read
    | _ => cases read
  | entries entries =>
    cases json with
    | array items => exact spells_entries (fun item member entry => below item member (.entry entry)) read
    | _ => cases read
termination_by sizeOf json

end Complete

theorem ofNested?_iff {json : Json} {e : Expr} : ofNested? json = some e ↔ Spells (some json) (.expr e) :=
  ⟨spells_of_isRead json (.expr e), Spells.isRead⟩

theorem ofJson?_iff {json : Json} {e : Expr} :
    ofJson? json = some e ↔ Json.Alone (fun json e => Spells (some json) (.expr e)) json e := by
  rw [Json.Alone, ← ofNested?_iff]
  apply Json.alone_iff
  intro read
  obtain ⟨_, rest, _, ⟨tag, tagged, _⟩, _⟩ := expr_eq_some.mp read
  exact ⟨tag, rest, tagged⟩

-- An expression is written as one of its spellings.
mutual

theorem spells_toJson : (e : Expr) → Spells (some e.toJson) (.expr e)
  | .var name keys =>
    .var (.written "var" ["name", "keys"] [.string name, .array (toJsons keys)]) (spells_toJsons keys)
  | .const text => .const (.written "const" ["value"] [.string text])
  | .str text => .str (.written "str" ["value"] [.string text])
  | .num value => .num (.written "num" ["value"] [.number value])
  | .binary op left right =>
    .binary (.written "binary" ["op", "left", "right"] [.string op.name, toJson left, toJson right])
      (.name op.name) (spells_toJson left) (spells_toJson right)
  | .unary op value =>
    .unary (.written "unary" ["op", "value"] [.string op.name, toJson value]) (.name op.name)
      (spells_toJson value)
  | .isset value => .isset (.written "isset" ["value"] [toJson value]) (spells_toJson value)
  | .ternary condition consequent alternate =>
    .ternary (.written "ternary" ["condition", "consequent", "alternate"]
      [toJson condition, toJson consequent, toJson alternate])
      (spells_toJson condition) (spells_toJson consequent) (spells_toJson alternate)
  | .concat values =>
    .concat (.written "concat" ["values"] [.array (toJsons values)]) (spells_toJsons values)
  | .array entries =>
    .array (.written "array" ["values"] [.array (entriesToJson entries)]) (spells_entriesToJson entries)
  | .range kind start stop =>
    .range (.written "range" ["kind", "start", "end"] [.string kind.name, toJson start, toJson stop])
      (.name kind.name) (by cases kind <;> decide) (spells_toJson start) (spells_toJson stop)
  | .call callee args =>
    .call (.written "func" ["callee", "args"] [toJson callee, .array (toJsons args)])
      (spells_toJson callee) (spells_toJsons args)
  | .unsupported => .unsupported ⟨_, .written [] [] List.not_mem_nil, .name unsupportedType⟩ (by decide) nofun

theorem spells_toJsons : (values : List Expr) → Spells (some (.array (toJsons values))) (.exprs values)
  | [] => .noExprs
  | value :: rest => .moreExprs (spells_toJson value) (spells_toJsons rest)

theorem spells_entryToJson : (entry : Entry) → Spells (some (entryToJson entry)) (.entry entry)
  | .plain value =>
    .plain (.written ["key", "value"] [.null, toJson value]) (.inr rfl) (spells_toJson value)
  | .keyed key value =>
    .keyed (.written ["key", "value"] [toJson key, toJson value]) (spells_toJson key)
      (spells_toJson value)

theorem spells_entriesToJson :
    (entries : List Entry) → Spells (some (.array (entriesToJson entries))) (.entries entries)
  | [] => .noEntries
  | entry :: rest => .moreEntries (spells_entryToJson entry) (spells_entriesToJson rest)

end

theorem ofNested?_toJson (e : Expr) : ofNested? e.toJson = some e := ofNested?_iff.mpr (spells_toJson e)

theorem ofJson?_toJson (e : Expr) : ofJson? e.toJson = some e := by
  have named : e.toJson.namesType = true := by cases e <;> rfl
  rw [ofJson?, if_pos named]
  exact ofNested?_toJson e

end Expr

end Stencil
