import Stencil.Options
import Stencil.Proofs.Spelling

-- How templates and options are spelled in the template format. Reading accepts exactly the spellings, and what is
-- written for a value is one of them.

namespace Stencil

open Json (Body Typed Filled Lists)

namespace Location

def Spells (json : Json) (location : Location) : Prop :=
  Json.Record ["line", "column"] json [some (Json.ofWord location.line), some (Json.ofWord location.column)]

theorem ofJson?_iff {json : Json} {location : Location} : ofJson? json = some location ↔ Spells json location := by
  constructor
  · intro read
    obtain ⟨body, same, read⟩ := Option.bind_eq_some_iff.mp read
    split at read
    · rename_i found
      simp only [Option.bind_eq_bind, Option.bind_eq_some_iff, Option.some.injEq, Json.word?_iff] at read
      obtain ⟨_, rfl, _, rfl, rfl⟩ := read
      exact Json.record_of same found
    · cases read
  · intro record
    obtain ⟨body, same, found⟩ := Json.Record.body record
    simp [ofJson?, same, found]

theorem spells_toJson (location : Location) : Spells location.toJson location :=
  .written ["line", "column"] [Json.ofWord location.line, Json.ofWord location.column]

end Location

namespace Part

-- A part as a nested value.
inductive Spells : Json → Part → Prop where
  | literal {json text} : Json.Fields types none json "string" ["value"] [some (.string text)] →
    Spells json (.literal text)
  | expression {json inner e} : Json.Fields types none json "logic" ["expr"] [some inner] →
    Expr.Spells (some inner) (.expr e) → Spells json (.expression e)

theorem ofNested?_iff {json : Json} {part : Part} : ofNested? json = some part ↔ Spells json part := by
  constructor
  · intro read
    obtain ⟨kind, rest, body, typed, same, read⟩ := (Json.typed_iff _).mp read
    dsimp only at read
    split at read
    · split at read
      · rename_i found
        simp only [Option.map_eq_some_iff, Json.string?_iff] at read
        obtain ⟨text, rfl, rfl⟩ := read
        exact .literal ⟨rest, typed, Json.record_of same found⟩
      · cases read
    · split at read
      · rename_i found
        simp only [Option.map_eq_some_iff, Expr.ofNested?_iff] at read
        obtain ⟨e, spells, rfl⟩ := read
        exact .expression ⟨rest, typed, Json.record_of same found⟩ spells
      · cases read
    · cases read
  · intro spells
    apply (Json.typed_iff _).mpr
    cases spells with
    | literal fields =>
      obtain ⟨rest, typed, record⟩ := fields
      obtain ⟨body, same, found⟩ := record.body
      exact ⟨"string", rest, body, typed, same, by simp [found, Json.string?]⟩
    | expression fields inner =>
      obtain ⟨rest, typed, record⟩ := fields
      obtain ⟨body, same, found⟩ := record.body
      exact ⟨"logic", rest, body, typed, same, by simp [found, Expr.ofNested?_iff.mpr inner]⟩

theorem ofJson?_iff {json : Json} {part : Part} : ofJson? json = some part ↔ Json.Alone Spells json part := by
  rw [Json.Alone, ← ofNested?_iff]
  apply Json.alone_iff
  intro read
  obtain ⟨_, rest, _, ⟨tag, tagged, _⟩, _⟩ := (Json.typed_iff _).mp read
  exact ⟨tag, rest, tagged⟩

theorem spells_toJson (part : Part) : Spells part.toJson part := by
  cases part with
  | literal text => exact .literal (.written "string" ["value"] [.string text])
  | expression e => exact .expression (.written "logic" ["expr"] [e.toJson]) e.spells_toJson

theorem ofNested?_toJson (part : Part) : ofNested? part.toJson = some part := ofNested?_iff.mpr part.spells_toJson

theorem ofJson?_toJson (part : Part) : ofJson? part.toJson = some part := by
  have named : part.toJson.namesType = true := by cases part <;> rfl
  rw [ofJson?, if_pos named]
  exact part.ofNested?_toJson

end Part

namespace Attr

-- The value of an attribute. A flag has none, or an empty one.
inductive Value (part : Json → Part → Prop) : Option Json → Option Part → Prop where
  | absent : Value part none none
  | null : Value part (some .null) none
  | given {json own} : part json own → Value part (some json) (some own)

def Spells (part : Json → Part → Prop) (json : Json) (attr : Attr) : Prop :=
  ∃ name value location, Json.Record ["name", "value", "location"] json [some name, value, location] ∧
    part name attr.name ∧ Value part value attr.value ∧ Filled location .zero Location.Spells attr.location

section Parts

variable {part? : Json → Option Part} {part : Json → Part → Prop}
  (agree : ∀ json own, part? json = some own ↔ part json own) (solid : part? .null = none)

include agree solid in
theorem value_iff {slot : Option Json} {value : Option Part} :
    Body.optional slot none (valueOf? part?) = some value ↔ Value part slot value := by
  constructor
  · intro read
    cases slot with
    | none =>
      cases read
      exact .absent
    | some json =>
      change valueOf? part? json = some value at read
      unfold valueOf? at read
      split at read
      · cases read
        exact .null
      · obtain ⟨own, inner, rfl⟩ := Option.map_eq_some_iff.mp read
        exact .given ((agree json own).mp inner)
  · intro spelled
    cases spelled with
    | absent => rfl
    | null => rfl
    | @given json own inner =>
      have read := (agree json own).mpr inner
      cases json with
      | null =>
        rw [solid] at read
        cases read
      | _ => exact Option.map_eq_some_iff.mpr ⟨own, read, rfl⟩

include agree solid in
theorem ofParts?_iff {json : Json} {attr : Attr} : ofParts? part? json = some attr ↔ Spells part json attr := by
  have place {slot : Option Json} {location : Location} :
      Body.optional slot .zero Location.ofJson? = some location ↔ Filled slot .zero Location.Spells location := by
    simp only [Body.optional_eq_some, Location.ofJson?_iff]
  constructor
  · intro read
    obtain ⟨body, same, read⟩ := Option.bind_eq_some_iff.mp read
    split at read
    · rename_i name value location found
      simp only [Option.bind_eq_bind, Option.bind_eq_some_iff, Option.some.injEq, agree, value_iff agree solid,
        place] at read
      obtain ⟨_, named, _, valued, _, placed, rfl⟩ := read
      exact ⟨name, value, location, Json.record_of same found, named, valued, placed⟩
    · cases read
  · rintro ⟨name, value, location, record, named, valued, placed⟩
    obtain ⟨body, same, found⟩ := record.body
    simp [ofParts?, same, found, (agree _ _).mpr named, (value_iff agree solid).mpr valued, place.mpr placed]

end Parts

theorem ofJson?_iff {json : Json} {attr : Attr} :
    ofJson? json = some attr ↔ Spells (Json.Alone Part.Spells) json attr :=
  ofParts?_iff (fun _ _ => Part.ofJson?_iff) rfl

theorem ofNested?_iff {json : Json} {attr : Attr} : ofNested? json = some attr ↔ Spells Part.Spells json attr :=
  ofParts?_iff (fun _ _ => Part.ofNested?_iff) rfl

theorem spells_toJson {part : Json → Part → Prop} (written : ∀ own : Part, part own.toJson own) (attr : Attr) :
    Spells part attr.toJson attr := by
  obtain ⟨name, value, location⟩ := attr
  refine ⟨name.toJson, _, _, .written ["name", "value", "location"] [_, _, _], written name, ?_,
    location.spells_toJson⟩
  cases value with
  | none => exact .null
  | some own => exact .given (written own)

theorem ofJson?_toJson (attr : Attr) : ofJson? attr.toJson = some attr :=
  ofJson?_iff.mpr (attr.spells_toJson fun part => Part.ofJson?_iff.mp part.ofJson?_toJson)

theorem ofNested?_toJson (attr : Attr) : ofNested? attr.toJson = some attr :=
  ofNested?_iff.mpr (attr.spells_toJson Part.spells_toJson)

end Attr

namespace Node

-- What a value in the place of a node, or of the children of one, stands for.
inductive Meaning where
  | node (node : Node)
  | nodes (nodes : List Node)

def Fields (json : Json) (kind : String) (names : List String) (slots : List (Option Json)) : Prop :=
  Json.Fields types none json kind names slots

-- A node without children, up to its identity and its location.
inductive Content (json id : Json) (location : Option Json) : Leaf → Prop where
  | text {text} : Fields json "text" ["id", "text", "location"]
    [some id, some (.string text), location] → Content json id location (.text text)
  | comment {text} : Fields json "comment" ["id", "value", "location"]
    [some id, some (.string text), location] → Content json id location (.comment text)
  | string {text} : Fields json "string" ["id", "value", "location"]
    [some id, some (.string text), location] → Content json id location (.string text)
  | slot {inner e} : Fields json "logic" ["id", "expr", "location"]
    [some id, some inner, location] → Expr.Spells (some inner) (.expr e) →
    Content json id location (.slot e)
  | block {inner e} : Fields json "logic-node" ["id", "expr", "location"]
    [some id, some inner, location] → Expr.Spells (some inner) (.expr e) →
    Content json id location (.block e)
  | script {list text attrs body} : Fields json "script" ["id", "attrs", "body", "location"]
    [some id, list, text, location] → Filled list [] (Lists (Attr.Spells Part.Spells)) attrs →
    Filled text "" (fun json text => json = .string text) body → Content json id location (.script attrs body)

-- A node as a nested value.
inductive Spells : Option Json → Meaning → Prop where
  | tag {json list single below place identity header children location} :
    Fields json "tag" ["id", "name", "attrs", "isSingle", "children", "location"]
      [some (Json.ofWord identity), some (.string (Tag.name header)), list, single, below, place] →
    Filled list [] (Lists (Attr.Spells Part.Spells)) header.attrs →
    Filled single false (fun json value => json = .bool value) header.selfClosing →
    Spells below (.nodes children) → Filled place .zero Location.Spells location →
    Spells (some json) (.node (.tag identity header children location))
  | leaf {json place identity content location} : Content json (Json.ofWord identity) place content →
    Filled place .zero Location.Spells location → Spells (some json) (.node (.leaf identity content location))
  | absentNodes : Spells none (.nodes [])
  | noNodes : Spells (some (.array [])) (.nodes [])
  | moreNodes {item rest node nodes} : Spells (some item) (.node node) → Spells (some (.array rest)) (.nodes nodes) →
    Spells (some (.array (item :: rest))) (.nodes (node :: nodes))

def Meaning.IsRead (slot : Option Json) : Meaning → Prop
  | .node one => (slot.bind fun json => (reading json).node) = some one
  | .nodes several => Body.optional (slot.map reading) [] Reading.nodes = some several

section Reading

theorem readings_eq (items : List Json) : readings items = items.map reading := by
  induction items with
  | nil => rfl
  | cons item rest ih => rw [readings, ih, List.map_cons]

theorem fieldReadings_eq (fields : List (String × Json)) :
    fieldReadings fields = fields.map fun field => (field.1, reading field.2) := by
  induction fields with
  | nil => rfl
  | cons field rest ih => rw [fieldReadings, ih, List.map_cons]

@[simp] theorem json_reading (json : Json) : (reading json).json = json := by
  cases json <;> rfl

theorem string_reading {json : Json} {text : String} : (reading json).string? = some text ↔ json = .string text := by
  rw [Reading.string?, json_reading, Json.string?_iff]

theorem node_reading (json : Json) :
    (reading json).node = json.body?.bind fun body => ofBody? (body.map reading) := by
  cases json with
  | object fields =>
    show ofBody? (.named (fieldReadings fields)) = _
    rw [fieldReadings_eq]
    rfl
  | array items =>
    show ofBody? (.listed (readings items)) = _
    rw [readings_eq]
    rfl
  | _ => rfl

theorem nodes_reading (items : List Json) : (reading (.array items)).nodes = (items.map reading).mapM Reading.node := by
  rw [← readings_eq]
  rfl

theorem node_tagged (json : Json) : (reading json).node =
    json.body?.bind fun body => (body.tagged? (Json.nestedType? types none)).bind fun found =>
      ofSlots? found.1 (found.2.map reading) := by
  have tagged (body : Body Json) : ofBody? (body.map reading) =
      (body.tagged? (Json.nestedType? types none)).bind fun found => ofSlots? found.1 (found.2.map reading) := by
    simp only [ofBody?, Body.tagged?_map, json_reading]
    cases body.tagged? (Json.nestedType? types none) <;> rfl
  rw [node_reading]
  simp only [tagged]

theorem node_eq_some {json : Json} {node : Node} : (reading json).node = some node ↔
    ∃ kind rest body, Typed types none json kind rest ∧ rest.body? = some body ∧
      ofSlots? kind (body.map reading) = some node := by
  rw [node_tagged]
  exact Json.typed_iff _

theorem node_of_fields {json : Json} {kind : String} {names : List String} {slots : List (Option Json)}
    (fields : Fields json kind names slots) : ∃ body : Body Reading,
      body.slots? names = some (slots.map (Option.map reading)) ∧ (reading json).node = ofSlots? kind body := by
  obtain ⟨rest, typed, record⟩ := fields
  obtain ⟨body, same, _⟩ := record.body
  refine ⟨body.map reading, Json.slots_map same record, ?_⟩
  rw [node_tagged]
  exact Json.typed_eq _ typed same

theorem location?_iff {slot : Option Json} {location : Location} :
    location? (slot.map reading) = some location ↔ Filled slot .zero Location.Spells location := by
  simp only [location?, Body.optional_map, json_reading, Body.optional_eq_some, Location.ofJson?_iff]

theorem attrs?_iff {slot : Option Json} {attrs : List Attr} :
    attrs? (slot.map reading) = some attrs ↔ Filled slot [] (Lists (Attr.Spells Part.Spells)) attrs := by
  simp only [attrs?, Body.optional_map, json_reading, Option.bind_eq_bind, Body.optional_eq_some,
    Json.lists_iff fun _ _ => Attr.ofNested?_iff]

theorem leaf?_iff {id : Json} {slot : Option Json} {content : Leaf} {node : Node} :
    leaf? (reading id) (slot.map reading) content = some node ↔
      ∃ identity, id = Json.ofWord identity ∧ ∃ location, Filled slot .zero Location.Spells location ∧
        .leaf identity content location = node := by
  simp only [leaf?, json_reading, Option.bind_eq_bind, Option.bind_eq_some_iff, Option.some.injEq, Json.word?_iff,
    location?_iff]

theorem single?_iff {slot : Option Json} {value : Bool} :
    (Body.optional (slot.map reading) false fun r => r.json.bool?) = some value ↔
      Filled slot false (fun json value => json = .bool value) value := by
  simp only [Body.optional_map, json_reading, Body.optional_eq_some, Json.bool?_iff]

theorem body?_iff {slot : Option Json} {text : String} :
    Body.optional (slot.map reading) "" Reading.string? = some text ↔
      Filled slot "" (fun json text => json = .string text) text := by
  simp only [Body.optional_map, Body.optional_eq_some, string_reading]

end Reading

theorem Content.isRead {json id : Json} {place : Option Json} {content : Leaf}
    (spelled : Content json id place content) :
    (reading json).node = leaf? (reading id) (place.map reading) content := by
  have string (text : String) : (reading (.string text)).string? = some text := string_reading.mpr rfl
  cases spelled with
  | text fields =>
    obtain ⟨body, slots, read⟩ := node_of_fields fields
    simp [read, ofSlots?, slots, string]
  | comment fields =>
    obtain ⟨body, slots, read⟩ := node_of_fields fields
    simp [read, ofSlots?, slots, string]
  | string fields =>
    obtain ⟨body, slots, read⟩ := node_of_fields fields
    simp [read, ofSlots?, slots, string]
  | slot fields inner =>
    obtain ⟨body, slots, read⟩ := node_of_fields fields
    simp [read, ofSlots?, slots, Expr.ofNested?_iff.mpr inner]
  | block fields inner =>
    obtain ⟨body, slots, read⟩ := node_of_fields fields
    simp [read, ofSlots?, slots, Expr.ofNested?_iff.mpr inner]
  | script fields attrs text =>
    obtain ⟨body, slots, read⟩ := node_of_fields fields
    simp [read, ofSlots?, slots, attrs?_iff.mpr attrs, body?_iff.mpr text]

-- What the rules say is read.
theorem Spells.isRead {slot : Option Json} {meaning : Meaning} (spells : Spells slot meaning) :
    meaning.IsRead slot := by
  induction spells with
  | tag fields attrs single _ placed children =>
    obtain ⟨body, slots, read⟩ := node_of_fields fields
    change Body.optional _ [] Reading.nodes = _ at children
    show (reading _).node = _
    simp [read, ofSlots?, slots, string_reading.mpr, attrs?_iff.mpr attrs, single?_iff.mpr single, children,
      location?_iff.mpr placed]
  | leaf content placed =>
    show (reading _).node = _
    rw [content.isRead, leaf?_iff]
    exact ⟨_, rfl, _, placed, rfl⟩
  | absentNodes => rfl
  | noNodes => rfl
  | @moreNodes item others node nodes _ _ first rest =>
    have own : (reading item).node = some node := first
    have tail : (reading (.array others)).nodes = some nodes := rest
    show (reading _).nodes = _
    rw [nodes_reading] at tail ⊢
    rw [List.map_cons, List.mapM_cons, own, tail]
    rfl

theorem spells_absent {meaning : Meaning} (read : meaning.IsRead none) : Spells none meaning := by
  cases meaning with
  | node node => cases read
  | nodes nodes =>
    cases read
    exact .absentNodes

theorem spells_nodes {items : List Json} {nodes : List Node}
    (below : ∀ item ∈ items, ∀ node, (reading item).node = some node → Spells (some item) (.node node))
    (read : (reading (.array items)).nodes = some nodes) : Spells (some (.array items)) (.nodes nodes) := by
  rw [nodes_reading] at read
  induction items generalizing nodes with
  | nil =>
    cases read
    exact .noNodes
  | cons item rest ih =>
    simp only [List.map_cons, List.mapM_cons, Option.bind_eq_bind, Option.bind_eq_some_iff, Option.pure_def,
      Option.some.injEq] at read
    obtain ⟨node, first, others, more, rfl⟩ := read
    obtain ⟨here, there⟩ := List.forall_mem_cons.mp below
    exact .moreNodes (here node first) (ih there more)

section Leaf

variable {json rest : Json} {body : Body Json} {kind field : String} {node : Node} {id value : Reading}
  {place : Option Reading}

theorem spells_leaf {id : Json} {place : Option Json} {content : Leaf} (spelled : Content json id place content)
    (read : leaf? (reading id) (place.map reading) content = some node) : Spells (some json) (.node node) := by
  obtain ⟨identity, rfl, location, placed, rfl⟩ := leaf?_iff.mp read
  exact .leaf spelled placed

-- Three kinds of leaves hold a text, and two an expression.
theorem spells_text {make : String → Leaf} (typed : Typed types none json kind rest) (same : rest.body? = some body)
    (rule : ∀ {id place text}, Fields json kind ["id", field, "location"] [some id, some (.string text), place] →
      Content json id place (make text))
    (found : (body.map reading).slots? ["id", field, "location"] = some [some id, some value, place])
    (read : (value.string?.bind fun text => leaf? id place (make text)) = some node) :
    Spells (some json) (.node node) := by
  obtain ⟨id, inner, place, record, rfl, rfl, rfl⟩ := Json.required_two_allowed same found
  simp only [Option.bind_eq_some_iff, string_reading] at read
  obtain ⟨text, rfl, read⟩ := read
  exact spells_leaf (rule ⟨rest, typed, record⟩) read

theorem spells_logic {make : Expr → Leaf} (typed : Typed types none json kind rest) (same : rest.body? = some body)
    (rule : ∀ {id place inner e}, Fields json kind ["id", field, "location"] [some id, some inner, place] →
      Expr.Spells (some inner) (.expr e) → Content json id place (make e))
    (found : (body.map reading).slots? ["id", field, "location"] = some [some id, some value, place])
    (read : ((Expr.ofNested? value.json).bind fun e => leaf? id place (make e)) = some node) :
    Spells (some json) (.node node) := by
  obtain ⟨id, inner, place, record, rfl, rfl, rfl⟩ := Json.required_two_allowed same found
  simp only [Option.bind_eq_some_iff, json_reading, Expr.ofNested?_iff] at read
  obtain ⟨e, spelled, read⟩ := read
  exact spells_leaf (rule ⟨rest, typed, record⟩ spelled) read

end Leaf

theorem spells_node {json : Json} {node : Node} (below : ∀ part, json.Contains part → ∀ nodes,
    (reading part).nodes = some nodes → Spells (some part) (.nodes nodes)) (read : (reading json).node = some node) :
    Spells (some json) (.node node) := by
  obtain ⟨kind, rest, body, typed, same, read⟩ := node_eq_some.mp read
  -- One case for each type in the order of the types, and one for all others.
  unfold ofSlots? at read
  split at read
  · split at read
    · rename_i found
      obtain ⟨slots, record, shape⟩ := Json.slots_of_map same found
      simp only [List.map_eq_cons_iff, List.map_eq_nil_iff, Option.map_eq_some_iff] at shape
      obtain ⟨_, _, rfl, ⟨id, rfl, rfl⟩, _, _, rfl, ⟨name, rfl, rfl⟩, attrs, _, rfl, rfl, single, _, rfl, rfl,
        slot, _, rfl, rfl, place, _, rfl, rfl, rfl⟩ := shape
      simp only [Option.bind_eq_bind, Option.bind_eq_some_iff, Option.some.injEq, json_reading, string_reading,
        Json.word?_iff, attrs?_iff, single?_iff, location?_iff] at read
      obtain ⟨_, rfl, _, listed, _, closing, _, rfl, children, inner, location, placed, rfl⟩ := read
      refine .tag ⟨rest, typed, record⟩ listed closing ?_ placed
      cases slot with
      | none => exact spells_absent inner
      | some list =>
        obtain ⟨_, tagged, _⟩ := typed
        exact below list (tagged.contains (record.contains (by simp))) children inner
    · cases read
  · split at read
    · rename_i found
      exact spells_text typed same .text found read
    · cases read
  · split at read
    · rename_i found
      exact spells_text typed same .comment found read
    · cases read
  · split at read
    · rename_i found
      exact spells_text typed same .string found read
    · cases read
  · split at read
    · rename_i found
      exact spells_logic typed same .slot found read
    · cases read
  · split at read
    · rename_i found
      exact spells_logic typed same .block found read
    · cases read
  · split at read
    · rename_i found
      obtain ⟨slots, record, shape⟩ := Json.slots_of_map same found
      simp only [List.map_eq_cons_iff, List.map_eq_nil_iff, Option.map_eq_some_iff] at shape
      obtain ⟨_, _, rfl, ⟨id, rfl, rfl⟩, attrs, _, rfl, rfl, text, _, rfl, rfl, place, _, rfl, rfl, rfl⟩ := shape
      simp only [Option.bind_eq_bind, Option.bind_eq_some_iff, attrs?_iff, body?_iff] at read
      obtain ⟨_, listed, _, own, read⟩ := read
      exact spells_leaf (.script ⟨rest, typed, record⟩ listed own) read
    · cases read
  · cases read

theorem spells_of_isRead (json : Json) (meaning : Meaning) (read : meaning.IsRead (some json)) :
    Spells (some json) meaning := by
  have below (part : Json) (contains : json.Contains part) (meaning : Meaning) (read : meaning.IsRead (some part)) :
      Spells (some part) meaning := by
    have smaller := contains.sizeOf_lt
    exact spells_of_isRead part meaning read
  cases meaning with
  | node node => exact spells_node (fun part contains nodes => below part contains (.nodes nodes)) read
  | nodes nodes =>
    cases json with
    | array items => exact spells_nodes (fun item member node => below item member (.node node)) read
    | _ => cases read
termination_by sizeOf json

-- A node that stands by itself.
def Stands (json : Json) (node : Node) : Prop := Json.Alone (fun json node => Spells (some json) (.node node)) json node

theorem ofJson?_iff {json : Json} {node : Node} : ofJson? json = some node ↔ Stands json node := by
  have nested : (reading json).node = some node ↔ Spells (some json) (.node node) :=
    ⟨spells_of_isRead json (.node node), Spells.isRead⟩
  rw [Stands, Json.Alone, ← nested]
  apply Json.alone_iff
  intro read
  obtain ⟨_, rest, _, ⟨tag, tagged, _⟩, _⟩ := node_eq_some.mp read
  exact ⟨tag, rest, tagged⟩

theorem attrs_toJson (attrs : List Attr) :
    Lists (Attr.Spells Part.Spells) (.array (attrs.map Attr.toJson)) attrs := by
  refine ⟨_, rfl, ?_⟩
  rw [List.forall₂_map_left_iff, List.forall₂_same]
  intro attr _
  exact attr.spells_toJson Part.spells_toJson

theorem content_toJson (identity : UInt32) (location : Location) (content : Leaf) :
    Content (leafToJson identity location content) (Json.ofWord identity) (some location.toJson) content := by
  cases content with
  | text text => exact .text (.written "text" ["id", "text", "location"] [_, .string text, _])
  | comment text => exact .comment (.written "comment" ["id", "value", "location"] [_, .string text, _])
  | string text => exact .string (.written "string" ["id", "value", "location"] [_, .string text, _])
  | slot e => exact .slot (.written "logic" ["id", "expr", "location"] [_, e.toJson, _]) e.spells_toJson
  | block e => exact .block (.written "logic-node" ["id", "expr", "location"] [_, e.toJson, _]) e.spells_toJson
  | script attrs body =>
    exact .script (.written "script" ["id", "attrs", "body", "location"]
      [_, .array (attrs.map Attr.toJson), .string body, _]) (attrs_toJson attrs) rfl

-- A node is written as one of its spellings.
mutual

theorem spells_toJson : (node : Node) → Spells (some node.toJson) (.node node)
  | .tag identity header children location =>
    .tag (.written "tag" ["id", "name", "attrs", "isSingle", "children", "location"]
      [Json.ofWord identity, .string header.name, .array (header.attrs.map Attr.toJson), .bool header.selfClosing,
        .array (toJsons children), location.toJson])
      (attrs_toJson header.attrs) rfl (spells_toJsons children) location.spells_toJson
  | .leaf identity content location => .leaf (content_toJson identity location content) location.spells_toJson

theorem spells_toJsons : (nodes : List Node) → Spells (some (.array (toJsons nodes))) (.nodes nodes)
  | [] => .noNodes
  | node :: rest => .moreNodes (spells_toJson node) (spells_toJsons rest)

end

theorem ofJson?_toJson (node : Node) : ofJson? node.toJson = some node := by
  have named : node.toJson.namesType = true := by
    cases node with
    | tag identity header children location => rfl
    | leaf identity content location => cases content <;> rfl
  rw [ofJson?, if_pos named]
  exact node.spells_toJson.isRead

end Node

namespace Template

def Spells (json : Json) (template : Template) : Prop :=
  ∃ list, Json.Record ["nodes"] json [list] ∧ Filled list [] (Lists Node.Stands) template.nodes

theorem ofJson?_iff {json : Json} {template : Template} : ofJson? json = some template ↔ Spells json template := by
  have nodes {list : Option Json} {nodes : List Node} :
      Body.optional list [] Node.listOfJson? = some nodes ↔ Filled list [] (Lists Node.Stands) nodes := by
    simp only [Body.optional_eq_some, Node.listOfJson?, Option.bind_eq_bind,
      Json.lists_iff fun _ _ => Node.ofJson?_iff]
  constructor
  · intro read
    obtain ⟨body, same, read⟩ := Option.bind_eq_some_iff.mp read
    split at read
    · rename_i list found
      simp only [Option.map_eq_some_iff, nodes] at read
      obtain ⟨_, listed, rfl⟩ := read
      exact ⟨list, Json.record_of same found, listed⟩
    · cases read
  · rintro ⟨list, record, listed⟩
    obtain ⟨body, same, found⟩ := record.body
    simp [ofJson?, same, found, nodes.mpr listed]

theorem ofJson?_toJson (template : Template) : ofJson? template.toJson = some template := by
  have each (nodes : List Node) : (Node.toJsons nodes).mapM Node.ofJson? = some nodes := by
    induction nodes with
    | nil => rfl
    | cons node rest ih =>
      rw [Node.toJsons, List.mapM_cons, node.ofJson?_toJson, ih]
      rfl
  apply ofJson?_iff.mpr
  refine ⟨_, .written ["nodes"] [.array (Node.toJsons template.nodes)], ?_⟩
  exact (Json.lists_iff fun _ _ => Node.ofJson?_iff).mp (each template.nodes)

end Template

namespace Options

def Spells (json : Json) (options : Options) : Prop :=
  ∃ path tags scope extension,
    Json.Record ["filePath", "singleTags", "registryScope", "componentExtension"] json [path, tags, scope, extension] ∧
    Filled path "" (fun json text => json = .string text) options.filePath ∧
    Filled tags ["input"] (Lists fun json text => json = .string text) options.singleTags ∧
    Filled scope .process (fun json scope => json = .string (RegistryScope.name scope) ∨
      json = .object [(RegistryScope.name scope, .null)]) options.registryScope ∧
    Filled extension ".php" (fun json text => json = .string text) options.componentExtension

theorem scope_iff {name : String} {scope : RegistryScope} :
    RegistryScope.ofName? name = some scope ↔ name = scope.name := by
  constructor
  · intro found
    unfold RegistryScope.ofName? at found
    split at found
    · cases found
      assumption
    · split at found
      · cases found
        assumption
      · cases found
  · rintro rfl
    cases scope <;> rfl

theorem ofJson?_iff {json : Json} {options : Options} : ofJson? json = some options ↔ Spells json options := by
  have chooses {slot : Json} {scope : RegistryScope} : slot.choice?.bind RegistryScope.ofName? = some scope ↔
      slot = .string scope.name ∨ slot = .object [(scope.name, .null)] := by
    simp only [Option.bind_eq_some_iff, scope_iff, Json.choice?_iff, exists_eq_right]
  constructor
  · intro read
    obtain ⟨body, same, read⟩ := Option.bind_eq_some_iff.mp read
    split at read
    · rename_i path tags scope extension found
      simp only [Option.bind_eq_bind, Option.bind_eq_some_iff, Option.some.injEq, Body.optional_eq_some,
        Json.string?_iff, chooses, Json.lists_iff fun _ _ => Json.string?_iff] at read
      obtain ⟨_, located, _, listed, _, chosen, _, extended, rfl⟩ := read
      exact ⟨path, tags, scope, extension, Json.record_of same found, located, listed, chosen, extended⟩
    · cases read
  · rintro ⟨path, tags, scope, extension, record, located, listed, chosen, extended⟩
    obtain ⟨body, same, found⟩ := record.body
    simp only [ofJson?, same, found, Option.bind_eq_bind, Option.bind_some, Option.bind_eq_some_iff,
      Option.some.injEq, Body.optional_eq_some, Json.string?_iff, chooses, Json.lists_iff fun _ _ => Json.string?_iff]
    exact ⟨_, located, _, listed, _, chosen, _, extended, rfl⟩

theorem spells_toJson (options : Options) : Spells options.toJson options := by
  refine ⟨_, _, _, _, .written ["filePath", "singleTags", "registryScope", "componentExtension"] [_, _, _, _], rfl,
    ⟨_, rfl, ?_⟩, .inl rfl, rfl⟩
  rw [List.forall₂_map_left_iff, List.forall₂_same]
  intro _ _
  rfl

end Options

-- Reading and writing agree on a format. Reading accepts the spellings, each with its one meaning; what is written is
-- read back; and what has been read, written and read again is the same.
structure Json.Agrees {α : Type} (read? : Json → Option α) (write : α → Json) (spells : Json → α → Prop) : Prop where
  reads : ∀ json value, read? json = some value ↔ spells json value
  returns : ∀ value, read? (write value) = some value
  settles : ∀ json, ((read? json).bind fun value => read? (write value)) = read? json

theorem Json.Agrees.of_returns {α : Type} {read? : Json → Option α} {write : α → Json} {spells : Json → α → Prop}
    (reads : ∀ json value, read? json = some value ↔ spells json value)
    (returns : ∀ value, read? (write value) = some value) : Agrees read? write spells := by
  refine ⟨reads, returns, ?_⟩
  intro json
  simp only [returns, Option.bind_fun_some]

theorem Template.format_agrees :
    Json.Agrees Template.ofJson? Template.toJson Template.Spells ∧
    Json.Agrees Node.ofJson? Node.toJson Node.Stands ∧
    Json.Agrees Attr.ofJson? Attr.toJson (Attr.Spells (Json.Alone Part.Spells)) ∧
    Json.Agrees Attr.ofNested? Attr.toJson (Attr.Spells Part.Spells) ∧
    Json.Agrees Part.ofJson? Part.toJson (Json.Alone Part.Spells) ∧
    Json.Agrees Part.ofNested? Part.toJson Part.Spells ∧
    Json.Agrees Expr.ofJson? Expr.toJson (Json.Alone fun json e => Expr.Spells (some json) (.expr e)) ∧
    Json.Agrees Expr.ofNested? Expr.toJson (fun json e => Expr.Spells (some json) (.expr e)) ∧
    Json.Agrees Options.ofJson? Options.toJson Options.Spells := by
  refine ⟨?_, ?_, ?_, ?_, ?_, ?_, ?_, ?_, ?_⟩
  · exact .of_returns (fun _ _ => Template.ofJson?_iff) Template.ofJson?_toJson
  · exact .of_returns (fun _ _ => Node.ofJson?_iff) Node.ofJson?_toJson
  · exact .of_returns (fun _ _ => Attr.ofJson?_iff) Attr.ofJson?_toJson
  · exact .of_returns (fun _ _ => Attr.ofNested?_iff) Attr.ofNested?_toJson
  · exact .of_returns (fun _ _ => Part.ofJson?_iff) Part.ofJson?_toJson
  · exact .of_returns (fun _ _ => Part.ofNested?_iff) Part.ofNested?_toJson
  · exact .of_returns (fun _ _ => Expr.ofJson?_iff) Expr.ofJson?_toJson
  · exact .of_returns (fun _ _ => Expr.ofNested?_iff) Expr.ofNested?_toJson
  · exact .of_returns (fun _ _ => Options.ofJson?_iff) fun options => Options.ofJson?_iff.mpr options.spells_toJson

-- A closed range under its other name, with a start of another type and an end whose fields are listed.
example : (Expr.ofJson? (.object [("type", .string "range"), ("kind", .string "close"),
      ("start", .object [("type", .string "lambda"), ("body", .null)]),
      ("end", .array [.number (.integer 0), .string "n"])])).map Expr.toJson =
    some (.object [("type", .string "range"), ("kind", .string "closed"),
      ("start", .object [("type", .string "unsupported")]),
      ("end", .object [("type", .string "var"), ("name", .string "n"), ("keys", .array [])])]) := rfl

end Stencil
