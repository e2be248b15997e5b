import Stencil.Compile

-- Templates without positions. A sketch is a tree of the document without the places where its nodes are
-- kept; an outline is a template whose includes are resolved, with the nodes of each included file still
-- together under its path. To put these nodes where the file stands is to inline it.

namespace Stencil

theorem entry_of_lookup {α β : Type} [BEq α] [LawfulBEq α] {entries : List (α × β)} {key : α} {value : β}
    (found : entries.lookup key = some value) : (key, value) ∈ entries := by
  obtain ⟨front, back, split, _⟩ := List.lookup_eq_some_iff.mp found
  simp [split]

-- A node and what lies below it, wherever they are kept.
inductive Sketch where
  | node (item : Item) (children : List Sketch)

-- A template with its includes resolved.
inductive Outline where
  | node (item : Item) (children : List Outline)
  | file (path : Path) (nodes : List Outline)

namespace Tree

mutual

def sketch : Tree → Sketch
  | .node _ item children => .node item (sketches children)

def sketches : List Tree → List Sketch
  | [] => []
  | tree :: rest => sketch tree :: sketches rest

end

end Tree

namespace Node

mutual

def largest (shift : Nat) (known : Nat) : Node → Nat
  | .tag identity _ children _ => largestOf shift (max known (shifted shift identity)) children
  | .leaf identity _ _ => max known (shifted shift identity)

def largestOf (shift : Nat) (known : Nat) : List Node → Nat
  | [] => known
  | first :: rest => largestOf shift (largest shift known first) rest

end

end Node

namespace Node

mutual

def Only (allowed : Tag → Prop) : Node → Prop
  | .tag _ own children _ => allowed own ∧ AllOnly allowed children
  | .leaf _ _ _ => True

def AllOnly (allowed : Tag → Prop) : List Node → Prop
  | [] => True
  | first :: rest => Only allowed first ∧ AllOnly allowed rest

end

mutual

theorem only_of_all {allowed : Tag → Prop} (all : ∀ own, allowed own) : ∀ node : Node, node.Only allowed
  | .tag _ own children _ => ⟨all own, allOnly_of_all all children⟩
  | .leaf _ _ _ => trivial

theorem allOnly_of_all {allowed : Tag → Prop} (all : ∀ own, allowed own) : ∀ nodes : List Node, AllOnly allowed nodes
  | [] => trivial
  | first :: rest => ⟨only_of_all all first, allOnly_of_all all rest⟩

end

end Node

namespace Sketch

mutual

def Only (allowed : Tag → Prop) : Sketch → Prop
  | .node ⟨_, .tag tag, _⟩ children => allowed tag ∧ AllOnly allowed children
  | .node ⟨_, .leaf _, _⟩ _ => True

def AllOnly (allowed : Tag → Prop) : List Sketch → Prop
  | [] => True
  | first :: rest => Only allowed first ∧ AllOnly allowed rest

end

theorem AllOnly.append {allowed : Tag → Prop} {front back : List Sketch} (first : AllOnly allowed front)
    (second : AllOnly allowed back) : AllOnly allowed (front ++ back) := by
  induction front with
  | nil => exact second
  | cons sketch rest ih => exact ⟨first.1, ih first.2⟩

mutual

def ofNode (shift : Nat) : Node → Sketch
  | .tag identity tag children location => .node ⟨shifted shift identity, .tag tag, location⟩ (ofNodes shift children)
  | .leaf identity leaf location => .node ⟨shifted shift identity, .leaf leaf, location⟩ []

def ofNodes (shift : Nat) : List Node → List Sketch
  | [] => []
  | first :: rest => ofNode shift first :: ofNodes shift rest

end

theorem isEmpty_ofNodes (shift : Nat) (nodes : List Node) : (ofNodes shift nodes).isEmpty = nodes.isEmpty := by
  cases nodes <;> rfl

mutual

theorem only_ofNode {allowed : Tag → Prop} (shift : Nat) : ∀ {node : Node}, node.Only allowed →
    (ofNode shift node).Only allowed
  | .tag _ _ _ _, only => ⟨only.1, allOnly_ofNodes shift only.2⟩
  | .leaf _ _ _, _ => trivial

theorem allOnly_ofNodes {allowed : Tag → Prop} (shift : Nat) : ∀ {nodes : List Node}, Node.AllOnly allowed nodes →
    AllOnly allowed (ofNodes shift nodes)
  | [], _ => trivial
  | _ :: _, only => ⟨only_ofNode shift only.1, allOnly_ofNodes shift only.2⟩

end

mutual

-- The node of a template that looks like this.
def plain : Sketch → Node
  | .node ⟨identity, .tag tag, location⟩ children => .tag (UInt32.ofNat identity) tag (plains children) location
  | .node ⟨identity, .leaf leaf, location⟩ _ => .leaf (UInt32.ofNat identity) leaf location

def plains : List Sketch → List Node
  | [] => []
  | first :: rest => plain first :: plains rest

end

mutual

-- What a node leaves in the fragment of the tag around it: the applied form of control flow, with what its children
-- leave there, and that of an attribute. Control flow in its applied form only passes on what its children leave.
def copy : Sketch → List Sketch
  | .node ⟨identity, .tag tag, location⟩ children =>
    match TagKind.ofName? tag.name with
    | some (.control _ .content) =>
      [.node ⟨identity, .tag { tag with name := TagKind.appliedName tag.name }, location⟩ (copies children)]
    | some (.control _ .applied) => copies children
    | some (.attr .content) => [.node ⟨identity, .tag { tag with name := TagKind.appliedName tag.name }, location⟩ []]
    | _ => []
  | .node ⟨_, .leaf _, _⟩ _ => []

def copies : List Sketch → List Sketch
  | [] => []
  | first :: rest => copy first ++ copies rest

end

end Sketch

namespace Outline

mutual

def ofNode (shift : Nat) : Node → Outline
  | .tag identity tag children location => .node ⟨shifted shift identity, .tag tag, location⟩ (ofNodes shift children)
  | .leaf identity leaf location => .node ⟨shifted shift identity, .leaf leaf, location⟩ []

def ofNodes (shift : Nat) : List Node → List Outline
  | [] => []
  | first :: rest => ofNode shift first :: ofNodes shift rest

end

mutual

-- The nodes with those of each file in the place of the file.
def flat : Outline → List Sketch
  | .node item children => [.node item (flatten children)]
  | .file _ nodes => flatten nodes

def flatten : List Outline → List Sketch
  | [] => []
  | first :: rest => flat first ++ flatten rest

end

mutual

theorem flat_ofNode (shift : Nat) : ∀ node : Node, flat (ofNode shift node) = [Sketch.ofNode shift node]
  | .tag _ _ children _ => by simp [ofNode, flat, Sketch.ofNode, flatten_ofNodes shift children]
  | .leaf _ _ _ => rfl

theorem flatten_ofNodes (shift : Nat) : ∀ nodes : List Node, flatten (ofNodes shift nodes) = Sketch.ofNodes shift nodes
  | [] => rfl
  | first :: rest => by
    simp [ofNodes, flatten, Sketch.ofNodes, flat_ofNode shift first, flatten_ofNodes shift rest]

end

end Outline

theorem TagKind.ofName?_own {name : String} {kind : TagKind} (found : ofName? name = some kind) :
    kind ≠ .component ∧ kind ≠ .literal := by
  unfold ofName? at found
  split at found <;> cases found <;> exact ⟨nofun, nofun⟩

-- A tag is taken for what its name says, and for a component or a literal tag if the name says nothing.
theorem TagKind.ofName?_of_classify {isComponent : String → Bool} {name : String} {kind : TagKind}
    (classified : classify isComponent name = kind) :
    ofName? name = some kind ∨ ofName? name = none ∧ (kind = .component ∨ kind = .literal) := by
  rw [classify] at classified
  split at classified
  · rename_i found
    exact .inl (classified ▸ found)
  · rename_i unknown
    split at classified
    · exact .inr ⟨unknown, .inl classified.symm⟩
    · exact .inr ⟨unknown, .inr classified.symm⟩

theorem TagKind.isReserved_of_classify {isComponent : String → Bool} {name : String} {kind : TagKind}
    (classified : classify isComponent name = kind) (other : kind = .template ∨ kind = .component ∨ kind = .literal) :
    isReserved name = false := by
  rcases ofName?_of_classify classified with known | ⟨unknown, _⟩
  · rw [isReserved, known]
    rcases other with rfl | rfl | rfl <;> rfl
  · rw [isReserved, unknown]

theorem TagKind.ofName?_applied_control {name : String} {kind : Control}
    (found : ofName? name = some (.control kind .content)) :
    ofName? (appliedName name) = some (.control kind .applied) := by
  unfold ofName? at found
  split at found <;> cases found <;> decide

theorem TagKind.ofName?_applied_attr {name : String} (found : ofName? name = some (.attr .content)) :
    ofName? (appliedName name) = some (.attr .applied) := by
  unfold ofName? at found
  split at found <;> cases found <;> decide

-- Whether the walk goes on to the children of a tag. It leaves those of self-closing tags aside, unless the tag has
-- a meaning of its own.
def Tag.isEntered (tag : Tag) : Bool :=
  match TagKind.ofName? tag.name with
  | some (.control _ _) => true
  | some .template => true
  | some _ => false
  | none => !tag.selfClosing

def Tag.isApplied (tag : Tag) : Bool :=
  match TagKind.ofName? tag.name with
  | some (.attr .applied) => true
  | some (.control _ .applied) => true
  | _ => false

-- The files around a node: the one it stands in, and those that include this one, innermost first.
structure Stack where
  file : Path
  including : List Path

namespace Stack

def push (stack : Stack) (path : Path) : Stack := ⟨path, stack.file :: stack.including⟩

-- The file that an include leads to, if it has a fixed path and is not yet being compiled.
def target? (stack : Stack) (tag : Tag) : Option Path := do
  let source ← (← Attr.param? tag.attrs "from").fixed?
  let path := Walk.includePath stack.file source
  if path ∈ stack.file :: stack.including then none else some path

-- Why an include that stays unresolved is refused.
def refusal (stack : Stack) (fault : Path → Fault) (tag : Tag) : Cause :=
  match Attr.param? tag.attrs "from" with
  | none => .missingAttribute tag.name "from"
  | some part => match part.fixed? with
    | none => .dynamicInclude
    | some source =>
      let path := Walk.includePath stack.file source
      if path ∈ stack.file :: stack.including then .includeCycle path.text else .includeFailed path.text (fault path)

end Stack

namespace Outline

-- Resolves the includes of shifted nodes, given the largest identity taken so far, and tells the largest identity
-- taken afterwards.
abbrev Expander := Stack → (shift known : Nat) → List Node → List Outline × Nat

def nextShift (known : Nat) : Nat := min (known + 1) identityLimit

mutual

-- Resolves the includes that the walk comes to, in the order in which it comes to them. An include that leads
-- nowhere stays.
def expand (reach : Path → Option (Template × Expander)) (stack : Stack) (shift known : Nat) : Node → Outline × Nat
  | .leaf identity leaf location => (.node ⟨shifted shift identity, .leaf leaf, location⟩ [], known)
  | .tag identity tag children location =>
    if TagKind.ofName? tag.name = some .including then
      match (stack.target? tag).bind fun path => (reach path).map fun found => (path, found) with
      | some (path, template, expander) =>
        let found := expander (stack.push path) (nextShift known)
          (Node.largestOf (nextShift known) known template.nodes) template.nodes
        (.file path found.1, found.2)
      | none => (.node ⟨shifted shift identity, .tag tag, location⟩ (ofNodes shift children), known)
    else if tag.isEntered then
      let below := expandAll reach stack shift known children
      (.node ⟨shifted shift identity, .tag tag, location⟩ below.1, below.2)
    else (.node ⟨shifted shift identity, .tag tag, location⟩ (ofNodes shift children), known)

def expandAll (reach : Path → Option (Template × Expander)) (stack : Stack) (shift known : Nat) :
    List Node → List Outline × Nat
  | [] => ([], known)
  | first :: rest =>
    let head := expand reach stack shift known first
    let tail := expandAll reach stack shift head.2 rest
    (head.1 :: tail.1, tail.2)

end

-- A tag that is no include stays, and so do its children if nothing is included below it.
theorem expand_tag {reach : Path → Option (Template × Expander)} {stack : Stack} {shift known : Nat} {identity : UInt32}
    {own : Tag} {children : List Node} {location : Location}
    (direct : TagKind.ofName? own.name ≠ some .including)
    (below : own.isEntered = true → expandAll reach stack shift known children = (ofNodes shift children, known)) :
    expand reach stack shift known (.tag identity own children location) =
      (ofNode shift (.tag identity own children location), known) := by
  rw [expand, if_neg direct, ofNode]
  split
  · rw [below ‹_›]
  · rfl

-- What an expander makes of allowed nodes has no other tags.
def Keeps (allowed : Tag → Prop) (expander : Expander) : Prop :=
  ∀ (stack : Stack) (shift known : Nat) (nodes : List Node), Node.AllOnly allowed nodes →
    Sketch.AllOnly allowed (flatten (expander stack shift known nodes).1)

mutual

theorem only_expand {allowed : Tag → Prop} {reach : Path → Option (Template × Expander)}
    (keeps : ∀ path template expander, reach path = some (template, expander) →
      Node.AllOnly allowed template.nodes ∧ Keeps allowed expander) (stack : Stack) (shift known : Nat) :
    ∀ (node : Node), node.Only allowed → Sketch.AllOnly allowed (flat (expand reach stack shift known node).1)
  | .leaf _ _ _, _ => ⟨trivial, trivial⟩
  | .tag identity tag children location, only => by
    have unresolved : Sketch.AllOnly allowed
        (flat (.node ⟨shifted shift identity, .tag tag, location⟩ (ofNodes shift children))) := by
      rw [flat, flatten_ofNodes]
      exact ⟨⟨only.1, Sketch.allOnly_ofNodes shift only.2⟩, trivial⟩
    unfold expand
    split
    · split
      · rename_i path template expander found
        obtain ⟨_, _, mapped⟩ := Option.bind_eq_some_iff.mp found
        obtain ⟨_, reached, same⟩ := Option.map_eq_some_iff.mp mapped
        cases same
        obtain ⟨nodes, kept⟩ := keeps path template expander reached
        exact kept _ _ _ _ nodes
      · exact unresolved
    · split
      · exact ⟨⟨only.1, only_expandAll keeps stack shift known children only.2⟩, trivial⟩
      · exact unresolved

theorem only_expandAll {allowed : Tag → Prop} {reach : Path → Option (Template × Expander)}
    (keeps : ∀ path template expander, reach path = some (template, expander) →
      Node.AllOnly allowed template.nodes ∧ Keeps allowed expander) (stack : Stack) (shift known : Nat) :
    ∀ (nodes : List Node), Node.AllOnly allowed nodes →
      Sketch.AllOnly allowed (flatten (expandAll reach stack shift known nodes).1)
  | [], _ => trivial
  | first :: rest, only =>
    (only_expand keeps stack shift known first only.1).append (only_expandAll keeps stack shift _ rest only.2)

end

-- Resolves includes with the templates that can still be included.
def expander : (left : Nat) → List (Path × Template) → Expander
  | 0, _ => expandAll fun _ => none
  | left + 1, templates => expandAll fun path =>
      (templates.lookup path).map fun template =>
        (template, expander left (templates.filter fun entry => entry.1 ≠ path))

theorem keeps_expander {allowed : Tag → Prop} : ∀ (left : Nat) {templates : List (Path × Template)},
    (∀ entry ∈ templates, Node.AllOnly allowed entry.2.nodes) → Keeps allowed (expander left templates)
  | 0, _, _ => only_expandAll (fun _ _ _ reached => nomatch reached)
  | left + 1, templates, only => by
    refine only_expandAll fun path template found reached => ?_
    obtain ⟨_, known, same⟩ := Option.map_eq_some_iff.mp reached
    cases same
    exact ⟨only _ (entry_of_lookup known), keeps_expander left fun entry later => only entry (List.mem_filter.mp later).1⟩

end Outline

namespace Template

def outlines (template : Template) (options : Options) (loader : Loader) : List Outline :=
  (Outline.expander loader.templates.length loader.templates ⟨(Path.ofText options.filePath).normalize, []⟩ 0
    (Node.largestOf 0 0 template.nodes) template.nodes).1

-- The template with the nodes of included files in the places of the tags that include them. The identities of a
-- file are moved past all those taken before it, and paths in it are followed from its own directory. An include
-- that leads nowhere stays where it is.
def inlined (template : Template) (options : Options) (loader : Loader) : Template :=
  ⟨Sketch.plains (Outline.flatten (template.outlines options loader))⟩

end Template

end Stencil
