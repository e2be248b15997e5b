import Stencil.Proofs.AttrBlocks

-- The imports behind the calls of components. The walk makes a component known when it comes to the import, and a line
-- for it; a tag of that name that it comes to later is a call. The lines for the children of a single tag are not kept,
-- so that a call can stand in the code without its import. Among all that the walk comes to, kept or not, each call is
-- behind an import.

namespace Stencil

inductive Mention where
  | imports (name : String)
  | calls (name : String)
  deriving DecidableEq

def Line.mention? : Line → Option Mention
  | .importComponent name _ _ => some (.imports name)
  | .callComponent _ _ _ name _ => some (.calls name)
  | _ => none

theorem Line.mention?_of_continues {line : Line} (more : line.continues = true) : line.mention? = none := by
  cases line with
  | importComponent name path extension => cases more
  | callComponent identity sink attrsOf name childrenOf => cases more
  | _ => rfl

-- What the walk comes to, in order, with whether the line for it is kept.
abbrev Mentions := List (Mention × Bool)

namespace Mentions

def written (mentions : Mentions) : List Mention := (mentions.filter Prod.snd).map Prod.fst

def dropped (mentions : Mentions) : Mentions := mentions.map fun entry => (entry.1, false)

def import? : Mention × Bool → Option (String × Bool)
  | (.imports name, isKept) => some (name, isKept)
  | _ => none

def imports (mentions : Mentions) : List (String × Bool) := mentions.filterMap import?

def imported (mentions : Mentions) : List String := mentions.imports.map Prod.fst

-- The names that are known behind what the walk comes to, whether or not the lines for the imports are kept.
def learn (known : String → Bool) (mentions : Mentions) (name : String) : Bool :=
  known name || mentions.imported.contains name

variable {known : String → Bool} {front back : Mentions}

@[simp] theorem written_append : written (front ++ back) = written front ++ written back := by
  simp [written]

@[simp] theorem written_dropped (mentions : Mentions) : mentions.dropped.written = [] := by
  simp [written, dropped]

@[simp] theorem imports_append : imports (front ++ back) = imports front ++ imports back := List.filterMap_append

@[simp] theorem imported_append : imported (front ++ back) = imported front ++ imported back := by
  simp [imported]

theorem imports_dropped (mentions : Mentions) :
    mentions.dropped.imports = mentions.imports.map fun entry => (entry.1, false) := by
  induction mentions with
  | nil => rfl
  | cons entry rest ih =>
    obtain ⟨mention, isKept⟩ := entry
    cases mention with
    | imports name => exact congrArg ((name, false) :: ·) ih
    | calls name => exact ih

@[simp] theorem imported_dropped (mentions : Mentions) : mentions.dropped.imported = mentions.imported := by
  rw [imported, imports_dropped, List.map_map]
  rfl

@[simp] theorem learn_nil : learn known [] = known := by
  funext name
  exact Bool.or_false _

theorem learn_append : learn known (front ++ back) = learn (learn known front) back := by
  funext name
  simp [learn, Bool.or_assoc]

@[simp] theorem learn_dropped (mentions : Mentions) : learn known mentions.dropped = learn known mentions := by
  funext name
  rw [learn, imported_dropped]
  rfl

@[simp] theorem learn_calls {name : String} {isKept : Bool} : learn known [(.calls name, isKept)] = known := learn_nil

-- Each call is of a component that is known, or that is imported in front of the call.
def Follow (known : String → Bool) (mentions : Mentions) : Prop :=
  ∀ (front : Mentions) name isKept back, mentions = front ++ (.calls name, isKept) :: back →
    known name = true ∨ name ∈ front.imported

namespace Follow

theorem nil : Follow known [] := by
  intro front name isKept back split
  simp at split

theorem imports (name : String) : Follow known [(.imports name, true)] := by
  intro front other isKept back split
  cases front with
  | nil => cases split
  | cons first more => simp at split

theorem calls {name : String} (told : known name = true) : Follow known [(.calls name, true)] := by
  intro front other isKept back split
  cases front with
  | nil =>
    cases split
    exact .inl told
  | cons first more => simp at split

theorem append (first : Follow known front) (second : Follow (learn known front) back) :
    Follow known (front ++ back) := by
  intro before name isKept after split
  -- A call in the second part stands behind all imports of the first.
  have behind (more : Mentions) (rest : back = more ++ (.calls name, isKept) :: after) :
      known name = true ∨ name ∈ (front ++ more).imported := by
    rw [imported_append, List.mem_append, ← or_assoc]
    refine (second more name isKept after rest).imp_left fun learned => ?_
    rwa [learn, Bool.or_eq_true, List.contains_iff_mem] at learned
  rcases List.append_eq_append_iff.mp split with ⟨more, rfl, rest⟩ | ⟨more, rfl, rest⟩
  · exact behind more rest
  · cases more with
    | nil =>
      have found := behind [] rest.symm
      rwa [List.append_nil, List.append_nil] at found
    | cons here more =>
      cases rest
      exact first before name isKept more rfl

theorem dropped {mentions : Mentions} (follow : Follow known mentions) : Follow known mentions.dropped := by
  intro before name isKept after split
  obtain ⟨earlier, rest, rfl, rfl, others⟩ := List.map_eq_append_iff.mp split
  obtain ⟨⟨mention, wasKept⟩, later, rfl, same, rfl⟩ := List.map_eq_cons_iff.mp others
  cases same
  have found := follow earlier name wasKept later rfl
  rwa [← imported_dropped] at found

end Follow

end Mentions

namespace Sketch

mutual

-- What the walk comes to at a node, given the names that are known. A tag is a call if its name is known when the walk
-- comes to it; its children may import more. The children of a single tag count, but they are not written.
def mentions (options : Options) (known : String → Bool) : Sketch → Mentions
  | .node ⟨_, .tag tag, _⟩ below =>
    match TagKind.ofName? tag.name with
    | some (.control _ _) => allMentions options known below
    | some .template => allMentions options known below
    | some kind => (tag.imported? kind).toList.map fun name => (.imports name, true)
    | none =>
      (if tag.selfClosing then []
        else if Walk.isSingle options tag then (allMentions options known below).dropped
        else allMentions options known below) ++
      if known tag.name then [(.calls tag.name, true)] else []
  | .node ⟨_, .leaf _, _⟩ _ => []

def allMentions (options : Options) (known : String → Bool) : List Sketch → Mentions
  | [] => []
  | first :: rest =>
    first.mentions options known ++ allMentions options (Mentions.learn known (first.mentions options known)) rest

end

theorem allMentions_append (options : Options) (known : String → Bool) (front back : List Sketch) :
    allMentions options known (front ++ back) = allMentions options known front ++
      allMentions options (Mentions.learn known (allMentions options known front)) back := by
  induction front generalizing known with
  | nil => rw [List.nil_append, allMentions, Mentions.learn_nil, List.nil_append]
  | cons first rest ih => rw [List.cons_append, allMentions, ih, allMentions, Mentions.learn_append, List.append_assoc]

mutual

-- Each call is of a name that was known before the tag, so that its own children do not matter.
theorem follow_mentions (options : Options) (known : String → Bool) : ∀ sketch : Sketch,
    Mentions.Follow known (sketch.mentions options known)
  | .node ⟨_, .leaf _, _⟩ _ => .nil
  | .node ⟨_, .tag tag, _⟩ below => by
    have inner := follow_allMentions options known below
    unfold mentions
    split
    · exact inner
    · exact inner
    · cases tag.imported? _ with
      | none => exact .nil
      | some name => exact .imports name
    · apply Mentions.Follow.append
      · split
        · exact .nil
        · split
          · exact inner.dropped
          · exact inner
      · cases told : known tag.name with
        | false => exact .nil
        | true =>
          apply Mentions.Follow.calls
          unfold Mentions.learn
          rw [told, Bool.true_or]

theorem follow_allMentions (options : Options) (known : String → Bool) : ∀ sketches : List Sketch,
    Mentions.Follow known (allMentions options known sketches)
  | [] => .nil
  | first :: rest => (follow_mentions options known first).append (follow_allMentions options _ rest)

end

end Sketch

namespace Passage

def mentions (options : Options) (known : String → Bool) : Passage → Mentions
  | .node _ outline => Sketch.allMentions options known outline.flat
  | .nodes _ outlines => Sketch.allMentions options known (Outline.flatten outlines)
  | .control _ _ body => body.mentions options known
  | _ => []

variable {options : Options} {known : String → Bool}

theorem mentions_of_isEmpty {passage : Passage} (empty : passage.isEmpty = true) :
    passage.mentions options known = [] := by
  cases passage with
  | nodes sink outlines =>
    unfold mentions
    rw [List.isEmpty_iff.mp empty]
    rfl
  | copies attrsOf sketches => rfl
  | _ => cases empty

theorem mentions_nodes {sink : Nat} {first : Outline} {rest : List Outline} :
    mentions options known (.nodes sink (first :: rest)) = mentions options known (.node sink first) ++
      mentions options (Mentions.learn known (mentions options known (.node sink first))) (.nodes sink rest) :=
  Sketch.allMentions_append options known first.flat (Outline.flatten rest)

section Tag

variable {sink identity : Nat} {tag : Tag} {location : Location} {children : List Outline}

theorem mentions_tag : mentions options known (.node sink (.node ⟨identity, .tag tag, location⟩ children)) =
    Sketch.mentions options known (.node ⟨identity, .tag tag, location⟩ (Outline.flatten children)) := List.append_nil _

theorem mentions_controlled {kind : Control} {flow : Flow}
    (named : TagKind.ofName? tag.name = some (.control kind flow)) :
    mentions options known (.node sink (.node ⟨identity, .tag tag, location⟩ children)) =
      mentions options known (.control kind tag (.nodes sink children)) := by
  rw [mentions_tag, Sketch.mentions, named]
  rfl

theorem mentions_template (named : TagKind.ofName? tag.name = some .template) :
    mentions options known (.node sink (.node ⟨identity, .tag tag, location⟩ children)) =
      mentions options known (.nodes identity children) := by
  rw [mentions_tag, Sketch.mentions, named]
  rfl

theorem mentions_statement {kind : TagKind} {lines : List Line} (named : TagKind.ofName? tag.name = some kind)
    (stated : tag.statement? options kind = some lines) :
    mentions options known (.node sink (.node ⟨identity, .tag tag, location⟩ children)) =
      (tag.imported? kind).toList.map fun name => (.imports name, true) := by
  rw [mentions_tag, Sketch.mentions, named]
  cases kind with
  | control kind flow => cases stated
  | template => cases stated
  | _ => rfl

-- A tag that stands for itself or for a component.
theorem mentions_own (named : TagKind.ofName? tag.name = none) :
    mentions options known (.node sink (.node ⟨identity, .tag tag, location⟩ children)) =
      (if tag.selfClosing then []
        else if Walk.isSingle options tag then (mentions options known (.nodes identity children)).dropped
        else mentions options known (.nodes identity children)) ++
      if known tag.name then [(.calls tag.name, true)] else [] := by
  rw [mentions_tag, Sketch.mentions, named]
  rfl

end Tag

end Passage

theorem Tag.mention?_statement {options : Options} {tag : Tag} {kind : TagKind} {lines : List Line}
    (stated : tag.statement? options kind = some lines) :
    lines.filterMap Line.mention? = (tag.imported? kind).toList.map .imports := by
  cases kind with
  | parameter =>
    simp only [statement?, Option.bind_eq_bind, Option.bind_eq_some_iff, Option.some.injEq] at stated
    obtain ⟨_, _, _, _, rfl⟩ := stated
    rfl
  | assignment =>
    simp only [statement?, Option.bind_eq_bind, Option.bind_eq_some_iff, Option.some.injEq] at stated
    obtain ⟨_, _, _, _, rfl⟩ := stated
    rfl
  | attr flow =>
    cases flow with
    | content =>
      cases stated
      rfl
    | applied => cases stated
  | importing =>
    simp only [statement?, Option.bind_eq_bind, Option.bind_eq_some_iff, Option.some.injEq] at stated
    obtain ⟨name, named, _, _, rfl⟩ := stated
    rw [imported?, if_pos rfl, named]
    rfl
  | state =>
    simp only [statement?, Option.bind_eq_bind, Option.bind_eq_some_iff, Option.some.injEq] at stated
    obtain ⟨_, _, _, _, _, _, rfl⟩ := stated
    rfl
  | _ => cases stated

theorem Tag.mention?_opening {tag : Tag} {kind : Control} {opening : Line} (opened : tag.opening? kind = some opening) :
    opening.mention? = none := by
  apply Line.mention?_of_continues
  rw [Line.continues, Tag.isFlow_opening? opened]
  rfl

theorem Attr.mention?_lines {attrsOf : Nat} {attrs : List Attr} {lines : List Line}
    (made : Attr.lines? attrsOf attrs = some lines) : lines.filterMap Line.mention? = [] := by
  apply List.filterMap_eq_nil_iff.mpr
  intro line member
  obtain ⟨_, _, rfl⟩ := Attr.eq_of_mem_lines? made line member
  rfl

theorem Ending.mention? {identity sink attrsOf : Nat} {name : String} {childrenOf : Option Nat} {last : Line}
    (ending : Ending identity sink attrsOf name childrenOf last) {l : Ledger} (call : last.Calls l name) :
    [last].filterMap Line.mention? = Mentions.written (if l.knows name then [(.calls name, true)] else []) := by
  cases told : l.knows name with
  | true =>
    rw [Line.Calls, told] at call
    cases ending with
    | record => cases call
    | call => rfl
  | false =>
    rw [Line.Calls, told] at call
    cases ending with
    | record => rfl
    | call => cases call

theorem Mentions.learn_ending {known later : String → Bool} {name : String} :
    learn later (if known name then [(.calls name, true)] else []) = later := by
  split
  · exact learn_calls
  · exact learn_nil

-- The lines of a passage mention what the walk comes to and keeps, and the walk knows what it came to import.
structure Accounts (options : Options) (passage : Passage) (l : Ledger) (lines : List Line) (r : Ledger) : Prop where
  lines : lines.filterMap Line.mention? = (passage.mentions options l.knows).written
  knows : r.knows = Mentions.learn l.knows (passage.mentions options l.knows)

namespace Accounts

variable {options : Options} {passage body : Passage} {k l m r : Ledger} {lines others : List Line}

-- Lines that mention nothing, of a passage in which nothing is mentioned.
theorem quiet (silent : lines.filterMap Line.mention? = []) (alone : passage.mentions options l.knows = [])
    (same : r.knows = l.knows) : Accounts options passage l lines r := by
  constructor
  · rw [silent, alone]
    rfl
  · rw [same, alone, Mentions.learn_nil]

-- More lines around those of a passage, which mention nothing.
theorem around (inner : Accounts options body k lines m)
    (silent : others.filterMap Line.mention? = lines.filterMap Line.mention?)
    (same : passage.mentions options l.knows = body.mentions options l.knows) (start : k.knows = l.knows)
    (stop : r.knows = m.knows) : Accounts options passage l others r where
  lines := by rw [silent, inner.lines, start, same]
  knows := by rw [stop, inner.knows, start, same]

end Accounts

namespace Written

variable {options : Options} {passage : Passage} {l r : Ledger} {lines : List Line}

theorem accounts (written : Written options passage l lines r) : Accounts options passage l lines r := by
  induction written with
  | noNodes => exact .quiet rfl rfl rfl
  | @moreNodes sink first rest l m r lines others _ _ head tail =>
    constructor
    · rw [List.filterMap_append, head.lines, tail.lines, head.knows, Passage.mentions_nodes, Mentions.written_append]
    · rw [tail.knows, head.knows, Passage.mentions_nodes, Mentions.learn_append]
  | file _ ih => exact ⟨ih.lines, ih.knows⟩
  | blank => exact .quiet rfl rfl rfl
  | field => exact .quiet rfl rfl rfl
  | value => exact .quiet rfl rfl rfl
  | script _ ih =>
    refine ih.around ?_ rfl rfl rfl
    rw [List.filterMap_append]
    exact List.append_nil _
  | @statement _ _ _ _ _ l r _ _ named stated marks =>
    constructor
    · rw [Tag.mention?_statement stated, Passage.mentions_statement named stated]
      cases Tag.imported? _ _ <;> rfl
    · funext name
      rw [marks.knows, Passage.mentions_statement named stated, Mentions.learn]
      congr 1
      cases Tag.imported? _ _ with
      | none => rfl
      | some own => simp [Mentions.imported, Mentions.imports, Mentions.import?, eq_comm]
  | template named _ _ ih =>
    refine ih.around ?_ (Passage.mentions_template named) rfl rfl
    rw [List.cons_append, List.filterMap_cons_none rfl, List.filterMap_append]
    exact List.append_nil _
  | controlled named _ ih => exact ih.around rfl (Passage.mentions_controlled named) rfl rfl
  | @closed _ _ tag _ _ l _ _ _ call named closing _ ending ih =>
    constructor
    · rw [List.filterMap_append, ih.lines, ending.mention? call, Passage.mentions_own named, closing]
      rfl
    · rw [Passage.mentions_own named, closing, if_pos rfl, List.nil_append, Mentions.learn_ending]
      exact ih.knows.trans Mentions.learn_nil
  | @single _ _ tag _ _ l _ _ _ _ _ call named opening isSingle _ _ ending below ih =>
    constructor
    · rw [List.filterMap_append, ih.lines, ending.mention? call, Passage.mentions_own named, opening, isSingle,
        Mentions.written_append, if_neg Bool.false_ne_true, if_pos rfl, Mentions.written_dropped]
      rfl
    · rw [Passage.mentions_own named, opening, isSingle, Mentions.learn_append, Mentions.learn_ending]
      exact (ih.knows.trans Mentions.learn_nil).trans (below.knows.trans (Mentions.learn_dropped _).symm)
  | @full _ _ tag _ _ l _ _ _ _ _ call named opening isSingle _ _ ending below ih =>
    constructor
    · rw [List.filterMap_append, List.filterMap_append, ih.lines, List.filterMap_cons_none rfl, below.lines,
        ending.mention? call, Passage.mentions_own named, opening, isSingle, Mentions.written_append]
      rfl
    · rw [Passage.mentions_own named, opening, isSingle, Mentions.learn_append, Mentions.learn_ending]
      exact (ih.knows.trans Mentions.learn_nil).trans below.knows
  | attrs _ made ih =>
    refine ih.around ?_ rfl rfl rfl
    rw [List.cons_append, List.filterMap_cons_none rfl, List.filterMap_append, Attr.mention?_lines made, List.append_nil]
  | noCopies => exact .quiet rfl rfl rfl
  | moreCopies _ _ head tail =>
    refine .quiet ?_ rfl ((tail.knows.trans Mentions.learn_nil).trans (head.knows.trans Mentions.learn_nil))
    rw [List.filterMap_append, head.lines, tail.lines]
    rfl
  | copiedAttr => exact .quiet rfl rfl rfl
  | copiedControl _ _ ih => exact ih.around rfl rfl rfl rfl
  | ignored => exact .quiet rfl rfl rfl
  | @childless kind tag body l m _ empty _ _ ih =>
    have alone : body.mentions options l.knows = [] := Passage.mentions_of_isEmpty empty
    refine .quiet rfl alone (ih.knows.trans ?_)
    show Mentions.learn l.knows (body.mentions options l.knows) = l.knows
    rw [alone, Mentions.learn_nil]
  | guarded _ opened _ ih =>
    refine ih.around ?_ rfl rfl rfl
    rw [List.cons_append, List.filterMap_cons_none (Tag.mention?_opening opened), List.filterMap_append]
    exact List.append_nil _
  | switch _ ih =>
    refine ih.around ?_ rfl rfl rfl
    split
    · rw [List.filterMap_append]
      exact List.append_nil _
    · rfl
  | @case _ _ _ _ _ hasCase test _ _ _ ih =>
    refine ih.around ?_ rfl rfl rfl
    cases hasCase <;> exact List.filterMap_cons_none rfl
  | default _ _ ih =>
    refine ih.around ?_ rfl rfl rfl
    split
    · exact List.filterMap_cons_none rfl
    · rfl

end Written

namespace Mentions

-- A mention that is kept, with all that the walk came to in front of it.
theorem split_written {mentions : Mentions} {before after : List Mention} {mention : Mention}
    (split : mentions.written = before ++ mention :: after) :
    ∃ front back, mentions = front ++ (mention, true) :: back ∧ front.written = before := by
  induction mentions generalizing before with
  | nil => cases before <;> cases split
  | cons entry rest ih =>
    obtain ⟨own, isKept⟩ := entry
    cases isKept with
    | false =>
      obtain ⟨front, back, same, kept⟩ := ih split
      exact ⟨(own, false) :: front, back, by rw [same]; rfl, kept⟩
    | true =>
      cases before with
      | nil =>
        cases split
        exact ⟨[], rest, rfl, rfl⟩
      | cons first more =>
        obtain ⟨rfl, others⟩ := List.cons.inj split
        obtain ⟨front, back, same, kept⟩ := ih others
        exact ⟨(own, true) :: front, back, by rw [same]; rfl, congrArg _ kept⟩

-- A name whose first import is kept is imported by what is written in front of all that comes behind some import of it.
theorem mem_written_of_lookup {front back : Mentions} {name : String}
    (first : (imports (front ++ back)).lookup name = some true) (imported : name ∈ front.imported) :
    .imports name ∈ front.written := by
  have found : front.imports.lookup name = some true := by
    rw [imports_append, List.lookup_append] at first
    cases here : front.imports.lookup name with
    | none =>
      obtain ⟨entry, member, rfl⟩ := List.mem_map.mp imported
      have missing := List.lookup_eq_none_iff.mp here entry member
      rw [bne_self_eq_false] at missing
      cases missing
    | some isKept => rwa [here, Option.some_or] at first
  obtain ⟨⟨mention, isKept⟩, listed, made⟩ := List.mem_filterMap.mp (entry_of_lookup found)
  cases mention with
  | imports own =>
    cases made
    exact List.mem_map.mpr ⟨_, List.mem_filter.mpr ⟨listed, rfl⟩, rfl⟩
  | calls own => cases made

end Mentions

namespace Template

-- What the walk of a template comes to import and to call, in order, with whether the line for it is written.
def mentions (template : Template) (options : Options) (loader : Loader) (shared : Names) : Mentions :=
  Sketch.allMentions options (Ledger.start options shared).knows (Outline.flatten (template.outlines options loader))

-- Within one session the code imports and calls what the walk comes to, apart from what stands below single tags. All
-- that the walk comes to has each call behind an import, and the walk ends with these imports known. So a component that
-- is first imported elsewhere is imported in the code before each call of it.
theorem compile_imports (template : Template) (options : Options) (loader : Loader) (shared : Names) (text : String)
    (session : options.registryScope = .session) (success : (template.compile options loader shared).1 = .ok text) :
    ∃ lines, (template.draft options loader shared).1 = .ok lines ∧
      text = Line.file (template.walk options loader shared).2.scope lines ∧
      lines.filterMap Line.mention? = (template.mentions options loader shared).written ∧
      (∀ name, (template.walk options loader shared).2.registry.contains (template.walk options loader shared).2.shared
        name = true ↔ name ∈ (template.mentions options loader shared).imported) ∧
      (∀ (front : Mentions) name isKept back,
        template.mentions options loader shared = front ++ (.calls name, isKept) :: back → name ∈ front.imported) ∧
      ∀ before call after name, lines = before ++ call :: after → call.called? = some name →
        (template.mentions options loader shared).imports.lookup name = some true →
          ∃ path extension, .importComponent name path extension ∈ before := by
  obtain ⟨lines, drafted, written, same⟩ := template.written success
  have accounts := written.accounts
  have mentioned : lines.filterMap Line.mention? = (template.mentions options loader shared).written := accounts.lines
  have unknown (name : String) : (Ledger.start options shared).knows name = false := by
    rw [Ledger.knows, Ledger.start, session]
    rfl
  have behind : ∀ (front : Mentions) name isKept back,
      template.mentions options loader shared = front ++ (.calls name, isKept) :: back → name ∈ front.imported := by
    intro front name isKept back split
    have follow := Sketch.follow_allMentions options (Ledger.start options shared).knows
      (Outline.flatten (template.outlines options loader)) front name isKept back split
    rwa [unknown, or_iff_right Bool.false_ne_true] at follow
  refine ⟨lines, drafted, same, mentioned, ?_, behind, ?_⟩
  · intro name
    have learned : ((template.walk options loader shared).2.ledger none).knows name = true ↔ _ :=
      iff_of_eq (congrArg (· = true) (congrFun accounts.knows name))
    rw [Mentions.learn, unknown, Bool.false_or, List.contains_iff_mem] at learned
    exact learned
  · intro before call after name split called first
    have mention : call.mention? = some (.calls name) := by
      cases call with
      | callComponent identity sink attrsOf own childrenOf =>
        cases called
        rfl
      | _ => cases called
    rw [split, List.filterMap_append, List.filterMap_cons_some mention] at mentioned
    obtain ⟨front, back, whole, kept⟩ := Mentions.split_written mentioned.symm
    rw [whole] at first
    have imported := Mentions.mem_written_of_lookup first (behind front name true back whole)
    rw [kept] at imported
    obtain ⟨line, listed, found⟩ := List.mem_filterMap.mp imported
    cases line with
    | importComponent own path extension =>
      cases found
      exact ⟨path, extension, listed⟩
    | _ => cases found

-- The tag that imports a component.
def importing (identity : UInt32) : Node :=
  .tag identity ⟨"import", [⟨.literal "name", some (.literal "x-y"), .zero⟩,
    ⟨.literal "from", some (.literal "f"), .zero⟩], true⟩ [] .zero

def inSession : Options := { Options.standard with registryScope := .session }

-- A component that is imported below a tag, and then called below another one.
def importThenCall : Template :=
  ⟨[.tag 1 ⟨"div", [], false⟩ [importing 2] .zero, .tag 3 ⟨"p", [], false⟩ [.tag 4 ⟨"x-y", [], true⟩ [] .zero] .zero]⟩

theorem compile_imports_importThenCall :
    (importThenCall.compile inSession noParts []).1.isOk = true ∧
    importThenCall.mentions inSession noParts [] = [(.imports "x-y", true), (.calls "x-y", true)] ∧
    ∃ text lines, (importThenCall.compile inSession noParts []).1 = .ok text ∧
      (importThenCall.draft inSession noParts []).1 = .ok lines ∧
      text = Line.file (importThenCall.walk inSession noParts []).2.scope lines ∧
      lines.filterMap Line.mention? = [.imports "x-y", .calls "x-y"] ∧
      ∀ before call after, lines = before ++ call :: after → call.called? = some "x-y" →
        ∃ path extension, .importComponent "x-y" path extension ∈ before := by
  have compiled : (importThenCall.compile inSession noParts []).1.isOk = true := by decide +kernel
  have found : importThenCall.mentions inSession noParts [] = [(.imports "x-y", true), (.calls "x-y", true)] := by
    decide +kernel
  obtain ⟨text, success⟩ := exists_text compiled
  obtain ⟨lines, drafted, same, mentioned, _, _, preceded⟩ :=
    compile_imports importThenCall inSession noParts [] text rfl success
  rw [found] at mentioned preceded
  refine ⟨compiled, found, text, lines, success, drafted, same, mentioned, ?_⟩
  intro before call after split called
  exact preceded before call after "x-y" split called rfl

-- The import counts, so that the second tag is a call, but it stands below a single tag and is not written.
def importBelowSingle : Template :=
  ⟨[.tag 1 ⟨"input", [], false⟩ [importing 2] .zero, .tag 3 ⟨"x-y", [], true⟩ [] .zero]⟩

theorem importBelowSingle_calls_unimported :
    importBelowSingle.mentions inSession noParts [] = [(.imports "x-y", false), (.calls "x-y", true)] ∧
    (importBelowSingle.compile inSession noParts []).1.toOption = some (Output.opening ++
      "<?php $attrs1 = []; ?>\n<?php $children0[] = [\"tag\" => \"input\", \"attrs\" => $attrs1]; ?>\n" ++
      "<?php $attrs2 = []; ?>\n<?php $result3 = $__components[\"x-y\"]($attrs2, [], true, $__state); ?>\n" ++
      "<?php foreach ($result3 as $item3) \x7b $children0[] = $item3; \x7d ?>\n" ++ Output.closing) := by
  decide +kernel

end Template

end Stencil
