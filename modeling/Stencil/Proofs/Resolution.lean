import Stencil.Compile

-- The place that a path leads to. A step up undoes the last name, and where there is no name to undo it leaves the base.
-- The normal form of a path keeps the names and, of the steps that leave the base, whether their number is odd.

namespace Stencil

-- The way along some parts: the steps up that undo no name, and the names that are left, the last one first.
structure Trail where
  climbs : Nat
  names : List String
  deriving DecidableEq

namespace Trail

def start : Trail := ⟨0, []⟩

def step (trail : Trail) : PathPart → Trail
  | .current => trail
  | .up => match trail.names with
    | [] => ⟨trail.climbs + 1, []⟩
    | _ :: rest => ⟨trail.climbs, rest⟩
  | .name text => ⟨trail.climbs, text :: trail.names⟩

def run (parts : List PathPart) : Trail := parts.foldl step start

-- What is left of a trail in a normal form, the last part first. A second step out of the base takes back the first.
def folded (trail : Trail) : List PathPart :=
  trail.names.map .name ++ if trail.climbs % 2 = 1 then [.up] else []

theorem resolve_folded (trail : Trail) (part : PathPart) :
    Path.resolve trail.folded part = (trail.step part).folded := by
  obtain ⟨climbs, names⟩ := trail
  cases part with
  | current => rfl
  | name text => rfl
  | up =>
    cases names with
    | cons name rest => rfl
    | nil =>
      rcases Nat.mod_two_eq_zero_or_one climbs with even | odd
      · have next : (climbs + 1) % 2 = 1 := by omega
        simp [folded, step, Path.resolve, even, next]
      · have next : (climbs + 1) % 2 = 0 := by omega
        simp [folded, step, Path.resolve, odd, next]

theorem foldl_resolve (parts : List PathPart) (trail : Trail) :
    parts.foldl Path.resolve trail.folded = (parts.foldl step trail).folded := by
  induction parts generalizing trail with
  | nil => rfl
  | cons part rest ih => rw [List.foldl_cons, resolve_folded, ih, List.foldl_cons]

theorem folded_inj {first second : Trail} :
    first.folded = second.folded ↔ first.climbs % 2 = second.climbs % 2 ∧ first.names = second.names := by
  obtain ⟨climbs, names⟩ := first
  obtain ⟨others, texts⟩ := second
  constructor
  · intro same
    unfold folded at same
    induction names generalizing texts with
    | nil =>
      rcases Nat.mod_two_eq_zero_or_one climbs with even | odd <;>
        rcases Nat.mod_two_eq_zero_or_one others with even' | odd' <;> cases texts <;> simp_all
    | cons name rest ih =>
      cases texts with
      | nil => rcases Nat.mod_two_eq_zero_or_one others with even | odd <;> simp_all
      | cons text more =>
        obtain ⟨head, tail⟩ := List.cons.inj same
        cases head
        obtain ⟨parity, equal⟩ := ih more tail
        exact ⟨parity, congrArg (name :: ·) equal⟩
  · rintro ⟨parity, rfl⟩
    simp only [folded, parity]

end Trail

-- A place as it can be told without a disk: below the root, or some levels above the base and then down.
structure Destination where
  absolute : Bool
  above : Nat
  names : List String
  deriving DecidableEq

namespace Path

def trail (path : Path) : Trail := Trail.run path.parts

-- The place that a path leads to. There is nothing above the root.
def destination (path : Path) : Destination :=
  ⟨path.absolute, if path.absolute then 0 else path.trail.climbs, path.trail.names⟩

-- The path leaves its base once at most, and does not try to leave the root.
def isNear (path : Path) : Bool := path.trail.climbs ≤ if path.absolute then 0 else 1

theorem parts_normalize (path : Path) : path.normalize.parts = path.trail.folded.reverse :=
  congrArg List.reverse (Trail.foldl_resolve path.parts .start)

theorem normalize_inj {p q : Path} : p.normalize = q.normalize ↔
    p.absolute = q.absolute ∧ p.trail.climbs % 2 = q.trail.climbs % 2 ∧ p.trail.names = q.trail.names := by
  have parts : p.normalize.parts = q.normalize.parts ↔ p.trail.folded = q.trail.folded := by
    rw [parts_normalize, parts_normalize, List.reverse_inj]
  rw [← Trail.folded_inj, ← parts]
  exact Path.mk.injEq .. ▸ Iff.rfl

theorem destination_inj {p q : Path} (near : p.isNear = true) (near' : q.isNear = true) :
    p.destination = q.destination ↔ p.absolute = q.absolute ∧ p.trail.climbs % 2 = q.trail.climbs % 2 ∧
      p.trail.names = q.trail.names := by
  simp only [isNear, decide_eq_true_eq] at near near'
  simp only [destination, Destination.mk.injEq]
  apply and_congr_right
  intro kind
  apply and_congr_left
  intro _
  rw [kind] at near ⊢
  cases absolute : q.absolute with
  | true =>
    rw [if_pos absolute] at near near'
    simp only [if_true, true_iff]
    omega
  | false =>
    rw [if_neg (by rw [absolute]; decide)] at near near'
    simp only [Bool.false_eq_true, if_false]
    omega

-- The way along a folded trail ends where the trail does, but for what was folded away.
theorem run_folded (trail : Trail) : Trail.run trail.folded.reverse = ⟨trail.climbs % 2, trail.names⟩ := by
  have names (names : List String) (begun : Trail) : (names.map PathPart.name).reverse.foldl Trail.step begun =
      ⟨begun.climbs, names ++ begun.names⟩ := by
    induction names with
    | nil => rfl
    | cons name rest ih => simp [ih, Trail.step]
  rw [Trail.folded, Trail.run, List.reverse_append, List.foldl_append, names]
  rcases Nat.mod_two_eq_zero_or_one trail.climbs with even | odd
  · simp [even, Trail.start]
  · simp [odd, Trail.start, Trail.step]

theorem trail_normalize (path : Path) : path.normalize.trail = ⟨path.trail.climbs % 2, path.trail.names⟩ := by
  rw [trail, parts_normalize, run_folded]

theorem destination_normalize {path : Path} (near : path.isNear = true) :
    path.normalize.destination = path.destination := by
  have kind : path.normalize.absolute = path.absolute := rfl
  simp only [isNear, decide_eq_true_eq] at near
  simp only [destination, trail_normalize, kind, Destination.mk.injEq, true_and, and_true]
  split
  · rfl
  · rename_i relative
    rw [if_neg relative] at near
    omega

-- The path that an include asks for from a file, as it is written there.
def asked (file : Path) (source : String) : Path := (file.parent?.getD .empty).join (.ofText source)

theorem normalize_asked (file : Path) (source : String) :
    Walk.includePath file source = (asked file source).normalize := rfl

-- Normal forms tell paths apart by their names, and by whether they leave their base an odd number of times. If no path
-- leaves its base twice, or the root at all, this tells apart the places that they lead to. Then an include takes the
-- file at the place that its path leads to, and it meets a file that is being compiled just if that one stands there.
theorem normalize_locates (p q file : Path) (source : String) (around : List Path) :
    (p.normalize = q.normalize ↔
      p.absolute = q.absolute ∧ p.trail.climbs % 2 = q.trail.climbs % 2 ∧ p.trail.names = q.trail.names) ∧
    (p.isNear = true → q.isNear = true → (p.normalize = q.normalize ↔ p.destination = q.destination)) ∧
    (Walk.includePath file source).trail = ⟨(asked file source).trail.climbs % 2, (asked file source).trail.names⟩ ∧
    ((asked file source).isNear = true → (∀ other ∈ around, other.isNear = true) →
      (Walk.includePath file source).destination = (asked file source).destination ∧
      (Walk.includePath file source ∈ around.map normalize ↔
        (asked file source).destination ∈ around.map destination)) := by
  have same {p q : Path} (near : p.isNear = true) (near' : q.isNear = true) :
      p.normalize = q.normalize ↔ p.destination = q.destination := by
    rw [normalize_inj, destination_inj near near']
  refine ⟨normalize_inj, same, trail_normalize _, ?_⟩
  intro near others
  rw [normalize_asked]
  refine ⟨destination_normalize near, ?_⟩
  rw [List.mem_map, List.mem_map]
  constructor
  · rintro ⟨other, member, equal⟩
    exact ⟨other, member, (same (others other member) near).mp equal⟩
  · rintro ⟨other, member, equal⟩
    exact ⟨other, member, (same (others other member) near).mpr equal⟩

-- Two sheets that stand beside each other, and a page above them that is reached through one step out of the base.
theorem normalize_locates_stepOut :
    ((ofText "a/../../x.json").normalize = (ofText ".././x.json").normalize ↔
      (ofText "a/../../x.json").destination = (ofText ".././x.json").destination) ∧
    (Walk.includePath (ofText "a/page.json") "../../x.json").destination = (ofText "../x.json").destination ∧
    (Walk.includePath (ofText "a/page.json") "../../x.json" ∈ [ofText ".././x.json"].map normalize ↔
      (asked (ofText "a/page.json") "../../x.json").destination ∈ [ofText ".././x.json"].map destination) := by
  obtain ⟨-, apart, -, reached⟩ := normalize_locates (ofText "a/../../x.json") (ofText ".././x.json")
    (ofText "a/page.json") "../../x.json" [ofText ".././x.json"]
  obtain ⟨place, around⟩ := reached (by decide +kernel) (by decide +kernel)
  exact ⟨apart (by decide +kernel) (by decide +kernel), place.trans (by decide +kernel), around⟩

end Path

-- A page that includes a part from two levels above its base, where the base has a part of the same name.
def twoStepsOut : Template :=
  ⟨[.tag 1 ⟨"include", [⟨.literal "from", some (.literal "../../part.json"), .zero⟩], true⟩ [] .zero]⟩

def nearAndFarParts : Loader :=
  .ofSources [(.ofText "../../part.json", some ⟨[.leaf 1 (.text "far") .zero]⟩),
    (.ofText "part.json", some ⟨[.leaf 1 (.text "near") .zero]⟩)]

-- A second step out of the base takes back the first one, and a step out of the root is not dropped. So two paths to
-- different places have one normal form, two paths to one place have different ones, and the page gets the wrong part.
theorem twoStepsOut_takes_near_part :
    (Path.ofText "../../x").normalize = (Path.ofText "x").normalize ∧
    (Path.ofText "../../x").destination ≠ (Path.ofText "x").destination ∧
    (Path.ofText "/../x").normalize ≠ (Path.ofText "/x").normalize ∧
    (Path.ofText "/../x").destination = (Path.ofText "/x").destination ∧
    (Walk.includePath (.ofText "page.json") "../../part.json").destination = (Path.ofText "part.json").destination ∧
    (twoStepsOut.compile .standard nearAndFarParts []).1.toOption =
      some (Output.opening ++ "<?php $children0[] = [\"text\" => \"near\"]; ?>\n" ++ Output.closing) := by
  decide +kernel

end Stencil
