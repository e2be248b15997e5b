import Stencil.Document

-- Attribute fragments. While the children of a tag are compiled, the control flow that leads to its
-- attributes is copied into a fragment: a tree of its own in the document, with a cursor where the next copy
-- goes. The fragment then becomes the tag's list of attributes.

namespace Stencil

structure Fragments where
  -- The fragment of each tag that is being compiled.
  byTag : Table NodeId
  -- Where the next copy goes, for each live fragment.
  cursors : Table NodeId
  nextIdentity : Nat

namespace Fragments

def empty : Fragments := ⟨[], [], 1⟩

-- The name of the tag at the top of a fragment.
def tagName : String := "fragment"

def get? (fragments : Fragments) (tag : NodeId) : Option NodeId := fragments.byTag.get? tag

def isFragment (fragments : Fragments) (id : NodeId) : Bool := fragments.cursors.contains id

def cursor (fragments : Fragments) (fragment : NodeId) : NodeId := (fragments.cursors.get? fragment).getD fragment

def setCursor (fragments : Fragments) (fragment id : NodeId) : Fragments :=
  { fragments with cursors := fragments.cursors.insert fragment id }

-- The fragment of a tag, made when it is first asked for.
def link (fragments : Fragments) (doc : Document) (tag : NodeId) : NodeId × Fragments × Document :=
  match fragments.get? tag with
  | some fragment => (fragment, fragments, doc)
  | none =>
    let location := ((doc.cell? tag).map fun cell => cell.item.location).getD .zero
    let (fragment, doc) := doc.createTag fragments.nextIdentity tagName location
    (fragment, ⟨fragments.byTag.insert tag fragment, fragments.cursors.insert fragment fragment,
      fragments.nextIdentity + 1⟩, doc)

-- Copies a node under the cursor. The cursor may then move to the copy.
def append (fragments : Fragments) (doc : Document) (fragment id : NodeId) (name : String) (advance : Bool) :
    NodeId × Fragments × Document :=
  let (copy, doc) := doc.cloneDetached id name
  let doc := doc.appendChild (fragments.cursor fragment) copy
  (copy, if advance then fragments.setCursor fragment copy else fragments, doc)

-- Moves the cursor one level up, but not above the fragment.
def pop (fragments : Fragments) (doc : Document) (fragment : NodeId) : Fragments :=
  fragments.setCursor fragment ((doc.parent? (fragments.cursor fragment)).getD fragment)

-- Forgets the fragment of a tag.
def unlink (fragments : Fragments) (tag : NodeId) : Fragments :=
  match fragments.get? tag with
  | some fragment =>
    { fragments with byTag := fragments.byTag.erase tag, cursors := fragments.cursors.erase fragment }
  | none => fragments

end Fragments

end Stencil
