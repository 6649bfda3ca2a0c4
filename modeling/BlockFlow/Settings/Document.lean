import BlockFlow.Settings.Literal

/-!
# Settings documents

A document is kept as the list of its entries: the path of labels that leads to a place, and what is
written there.  The same place may be written more than once, and all that is written there has to
agree.

A place may also be written as the name of another place, and then holds all that the other holds.
Such links are followed until nothing new is found (`Document.closed?`).  Following them never ends
for a place that would have to hold itself, and such a document is refused.

Labels that begin with an underscore are hidden: what stands below them is checked and may be named
elsewhere, but belongs to no setting.
-/

namespace BlockFlow

/-! ### Places -/

/-- One step from a place to a place below it. -/
inductive Label where
  /-- A field of a record. -/
  | field (name : String)
  /-- A hidden field. -/
  | hidden (name : String)
  /-- A field that defines a shape and is not part of the data. -/
  | definition (name : String)
  /-- An item of a list. -/
  | item (index : Nat)
deriving DecidableEq, Repr, Inhabited

namespace Label

/-- The label that a word without quotes stands for.  An underscore alone is none, and words that
begin with two are reserved. -/
def ofWord? (name : String) : Option Label :=
  match name.toList with
  | ['_'] => none
  | '_' :: '_' :: _ => none
  | '_' :: _ => some (.hidden name)
  | '#' :: _ => some (.definition name)
  | _ => some (.field name)

/-- Whether the label is hidden. -/
def isHidden : Label → Bool
  | hidden _ => true
  | _ => false

/-- Whether the label is that of a field in the data. -/
def isField : Label → Bool
  | field _ => true
  | _ => false

end Label

/-- The labels that lead to a place, outermost first. -/
abbrev Path := List Label

namespace Path

/-- The path that leads from a place as the given one leads from another place, which has to be a
place above it. -/
def moved (source target path : Path) : Path :=
  target ++ path.drop source.length

end Path

/-! ### What is written -/

/-- The kinds of values that a word can ask for. -/
inductive ValueKind where
  | text
  | bytes
  | flag
  | whole
  | decimal
  /-- Whole numbers and decimal fractions. -/
  | number
deriving DecidableEq, Repr, Inhabited

namespace ValueKind

/-- The kind of a name. -/
def ofName? : String → Option ValueKind
  | "string" => some text
  | "bytes" => some bytes
  | "bool" => some flag
  | "int" => some whole
  | "float" => some decimal
  | "number" => some number
  | _ => none

/-- Whether some value is of both kinds. -/
def meets (a b : ValueKind) : Bool :=
  match a, b with
  | number, whole => true
  | number, decimal => true
  | whole, number => true
  | decimal, number => true
  | _, _ => a == b

end ValueKind

/-- What is written at a place. -/
inductive Leaf where
  /-- A record, possibly without fields. -/
  | record
  /-- A list of so many items. -/
  | list (length : Nat)
  /-- The value that stands for none. -/
  | null
  | number (value : Int)
  | decimal (value : Decimal)
  | text (value : String)
  | flag (value : Bool)
  /-- Any value of a kind. -/
  | kind (kind : ValueKind)
  /-- Any value. -/
  | anything
deriving DecidableEq, Repr, Inhabited

namespace Leaf

/-- Whether what is written is a value. -/
def isConcrete : Leaf → Bool
  | kind _ => false
  | anything => false
  | _ => true

/-- The kind of a value, for values that have one. -/
def kind? : Leaf → Option ValueKind
  | number _ => some .whole
  | decimal _ => some .decimal
  | text _ => some .text
  | flag _ => some .flag
  | kind k => some k
  | _ => none

/-- Whether two writings of the same place agree. -/
def agrees (a b : Leaf) : Bool :=
  if a == .anything || b == .anything then true
  else if a.isConcrete && b.isConcrete then a == b
  else match a.kind?, b.kind? with
    | some k, some l => k.meets l
    | _, _ => false

end Leaf

/-- A place and what is written there. -/
structure Entry where
  /-- The place. -/
  path : Path
  /-- What is written there. -/
  leaf : Leaf
deriving DecidableEq, Repr, Inhabited

/-- A place that holds all that another holds. -/
structure Link where
  /-- The place. -/
  path : Path
  /-- The other place. -/
  target : Path
deriving DecidableEq, Repr, Inhabited

/-! ### Documents -/

/-- A document, as what is written at its places. -/
structure Document where
  /-- The entries. -/
  entries : List Entry := []
  /-- The links. -/
  links : List Link := []
deriving DecidableEq, Repr, Inhabited

namespace Entry

/-- What an entry means for the place of a link, if it lies at or below the target. -/
def along? (e : Entry) (l : Link) : Option Entry :=
  if l.target.isPrefixOf e.path then some ⟨Path.moved l.target l.path e.path, e.leaf⟩ else none

end Entry

namespace Link

/-- What a link means for the place of another, if it lies at or below the target.  A link within
the target stays within the copy. -/
def along? (m l : Link) : Option Link :=
  if l.target.isPrefixOf m.path then
    let target :=
      if l.target.isPrefixOf m.target then Path.moved l.target l.path m.target else m.target
    some ⟨Path.moved l.target l.path m.path, target⟩
  else none

/-- Whether the place would have to hold a record that it lies in. -/
def isCircular (l : Link) : Bool :=
  l.path != l.target && l.target.isPrefixOf l.path

end Link

namespace Document

/-- Follows every link once. -/
def follow (d : Document) : Document where
  entries :=
    (d.entries ++ d.links.flatMap fun l => d.entries.filterMap fun e => e.along? l).eraseDups
  links :=
    (d.links ++ d.links.flatMap fun l => d.links.filterMap fun m => m.along? l).eraseDups

/-- Follows links until nothing new is found, at most `fuel` times. -/
def close? : (fuel : Nat) → Document → Option Document
  | 0, _ => none
  | fuel + 1, d =>
    if d.links.any Link.isCircular then none
    else
      let next := d.follow
      if next.entries.length = d.entries.eraseDups.length
          ∧ next.links.length = d.links.eraseDups.length then some next
      else close? fuel next

/-- The document with all its links followed.  Each time one more link of a chain is followed, so
chains that end are followed in fewer rounds than there are links. -/
def closed? (d : Document) : Option Document :=
  close? (d.links.length + 2) d

/-- The document with more entries. -/
def withEntries (d : Document) (entries : List Entry) : Document :=
  { d with entries := entries ++ d.entries }

/-- Whether all that is written at the same place agrees. -/
def isConsistent (d : Document) : Bool :=
  d.entries.all fun a => d.entries.all fun b => a.path != b.path || a.leaf.agrees b.leaf

/-- Whether a value is written at a place. -/
def hasValue (d : Document) (path : Path) : Bool :=
  d.entries.any fun e => e.path == path && e.leaf.isConcrete

/-- Whether a place belongs to the data. -/
def isVisible (path : Path) : Bool :=
  !path.any Label.isHidden

/-- Whether each place of the data that is written at all has a value. -/
def isConcrete (d : Document) : Bool :=
  (d.entries.map Entry.path ++ d.links.map Link.path).all fun path =>
    !isVisible path || d.hasValue path

/-- The values of the data. -/
def values (d : Document) : List Entry :=
  d.entries.filter fun e => isVisible e.path && e.leaf.isConcrete

end Document

end BlockFlow
