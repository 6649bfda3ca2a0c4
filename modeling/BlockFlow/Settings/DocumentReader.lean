import BlockFlow.Settings.Document
import BlockFlow.Settings.DocumentToken

/-!
# Reading settings documents

A document is a list of fields, a label and a value each.  A value is a number, a text, a flag,
null, a list in brackets, a record in braces, or another field: `inputs: n: 5` is short for
`inputs: {n: 5}`.  A value may also stand in a record without a label, which then holds what the
value holds.

A word in the place of a value is the name of a field in the same record, or else in the next record
around it that has such a field.  Only fields whose label is not quoted can be named.

Tokens are taken one after the other (`DocumentReader.step`).  Whether a word or a text is a label
is known when the next token is seen.  Which field a word names is known only at the end of the
document.
-/

namespace BlockFlow

/-! ### The reader -/

/-- A record as it is written. -/
structure Scope where
  /-- Its number among all records. -/
  id : Nat
  /-- The place it is written at. -/
  place : Path
deriving DecidableEq, Repr, Inhabited

/-- A word or a text that may be a label or a value. -/
inductive Operand where
  | word (name : String)
  | text (value : String)
deriving DecidableEq, Repr, Inhabited

namespace Operand

/-- The label that an operand stands for. -/
def label? : Operand → Option Label
  | word name => Label.ofWord? name
  | text value => some (.field value)

end Operand

/-- Where a value stands. -/
inductive Standing where
  /-- In a record, without a label. -/
  | embedded
  /-- Behind a label. -/
  | labelled
  /-- In a list. -/
  | listed
deriving DecidableEq, Repr, Inhabited

/-- What a reader expects next. -/
inductive DocumentState where
  /-- A field or an embedded value, or the end of the record. -/
  | declaration
  /-- The value at a place, given the records around it, the innermost first. -/
  | value (place : Path) (scopes : List Scope)
  /-- An item, or the end of the list. -/
  | item
  /-- What shows whether an operand is a label. -/
  | operand (standing : Standing) (place : Path) (scopes : List Scope) (operand : Operand)
  /-- The number behind signs that make it negative or not. -/
  | signed (place : Path) (isNegative : Bool)
  /-- The end of a field or an item. -/
  | separator
deriving DecidableEq, Repr, Inhabited

/-- A record or list that is open. -/
inductive OpenValue where
  /-- A record, given with the records around it, and whether a value is embedded in it. -/
  | record (scope : Scope) (around : List Scope) (hasEmbedded : Bool)
  /-- A list at a place with the records around it, and how many items are finished or begun. -/
  | list (place : Path) (around : List Scope) (count : Nat)
deriving DecidableEq, Repr, Inhabited

/-- A name in the place of a value. -/
structure Mention where
  /-- The place. -/
  path : Path
  /-- The name. -/
  name : String
  /-- The records around the place, the innermost first. -/
  scopes : List Scope
deriving DecidableEq, Repr, Inhabited

/-- Reads the tokens of a document. -/
structure DocumentReader where
  /-- What is expected next. -/
  state : DocumentState := .declaration
  /-- The open records and lists, the innermost first. -/
  opened : List OpenValue := [.record ⟨0, []⟩ [] false]
  /-- The number of the next record. -/
  nextId : Nat := 1
  /-- The labels without quotes, each with the number of its record. -/
  labels : List (Nat × Label) := []
  /-- The entries read. -/
  entries : List Entry := []
  /-- The names read in the place of values. -/
  mentions : List Mention := []
deriving DecidableEq, Repr, Inhabited

namespace DocumentReader

/-! ### Parts of a step -/

/-- The reader with one more entry. -/
def write (r : DocumentReader) (place : Path) (leaf : Leaf) : DocumentReader :=
  { r with entries := ⟨place, leaf⟩ :: r.entries }

/-- The reader behind a value. -/
def behind (r : DocumentReader) : DocumentReader :=
  { r with state := .separator }

/-- Notes that the open record has a value embedded in it. -/
def embed (r : DocumentReader) : DocumentReader :=
  match r.opened with
  | .record scope around _ :: rest => { r with opened := .record scope around true :: rest }
  | _ => r

/-- Writes the value that an operand stands for. -/
def writeOperand (r : DocumentReader) (place : Path) (scopes : List Scope) :
    Operand → DocumentReader
  | .text value => r.write place (.text value)
  | .word "true" => r.write place (.flag true)
  | .word "false" => r.write place (.flag false)
  | .word "null" => r.write place .null
  | .word "_" => r.write place .anything
  | .word name => { r with mentions := ⟨place, name, scopes⟩ :: r.mentions }

/-- Opens a record at a place. -/
def openRecord (r : DocumentReader) (place : Path) (around : List Scope) : DocumentReader :=
  { r with
    state := .declaration
    opened := .record ⟨r.nextId, place⟩ around false :: r.opened
    nextId := r.nextId + 1 }

/-- Opens a list at a place. -/
def openList (r : DocumentReader) (place : Path) (around : List Scope) : DocumentReader :=
  { r with state := .item, opened := .list place around 0 :: r.opened }

/-- Closes the open record.  A record is at least that, unless it is only what is embedded in it.
The document itself is not closed by a brace. -/
def closeRecord (r : DocumentReader) : Option DocumentReader :=
  match r.opened with
  | .record scope _ hasEmbedded :: outer :: rest =>
    let r := { r with state := .separator, opened := outer :: rest }
    some (if hasEmbedded then r else r.write scope.place .record)
  | _ => none

/-- Closes the open list. -/
def closeList (r : DocumentReader) : Option DocumentReader :=
  match r.opened with
  | .list place _ count :: rest =>
    some ({ r with state := .separator, opened := rest }.write place (.list count))
  | _ => none

/-- Takes the token behind a field or an item. -/
def separate (r : DocumentReader) (token : DocumentToken) : Option DocumentReader :=
  match token, r.opened with
  | .comma, .record .. :: _ => some { r with state := .declaration }
  | .comma, .list .. :: _ => some { r with state := .item }
  | .closeBrace, _ => r.closeRecord
  | .closeBracket, _ => r.closeList
  | _, _ => none

/-- Takes the first token of a value. -/
def beginValue (r : DocumentReader) (standing : Standing) (place : Path) (scopes : List Scope)
    (token : DocumentToken) : Option DocumentReader :=
  match token with
  | .word name => some { r with state := .operand standing place scopes (.word name) }
  | .text value => some { r with state := .operand standing place scopes (.text value) }
  | .number (.whole value) => some (r.write place (.number value)).behind
  | .number (.decimal value) => some (r.write place (.decimal value)).behind
  | .minus => some { r with state := .signed place true }
  | .plus => some { r with state := .signed place false }
  | .openBrace => some (r.openRecord place scopes)
  | .openBracket => some (r.openList place scopes)
  | _ => none

/-- Whether a token can only be the first one of a value, not a label. -/
def isValueOnly : DocumentToken → Bool
  | .word _ => false
  | .text _ => false
  | _ => true

/-- Notes a label that can be named in its record. -/
def noteLabel (r : DocumentReader) (scope : Scope) (operand : Operand) (label : Label) :
    DocumentReader :=
  match operand with
  | .word _ => { r with labels := (scope.id, label) :: r.labels }
  | .text _ => r

/-- Takes an operand as the label of a field in a record, whose value is expected next. -/
def beginField (r : DocumentReader) (scope : Scope) (around : List Scope) (operand : Operand) :
    Option DocumentReader :=
  operand.label?.map fun label =>
    let r := r.noteLabel scope operand label
    let r := if label.isField then r.write scope.place .record else r
    { r with state := .value (scope.place ++ [label]) (scope :: around) }

/-! ### Steps -/

/-- Takes the token behind an operand. -/
def stepOperand (r : DocumentReader) (standing : Standing) (place : Path) (scopes : List Scope)
    (operand : Operand) (token : DocumentToken) : Option DocumentReader :=
  match standing, token, r.opened with
  | .embedded, .colon, .record scope around _ :: _ => r.beginField scope around operand
  | .labelled, .colon, _ =>
    -- A field in the place of a value is a record of its own.
    let scope : Scope := ⟨r.nextId, place⟩
    ({ r with nextId := r.nextId + 1 }.write place .record).beginField scope scopes operand
  | .listed, .colon, _ => none
  | .embedded, _, _ => (r.embed.writeOperand place scopes operand).separate token
  | _, _, _ => (r.writeOperand place scopes operand).separate token

/-- Takes the token behind signs. -/
def stepSigned (r : DocumentReader) (place : Path) (isNegative : Bool) :
    DocumentToken → Option DocumentReader
  | .number (.whole value) =>
    some (r.write place (.number (if isNegative then -(value : Int) else value))).behind
  | .number (.decimal value) =>
    some (r.write place (.decimal (if isNegative then value.negate else value))).behind
  | .minus => some { r with state := .signed place (!isNegative) }
  | .plus => some { r with state := .signed place isNegative }
  | _ => none

/-- Takes one token. -/
def step (r : DocumentReader) (token : DocumentToken) : Option DocumentReader :=
  match r.state, r.opened with
  | .declaration, .record scope around _ :: _ =>
    if token = .closeBrace then r.closeRecord
    else
      let r := if isValueOnly token then r.embed else r
      r.beginValue .embedded scope.place (scope :: around) token
  | .item, .list place around count :: rest =>
    if token = .closeBracket then r.closeList
    else
      let r := { r with opened := .list place around (count + 1) :: rest }
      r.beginValue .listed (place ++ [.item count]) around token
  | .value place scopes, _ => r.beginValue .labelled place scopes token
  | .operand standing place scopes operand, _ => r.stepOperand standing place scopes operand token
  | .signed place isNegative, _ => r.stepSigned place isNegative token
  | .separator, _ => r.separate token
  | _, _ => none

/-- Takes tokens one after the other. -/
def run (r : DocumentReader) : List DocumentToken → Option DocumentReader
  | [] => some r
  | token :: rest => (r.step token).bind fun r => r.run rest

/-! ### Names -/

/-- The place that a name stands for, if a record around it has such a field. -/
def resolve? (r : DocumentReader) (m : Mention) : Option Path := do
  let label ← Label.ofWord? m.name
  let scope ← m.scopes.find? fun scope => r.labels.contains (scope.id, label)
  some (scope.place ++ [label])

/-- Puts what a name stands for into a document: a place, or else any value of a kind. -/
def settle? (r : DocumentReader) (d : Document) (m : Mention) : Option Document :=
  match r.resolve? m, ValueKind.ofName? m.name with
  | some target, _ => some { d with links := ⟨m.path, target⟩ :: d.links }
  | none, some kind => some { d with entries := ⟨m.path, .kind kind⟩ :: d.entries }
  | none, none => none

/-- The document that was read, at the end of the tokens. -/
def document? (r : DocumentReader) : Option Document :=
  if r.state = .declaration ∧ r.opened.length = 1 then
    r.mentions.foldlM r.settle? ⟨r.entries, []⟩
  else none

end DocumentReader

namespace Document

/-- Reads a document and follows its links. -/
def parse? (text : List Char) : Option Document := do
  let tokens ← DocumentToken.ofText? text
  let r ← ({} : DocumentReader).run tokens
  (← r.document?).closed?

end Document

end BlockFlow
