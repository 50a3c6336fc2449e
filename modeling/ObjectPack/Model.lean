import ObjectPack.Model.Payload
import ObjectPack.NameTable
import ObjectPack.TextPool

/-!
# Models

A model is an object graph flattened into a table of rows.  Every field and every element is one
row.  The row of an object, of a collection or of a word of folded booleans owns a contiguous
range of rows: its fields, its elements (of a dictionary: the keys, then the values) or the
booleans.  A data unit owns the row of its root object.

A range is a start and a count; nothing but the way a model is built keeps ranges inside the
table, so whatever looks up rows of a range may meet a fault.
-/

namespace ObjectPack

/-- One row of a model. -/
structure Row where
  kind : Kind
  name : String
  typeName : Option String
  /-- Where the rows that this row owns begin; for a text, its index in the text pool. -/
  start : Option Nat
  count : Nat
  value : Payload
  deriving DecidableEq, Repr

/-- A contiguous range of row indices. -/
structure Span where
  start : Nat
  length : Nat
  deriving DecidableEq, Repr

namespace Span

/-- The range without indices. -/
def empty : Span := ⟨0, 0⟩

/-- The index behind the range. -/
def stop (s : Span) : Nat := s.start + s.length

/-- Runs through `length` indices from `start` on and stops at the first fault. -/
def foldFrom {α ε : Type} (f : α → Nat → Except ε α) : Nat → Nat → α → Except ε α
  | 0, _, a => .ok a
  | length + 1, start, a =>
    match f a start with
    | .ok a => foldFrom f length (start + 1) a
    | .error e => .error e

/-- Runs through the indices of a range in order and stops at the first fault. -/
def foldM {α ε : Type} (s : Span) (f : α → Nat → Except ε α) (a : α) : Except ε α :=
  foldFrom f s.length s.start a

/-- Collects what `f` gives for the indices of a range. -/
def mapM {β ε : Type} (s : Span) (f : Nat → Except ε β) : Except ε (List β) :=
  (s.foldM (fun found i => (f i).map fun b => b :: found) []).map List.reverse

end Span

/-- An object graph as a table of rows, with the names and the texts that it uses. -/
structure Model where
  rows : Array Row
  names : NameTable
  texts : TextPool
  /-- Where the references of texts come from. -/
  supply : Supply
  deriving Repr

namespace Model

/-- The model without rows. -/
def empty : Model := ⟨#[], .empty, .empty, .full⟩

/-- How many rows there are. -/
def size (m : Model) : Nat := m.rows.size

/-- The row of an index, or a fault. -/
def row (m : Model) (i : Nat) : Except Fault Row := indexed m.rows[i]?

/-- Makes a name known. -/
def intern (m : Model) (name : String) : Model := { m with names := (m.names.intern name).2 }

/-- Appends a row; its name becomes known. -/
def add (m : Model) (kind : Kind) (name : String) (value : Payload) (start : Option Nat)
    (count : Nat) : Nat × Model :=
  let m := m.intern name
  (m.size, { m with rows := m.rows.push ⟨kind, name, none, start, count, value⟩ })

/-- Changes a row; an index without a row changes nothing. -/
def modify (m : Model) (i : Nat) (f : Row → Row) : Model := { m with rows := m.rows.modify i f }

/-- Gives a row a type name, which becomes known. -/
def setTypeName (m : Model) (i : Nat) (typeName : String) : Model :=
  (m.intern typeName).modify i ({ · with typeName := some typeName })

/-- Changes how many rows a row owns. -/
def setCount (m : Model) (i count : Nat) : Model := m.modify i ({ · with count := count })

/-- Makes a row own a range. -/
def setRange (m : Model) (i start count : Nat) : Model :=
  m.modify i ({ · with start := some start, count := count })

/-- Changes an existing row, or a fault. -/
def change (m : Model) (i : Nat) (f : Model → Model) : Except Fault Model := do
  let _ ← m.row i
  return f m

/-- Appends a copy of a row. -/
def duplicate (m : Model) (i : Nat) : Except Fault (Nat × Model) := do
  let row ← m.row i
  return (m.size, { m with rows := m.rows.push row })

/-- Exchanges two rows. -/
def swap (m : Model) (i j : Nat) : Except Fault Model := do
  let a ← m.row i
  let b ← m.row j
  return { m with rows := (m.rows.setIfInBounds i b).setIfInBounds j a }

/-! ### Rows by kind -/

/-- Adds a text to the pool. -/
def addText (m : Model) (text : String) : Nat × Model :=
  let (index, texts, supply) := m.texts.add m.supply text
  (index, { m with texts := texts, supply := supply })

/-- Appends the row of a number. -/
def addScalar (m : Model) (kind : Kind) (name : String) (value : Payload) : Nat × Model :=
  m.add kind name value none 1

/-- Appends the row of a text: it points into the text pool, and its count is the length in
bytes. -/
def addString (m : Model) (name : String) : Option String → Nat × Model
  | some text =>
    let (index, m) := m.addText text
    m.add .string name .present (some index) text.utf8ByteSize
  | none => m.add .string name .null none 0

/-- Appends a row that has a type name. -/
def addTyped (m : Model) (kind : Kind) (name typeName : String) (value : Payload) (count : Nat) :
    Nat × Model :=
  let (i, m) := m.add kind name value none count
  (i, m.setTypeName i typeName)

/-- Appends the row of an enumeration value. -/
def addEnum (m : Model) (name : String) (enumeration : Enumeration) (value : Int64) : Nat × Model :=
  m.addTyped .enum name enumeration.name (.enum enumeration value) 1

/-- Appends the row of a custom value; only an empty collection is represented by a row without
one. -/
def addStruct (m : Model) (name typeName : String) (value : Option CustomStruct) : Nat × Model :=
  m.addTyped .struct name typeName (value.elim .null .struct) 1

/-- Appends the row of an object; its fields are added later. -/
def addObject (m : Model) (name typeName : String) (present : Bool) : Nat × Model :=
  m.addTyped .object name typeName (if present then .present else .null) 0

/-- Appends the row of an array; its elements are added later. -/
def addArray (m : Model) (name : String) : Nat × Model := m.add .array name .present none 0

/-- Appends the row of a dictionary; its entries are added later. -/
def addDictionary (m : Model) (name : String) : Nat × Model :=
  m.add .dictionary name .present none 0

/-- Appends the row of a data unit. -/
def addDataUnit (m : Model) (name typeName : String) (signature : Option Digest) : Nat × Model :=
  m.addTyped .dataUnit name typeName (signature.elim .null .dataUnit) 0

/-! ### Owned rows -/

/-- Row indices are 64-bit numbers. -/
def indexLimit : Nat := 0x10000000000000000

/-- The range of `count` rows from `start` on; a fault where its end is no index. -/
def spanFrom (start count : Nat) : Except Fault Span :=
  if start + count < indexLimit then .ok ⟨start, count⟩ else .error .overflow

end Model

/-- The rows that a row owns: fields, elements, or keys followed by values. -/
def Row.members (r : Row) : Except Fault Span :=
  match r.start with
  | none => .ok .empty
  | some start =>
    match r.kind with
    | .object | .array | .bitSet | .dataUnit => Model.spanFrom start r.count
    | .dictionary => Model.spanFrom start (2 * r.count)
    | _ => .ok .empty

/-- The row of the first element of an array; of a dictionary, that of the first key and that of the
first value.  An empty collection keeps one row of each. -/
def Row.firstElements (r : Row) : Except Fault (Option Nat × Option Nat) :=
  match r.start with
  | none => .ok (none, none)
  | some start =>
    match r.kind with
    | .array => .ok (some start, none)
    | .dictionary => do
      let keys ← Model.spanFrom start (max r.count 1)
      return (some start, some keys.stop)
    | _ => .ok (none, none)

namespace Model

/-- The rows that row `i` owns. -/
def members (m : Model) (i : Nat) : Except Fault Span := do (← m.row i).members

/-- The first element, or the first key and the first value, of row `i`. -/
def firstElements (m : Model) (i : Nat) : Except Fault (Option Nat × Option Nat) := do
  (← m.row i).firstElements

/-- Whether row `i` is that of an object. -/
def isObject (m : Model) (i : Nat) : Bool := m.rows[i]?.any (·.kind = .object)

/-- The indices of all rows of objects. -/
def objects (m : Model) : List Nat := (List.range m.size).filter m.isObject

/-- Where the rows that row `i` owns begin, or a fault where it owns none. -/
def requireStart (m : Model) (i : Nat) : Except Fault Nat := do
  let row ← m.row i
  match row.start with
  | some start => return start
  | none => throw (.noSubRange i row.name row.kind)

/-- The type name of row `i`, or a fault where it has none. -/
def requireTypeName (m : Model) (i : Nat) : Except Fault String := do
  let row ← m.row i
  match row.typeName with
  | some typeName => return typeName
  | none => throw (.noTypeName i row.name row.kind)

end Model

end ObjectPack
