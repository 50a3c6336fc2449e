import ObjectPack.NameTable
import ObjectPack.TextPool
import Std.Data.HashMap

/-!
# Catalogs

A catalog keeps entries of distinct texts in the order of their first use, together with an index
that tells the place of each text, so that no text has to be searched for.  Entries and index are
filled side by side; whoever adds an entry has to tell both.

There are two of them: a catalog of names, whose entries are the names themselves, and a catalog
of texts, which also measures each text once, when it is added, and gives it a reference.  Without
their index they are a name table and a text pool.
-/

namespace ObjectPack

/-- Entries of distinct texts, and the place of each text among them. -/
structure Catalog (α : Type) where
  entries : Array α
  places : Std.HashMap String Nat

namespace Catalog

variable {α : Type}

/-- No entries. -/
def empty : Catalog α := ⟨#[], {}⟩

/-- How many distinct texts there are. -/
def size (c : Catalog α) : Nat := c.entries.size

/-- The place of a text, if it has an entry; only the index is asked. -/
def find? (c : Catalog α) (text : String) : Option Nat := c.places[text]?

/-- The entry at a place, if there is one; only the entries are asked. -/
def get? (c : Catalog α) (place : Nat) : Option α := c.entries[place]?

/-- The entry at a place, or a fault. -/
def entry (c : Catalog α) (place : Nat) : Except Fault α := indexed (c.get? place)

/-- Puts an entry behind all others, and its place into the index. -/
def put (c : Catalog α) (text : String) (a : α) : Catalog α :=
  ⟨c.entries.push a, c.places.insert text c.entries.size⟩

end Catalog

/-! ### Names -/

/-- The distinct names seen so far. -/
abbrev NameCatalog := Catalog String

namespace NameCatalog

/-- The place of a name, and the catalog that knows it. -/
def intern (c : NameCatalog) (name : String) : Nat × NameCatalog :=
  match c.find? name with
  | some place => (place, c)
  | none => (c.size, c.put name name)

/-- Interns a name that its owner gives away.  It may then be kept as it is, where a borrowed name
has to be copied; what is known afterwards is the same. -/
def internOwned (c : NameCatalog) (name : String) : Nat × NameCatalog := c.intern name

/-- The names without the index. -/
def table (c : NameCatalog) : NameTable := ⟨c.entries.toList⟩

end NameCatalog

/-! ### Texts -/

/-- A pooled text with what has been measured of it. -/
structure MeasuredText where
  text : String
  /-- Number of characters. -/
  charCount : Nat
  /-- The checksum of the UTF-8 form. -/
  checksum : UInt32
  reference : Reference
  deriving DecidableEq, Repr

namespace MeasuredText

/-- Measures a text. -/
def measure (text : String) (reference : Reference) : MeasuredText :=
  ⟨text, text.length, Checksum.crc32 (Bytes.ofText text), reference⟩

/-- Length of the UTF-8 form; the text itself knows it. -/
def byteCount (t : MeasuredText) : Nat := t.text.utf8ByteSize

/-- The text as a pool keeps it. -/
def pooled (t : MeasuredText) : PooledText := ⟨t.text, t.reference⟩

end MeasuredText

/-- The distinct texts of a model. -/
abbrev TextCatalog := Catalog MeasuredText

namespace TextCatalog

/-- The place of a text, which takes a reference from the supply unless it is known. -/
def add (c : TextCatalog) (supply : Supply) (text : String) : Nat × TextCatalog × Supply :=
  match c.find? text with
  | some place => (place, c, supply)
  | none =>
    let (reference, supply) := supply.take
    (c.size, c.put text (.measure text reference), supply)

/-- The texts without the index. -/
def pool (c : TextCatalog) : TextPool := ⟨c.entries.toList.map (·.pooled)⟩

end TextCatalog

end ObjectPack
