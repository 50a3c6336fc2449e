import ObjectPack.Checksum
import ObjectPack.Draft
import ObjectPack.Sorting

/-!
# Pooled texts

Every distinct text of a model is kept once and has a reference of its own.  A data unit writes the
texts that it uses into one block, each followed by a zero byte and marked by its reference, in the
order of their checksums.
-/

namespace ObjectPack

/-- A pooled text. -/
structure PooledText where
  text : String
  reference : Reference
  deriving DecidableEq, Repr

namespace PooledText

/-- The UTF-8 form of the text. -/
def bytes (t : PooledText) : Bytes := Bytes.ofText t.text

/-- Length of the UTF-8 form. -/
def byteCount (t : PooledText) : Nat := t.text.utf8ByteSize

/-- Number of characters. -/
def charCount (t : PooledText) : Nat := t.text.length

/-- The checksum by which texts are ordered. -/
def checksum (t : PooledText) : UInt32 := Checksum.crc32 t.bytes

end PooledText

/-- The distinct texts in the order in which they were added. -/
structure TextPool where
  entries : List PooledText
  deriving DecidableEq, Repr

namespace TextPool

/-- No texts. -/
def empty : TextPool := ⟨[]⟩

/-- How many distinct texts there are. -/
def size (p : TextPool) : Nat := p.entries.length

/-- The index of a text, if it is in the pool. -/
def find? (p : TextPool) (text : String) : Option Nat := p.entries.findIdx? (·.text = text)

theorem not_mem_of_find? {p : TextPool} {text : String} (h : p.find? text = none) :
    text ∉ p.entries.map (·.text) := by
  intro hmem
  obtain ⟨t, ht, rfl⟩ := List.mem_map.mp hmem
  exact of_decide_eq_false (List.findIdx?_eq_none_iff.mp h t ht) rfl

/-- The entry of an index, or a fault. -/
def entry (p : TextPool) (index : Nat) : Except Fault PooledText := indexed p.entries[index]?

/-- The index of a text, which is added under a fresh reference unless it is in the pool. -/
def add (p : TextPool) (supply : Supply) (text : String) : Nat × TextPool × Supply :=
  match p.find? text with
  | some index => (index, p, supply)
  | none =>
    let (reference, supply) := supply.take
    (p.size, ⟨p.entries ++ [⟨text, reference⟩]⟩, supply)

/-- The indices in the order of the checksums of their texts, equal checksums in the order of the
indices, without repetitions.  An index on its own is not looked up. -/
def writingOrder (p : TextPool) (indices : List Nat) : Except Fault (List Nat) :=
  match indices with
  | [] => .ok []
  | [index] => .ok [index]
  -- From here on every index is looked up for its checksum.
  | _ => do
    let keys ← indices.mapM fun index => do
      let t ← p.entry index
      return (t.checksum.toNat, index)
    return Sorting.dropRepeats ((Sorting.sortBy Sorting.lexLe keys).map (·.2))

/-- Writes one text at the cursor: its mark, its bytes and a zero byte. -/
def writeEntry (p : TextPool) (d : Draft) (index : Nat) : Except Fault Draft := do
  let t ← p.entry index
  let d ← d.mark t.reference
  let d ← d.append t.bytes
  d.write (.u8 0)

/-- Writes the texts of the given indices into a block. -/
def fillBlock (p : TextPool) (d : Draft) (block : Reference) (indices : List Nat) :
    Except Fault Draft := do
  let order ← p.writingOrder indices
  let d ← d.openBlock block
  let d ← order.foldlM p.writeEntry d
  d.closeBlock

end TextPool

end ObjectPack
