import ObjectPack.Digest
import Std.Data.TreeMap

/-!
# Signature registries

A registry knows where data units stand in packed files: it maps the digest of a signature to a
container and an entry in it.

Its file form is a count, followed by the entries in the order of their digests: twenty bytes,
container and entry.  Numbers are written in groups of seven bits, low groups first, and the high
bit of a byte says that another one follows.  Reading takes any order, lets a later entry replace
an earlier one, and ignores what follows the last entry.
-/

namespace ObjectPack

/-- Where a data unit stands in packed files. -/
structure Location where
  container : UInt32
  entry : UInt32
  deriving DecidableEq, Repr

namespace Location

/-- The location of a data unit that is not known. -/
def unknown : Location := ⟨0xffffffff, 0xffffffff⟩

/-- Whether this stands for a data unit that is not known. -/
def isUnknown (l : Location) : Bool := l = unknown

end Location

/-! ### Numbers in groups of seven bits -/

namespace Varint

/-- A number below `128 ^ groups` in groups of seven bits, low groups first. -/
def encode : Nat → Nat → Bytes
  | 0, _ => []
  | groups + 1, n =>
    if n < 128 then [UInt8.ofNat n] else UInt8.ofNat (n % 128 + 128) :: encode groups (n / 128)

/-- Why no number can be read. -/
inductive ReadError where
  /-- The bytes end inside the number. -/
  | unexpectedEnd
  /-- The number has too many groups, or its last group too many bits. -/
  | tooLarge
  deriving DecidableEq, Repr

/-- Reads a number of at most `groups` groups, the last of which is at most `top`; the result also
holds the bytes behind it. -/
def decode (top : Nat) : Nat → Bytes → Except ReadError (Nat × Bytes)
  | 0, _ => .error .tooLarge
  | _ + 1, [] => .error .unexpectedEnd
  | groups + 1, b :: rest =>
    if b.toNat < 128 then
      -- In the last group only some bits are left to the number.
      if groups = 0 ∧ top < b.toNat then .error .tooLarge else .ok (b.toNat, rest)
    else do
      let (high, rest) ← decode top groups rest
      return (b.toNat - 128 + 128 * high, rest)

/-- The form of a 32-bit number, at most five groups. -/
def encode32 (n : UInt32) : Bytes := encode 5 n.toNat

/-- The form of a 64-bit number, at most ten groups. -/
def encode64 (n : Nat) : Bytes := encode 10 n

/-- Reads a 32-bit number. -/
def decode32 (b : Bytes) : Except ReadError (UInt32 × Bytes) := do
  let (n, rest) ← decode 0x0f 5 b
  return (UInt32.ofNat n, rest)

/-- Reads a 64-bit number. -/
def decode64 (b : Bytes) : Except ReadError (Nat × Bytes) := decode 1 10 b

end Varint

/-- Which data units are known, and where they stand. -/
structure Registry where
  entries : Std.TreeMap Digest Location

namespace Registry

/-- No data units. -/
def empty : Registry := ⟨{}⟩

/-- How many data units are known. -/
def size (r : Registry) : Nat := r.entries.size

/-- The location of a data unit, if it is known. -/
def find? (r : Registry) (signature : Digest) : Option Location := r.entries[signature]?

/-- The location of a data unit, or the one that stands for none. -/
def locate (r : Registry) (signature : Digest) : Location := (r.find? signature).getD .unknown

/-- Makes a data unit known; also tells the location that is replaced. -/
def register (r : Registry) (signature : Digest) (location : Location) :
    Option Location × Registry :=
  (r.find? signature, ⟨r.entries.insert signature location⟩)

/-- Forgets all data units of a container; also tells how many there were. -/
def removeContainer (r : Registry) (container : UInt32) : Nat × Registry :=
  let kept : Registry := ⟨r.entries.filter fun _ location => location.container ≠ container⟩
  (r.size - kept.size, kept)

/-- The entries in the order of their digests. -/
def toList (r : Registry) : List (Digest × Location) := r.entries.toList

/-- The registry of some entries, of which later ones replace earlier ones. -/
def ofList (entries : List (Digest × Location)) : Registry :=
  entries.foldl (fun r (signature, location) => (r.register signature location).2) .empty

/-- Whether two registries know the same data units at the same locations. -/
instance : BEq Registry where
  beq a b := a.toList == b.toList

/-! ### File form -/

/-- Why a registry cannot be read. -/
inductive LoadError where
  /-- The bytes are no registry. -/
  | decode (reason : Varint.ReadError)
  /-- There is no such file. -/
  | notFound
  deriving DecidableEq, Repr

/-- The explanation of an error. -/
def LoadError.message : LoadError → String
  | .decode _ => "failed to decode signature database"
  | .notFound => "signature database i/o failed"

/-- The bytes of one entry. -/
def entryBytes (signature : Digest) (location : Location) : Bytes :=
  signature.toBytes ++ Varint.encode32 location.container ++ Varint.encode32 location.entry

/-- The bytes of a registry. -/
def toBytes (r : Registry) : Bytes :=
  Varint.encode64 r.size ++
    r.toList.flatMap fun (signature, location) => entryBytes signature location

/-- Reads one entry; the result also holds the bytes behind it. -/
def readEntry (b : Bytes) : Except Varint.ReadError ((Digest × Location) × Bytes) := do
  match Digest.ofBytes? (b.take Digest.byteSize) with
  | none => throw .unexpectedEnd
  | some signature =>
    let (container, rest) ← Varint.decode32 (b.drop Digest.byteSize)
    let (entry, rest) ← Varint.decode32 rest
    return ((signature, ⟨container, entry⟩), rest)

/-- Reads `count` entries and stops at the first that cannot be read. -/
def readEntries : Nat → Bytes → Registry → Except Varint.ReadError Registry
  | 0, _, r => .ok r
  | count + 1, b, r =>
    match readEntry b with
    | .ok ((signature, location), rest) =>
      readEntries count rest (r.register signature location).2
    | .error e => .error e

/-- Reads a registry. -/
def ofBytes (b : Bytes) : Except LoadError Registry :=
  let read : Except Varint.ReadError Registry := do
    let (count, rest) ← Varint.decode64 b
    readEntries count rest .empty
  read.mapError .decode

/-- Reads a registry from the content of a file, if there is one. -/
def load : Option Bytes → Except LoadError Registry
  | some b => ofBytes b
  | none => .error .notFound

end Registry

end ObjectPack
