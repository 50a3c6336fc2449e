import ObjectPack.Digest.Sha1
import ObjectPack.Draft
import ObjectPack.Sorting

/-!
# Sections

A section is a finished block seen for itself: its content cut out of the buffer together with its
sites and marks.  Linking works on sections.  Two sections are the same as far as a container can
show when their digests agree: the digest covers the content, the alignment and, if there are any,
the sites and the marks in the order of their offsets.

Sections of one data unit with equal digests are merged into the first of them.  A merge changes
what other sections refer to and can thereby make them equal too, so passes are repeated until one
merges nothing.  Every other pass takes at least one section away: as many passes as there are
sections are enough.
-/

namespace ObjectPack

/-- A finished block with its content. -/
structure Section where
  reference : Reference
  alignment : Nat
  content : Bytes
  /-- The sites, in the order of their offsets. -/
  sites : List Site
  marks : List Mark
  deriving DecidableEq, Repr

/-- What a draft still refers to a merged block by, and the block that stands in for it. -/
abbrev Aliases := List (Reference × Reference)

namespace Aliases

/-- The reference that stands in for `reference`; itself where nothing does. -/
def resolve (a : Aliases) (reference : Reference) : Reference := (a.lookup reference).getD reference

/-- First the one replacement, then the other. -/
def compose (a b : Aliases) : Aliases := a.map (fun (old, new) => (old, b.resolve new)) ++ b

end Aliases

namespace Section

/-- Stands between the alignment and the sites of a section that has any sites or marks. -/
def linkMarker : Nat := 0xdeadbeefcafebabe

/-- A word of the digest's input. -/
def word (n : Nat) : Bytes := Endian.little.encode 4 n

/-- What the digest covers of a site. -/
def siteBytes (s : Site) : Bytes := word s.target.id ++ word s.offset ++ [s.encoding.marker]

/-- What the digest covers of a mark. -/
def markBytes (m : Mark) : Bytes := word m.reference.id ++ word m.offset

/-- The marks in the order of their offsets, at one offset in the order of their references. -/
def sortedMarks (s : Section) : List Mark :=
  Sorting.sortBy
    (fun a b => Sorting.lexLe (a.offset, a.reference.id) (b.offset, b.reference.id)) s.marks

/-- What the digest covers of sites and marks. -/
def linkBytes (s : Section) : Bytes :=
  if s.sites.isEmpty && s.marks.isEmpty then []
  else Endian.little.encode 8 linkMarker ++ s.sites.flatMap siteBytes
    ++ s.sortedMarks.flatMap markBytes

/-- The byte string that stands for a section in comparisons. -/
def digestInput (s : Section) : Bytes := s.content ++ word s.alignment ++ s.linkBytes

/-- The digest by which sections are compared. -/
def digest (s : Section) : Digest := Digest.compute s.digestInput

/-- The slot of a site that is not yet linked: the number of its reference. -/
def placeholder (e : Endian) (reference : Reference) : Bytes :=
  (Scalar.i64 (Int64.ofNat reference.id)).encode e

/-- Makes the sites that refer to a merged block refer to the block that stands in for it, in the
list of sites and in the content. -/
def retarget (s : Section) (e : Endian) (merged : Aliases) : Section :=
  -- Only the sites that change are written again.
  let moved := s.sites.filter fun site => merged.resolve site.target ≠ site.target
  { s with
    sites := s.sites.map fun site => { site with target := merged.resolve site.target }
    content := moved.foldl
      (fun content site =>
        content.overwrite site.offset (placeholder e (merged.resolve site.target)))
      s.content }

end Section

/-- The section of a block that has been opened. -/
def Block.section? (block : Block) (buffer : Bytes) : Option Section :=
  block.body.map fun body =>
    ⟨block.reference, block.alignment, (buffer.drop body.start).take body.size, body.sites,
      body.marks⟩

/-- The sections of a data unit in the order of their registration. -/
def Draft.sections (d : Draft) (unit : Nat) : List Section :=
  d.blocks.filterMap fun block =>
    match block.body with
    | some body => if body.unit = unit then block.section? d.buffer else none
    | none => none

end ObjectPack

/-! ### Merging -/

namespace ObjectPack.Section

/-- Splits sections into those whose digest is new and those that repeat an earlier one, each of the
latter with the reference of the section that it repeats.  `seen` holds the digests met so far. -/
def split : List (Digest × Reference) → List Section → List Section × Aliases
  | _, [] => ([], [])
  | seen, s :: rest =>
    let digest := s.digest
    match seen.lookup digest with
    | some first =>
      let (kept, merged) := split seen rest
      (kept, (s.reference, first) :: merged)
    | none =>
      let (kept, merged) := split ((digest, s.reference) :: seen) rest
      (s :: kept, merged)

/-- Repeats merging passes, at most `passes` of them; `aliases` are the merges so far. -/
def mergePasses (e : Endian) : Nat → List Section → Aliases → List Section × Aliases
  | 0, sections, aliases => (sections, aliases)
  | passes + 1, sections, aliases =>
    match split [] sections with
    | (_, []) => (sections, aliases)
    | (kept, merged) =>
      mergePasses e passes (kept.map (·.retarget e merged)) (aliases.compose merged)

/-- Merges until no two sections have the same digest. -/
def merge (e : Endian) (sections : List Section) : List Section × Aliases :=
  mergePasses e sections.length sections []

end ObjectPack.Section
