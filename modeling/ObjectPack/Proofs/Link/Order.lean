import ObjectPack.Proofs.Draft.Transcript
import ObjectPack.Proofs.Link.Unit

/-!
# The order in which blocks are filled

Two scripts do the same work (`Transcript.SameWork`) if they register the same, set the same roots and put
the same into every block, whatever the order is in which they open and close blocks and data units.  Their
buffers differ, and with them the places of the bodies; but the drafts hold the same, block by block
(`Transcript.Tells.contents_eq`), and linking sees nothing else.  So both drafts are linked to the same
container, or fail alike (`Draft.link_of_sameWork`).
-/

namespace ObjectPack

open Outcome

namespace Transcript

/-- Whether two scripts do the same, up to the order in which blocks are filled. -/
structure SameWork (t t' : Transcript) : Prop where
  encoding : t'.encoding = t.encoding
  registrations : t'.registrations = t.registrations
  /-- The last root of a data unit counts. -/
  roots : ∀ unit, t'.roots.lookup unit = t.roots.lookup unit
  unit : t'.unit = t.unit
  opened : t'.opened = t.opened
  closed : t'.closed.Perm t.closed

variable {t t' : Transcript} {d d' : Draft} {platform : Platform} {supply : Supply}

theorem SameWork.chapters (h : SameWork t t') : t'.chapters.Perm t.chapters := by
  unfold Transcript.chapters
  rw [h.opened]
  exact h.closed.append_left _

/-- Drafts of the same registrations differ in roots and contents only. -/
theorem Tells.bare_eq (h : t.Tells platform supply d) (h' : t'.Tells platform supply d')
    (same : SameWork t t') : d'.bare = d.bare := by
  have hbare := h'.bare
  rw [same.registrations, h.bare] at hbare
  exact (Option.some.inj hbare).symm

theorem Tells.endian_eq (h : t.Tells platform supply d) (h' : t'.Tells platform supply d')
    (same : SameWork t t') : d'.endian = d.endian :=
  congrArg (·.platform.endian) (h.bare_eq h' same)

/-- Where the same data units have been registered and the same roots set the data units are the same. -/
theorem Tells.units_eq (h : t.Tells platform supply d) (h' : t'.Tells platform supply d')
    (bare : d'.bare = d.bare) (roots : ∀ unit, t'.roots.lookup unit = t.roots.lookup unit) :
    d'.units = d.units := by
  have hunits := congrArg Draft.units bare
  refine List.ext_getElem? fun i => ?_
  have hunit := congrArg (·[i]?) hunits
  simp only [Draft.bare, List.getElem?_map] at hunit
  cases hu : d.units[i]? with
  | none =>
    rw [hu, Option.map_none, Option.map_eq_none_iff] at hunit
    exact hunit
  | some u =>
    rw [hu] at hunit
    obtain ⟨u', hu', hsignature⟩ := Option.map_eq_some_iff.mp hunit
    have hroot := h'.roots i u' hu'
    rw [roots, ← h.roots i u hu] at hroot
    obtain ⟨signature, root⟩ := u
    obtain ⟨signature', root'⟩ := u'
    cases hsignature
    cases hroot
    exact hu'

/-- Drafts of the same work hold the same. -/
theorem Tells.contents_eq (h : t.Tells platform supply d) (h' : t'.Tells platform supply d')
    (valid : d.Valid) (valid' : d'.Valid) (same : SameWork t t') : d'.contents = d.contents := by
  have hregistered : d'.registered = d.registered := congrArg Draft.blocks (h.bare_eq h' same)
  rw [h'.contents valid' (.refl _), h.contents valid same.chapters, hregistered, h.endian_eq h' same]

/-- The open block is the one that the transcript leaves open. -/
theorem Tells.active_reference (h : t.Tells platform supply d) :
    d.active?.map (·.2.1.reference) = t.opened.map (·.block) := by
  cases hopened : t.opened with
  | none =>
    rw [Draft.active?_of_no_current (h.idle hopened)]
    rfl
  | some chapter =>
    obtain ⟨index, block, body, hcurrent, hstands⟩ := h.opened chapter hopened
    rw [hstands.active hcurrent]
    exact congrArg some hstands.reference

end Transcript

namespace Draft

variable {d d' : Draft}

/-- The first block that has not been opened, as linking reports it. -/
theorem find_unopened (d : Draft) : (d.blocks.find? (·.body.isNone)).map (·.reference)
    = (d.contents.find? (·.2.isNone)).map (·.1.reference) := by
  unfold contents
  rw [List.find?_map, Option.map_map]
  have hsame : ((fun c : Block × Option (Nat × Filling) => c.2.isNone) ∘
      fun block : Block => (block.registered, block.body.map fun body => (body.unit, d.filling body)))
        = fun block => block.body.isNone := funext fun block => Option.isNone_map ..
  rw [hsame]
  rfl

/-- What is asked of a finished draft: the open block, the open data unit and the first block that has not
been opened. -/
def refuseUnfinished : Option Reference → Option Nat → Option Reference → Except Fault Unit
  | some block, _, _ => .error (.blockStillOpen block)
  | none, some unit, _ => .error (.unitStillOpen unit)
  | none, none, some block => .error (.neverWritten block)
  | none, none, none => .ok ()

theorem requireFinished_eq (d : Draft) : d.requireFinished =
    refuseUnfinished (d.active?.map (·.2.1.reference)) d.currentUnit
      ((d.contents.find? (·.2.isNone)).map (·.1.reference)) := by
  rw [← find_unopened]
  unfold requireFinished requireNoBlock
  cases d.active? with
  | some found => rfl
  | none =>
    cases d.currentUnit with
    | some unit => rfl
    | none => cases d.blocks.find? (·.body.isNone) <;> rfl

/-- Linking sees nothing of a draft but what stands in its blocks. -/
theorem link_congr (finished : d'.requireFinished = d.requireFinished) (endian : d'.endian = d.endian)
    (encoding : d'.encoding = d.encoding) (units : d'.units = d.units) (contents : d'.contents = d.contents) :
    d'.link = d.link := by
  have hjoin : ∀ images, d'.joinUnits images = d.joinUnits images := fun images => by
    unfold joinUnits
    rw [endian, encoding, units]
  unfold link
  simp only [finished, endian, units, hjoin, sections_eq, contents]

/-- Scripts that do the same work lead to the same container, or fail alike. -/
theorem link_of_sameWork {platform : Platform} {encoding : PointerEncoding} {supply : Supply}
    {ops ops' : List Operation} (run : Run (blank platform encoding supply) ops d)
    (run' : Run (blank platform encoding supply) ops' d')
    (same : Transcript.SameWork (.of encoding ops) (.of encoding ops')) : d'.link = d.link := by
  have htells := Transcript.tells_of_run run
  have htells' := Transcript.tells_of_run run'
  have hvalid := (blank_valid platform encoding supply).moves run.moves
  have hvalid' := (blank_valid platform encoding supply).moves run'.moves
  have hcontents := htells.contents_eq htells' hvalid hvalid' same
  have hactive : d'.active?.map (·.2.1.reference) = d.active?.map (·.2.1.reference) := by
    rw [htells'.active_reference, htells.active_reference, same.opened]
  have hunit : d'.currentUnit = d.currentUnit := by rw [htells'.unit, htells.unit, same.unit]
  have hencoding : d'.encoding = d.encoding := by rw [htells'.encoding, htells.encoding, same.encoding]
  have hfinished : d'.requireFinished = d.requireFinished := by
    rw [requireFinished_eq, requireFinished_eq, hactive, hunit, hcontents]
  exact link_congr hfinished (htells.endian_eq htells' same) hencoding
    (htells.units_eq htells' (htells.bare_eq htells' same) same.roots) hcontents

/-- Two data units, two blocks for the first one, one for the second, and a reference that is marked. -/
def crossedRegistrations : List Operation :=
  [.registerUnit .empty, .registerUnit ⟨1⟩, .newBlock 4 none, .newBlock 8 none, .newBlock 16 none,
    .takeReference]

/-- Fills the blocks in the order of their registration. -/
def forwardOperations : List Operation :=
  crossedRegistrations ++
    [.openUnit 0, .openBlock ⟨1⟩, .write (.scalar (.u32 7)), .mark ⟨4⟩, .closeBlock,
      .openBlock ⟨2⟩, .write (.scalar (.u8 1)), .writeReference ⟨1⟩, .writeReference ⟨4⟩, .closeBlock,
      .setRoot ⟨2⟩, .closeUnit,
      .openUnit 1, .openBlock ⟨3⟩, .write (.scalar (.u8 5)), .closeBlock, .closeUnit]

/-- Fills the same blocks in the opposite order, and closes the first data unit in between. -/
def backwardOperations : List Operation :=
  crossedRegistrations ++
    [.openUnit 1, .openBlock ⟨3⟩, .write (.scalar (.u8 5)), .closeBlock, .closeUnit,
      .openUnit 0, .openBlock ⟨2⟩, .write (.scalar (.u8 1)), .writeReference ⟨1⟩, .writeReference ⟨4⟩,
      .closeBlock, .closeUnit,
      .openUnit 0, .setRoot ⟨2⟩, .openBlock ⟨1⟩, .write (.scalar (.u32 7)), .mark ⟨4⟩, .closeBlock, .closeUnit]

/-- Both scripts lead to one container, although their buffers differ. -/
theorem link_of_sameWork_crossed : ∃ d d' packed,
    (blank .win64 .chained .full).after? forwardOperations = some d ∧
    (blank .win64 .chained .full).after? backwardOperations = some d' ∧
    d'.buffer ≠ d.buffer ∧ d.link = .ok packed ∧ d'.link = .ok packed := by
  have hcheck : ((blank .win64 .chained .full).after? forwardOperations).any (fun d =>
      ((blank .win64 .chained .full).after? backwardOperations).any (fun d' =>
        d'.buffer ≠ d.buffer && d.link.toOption.isSome)) = true := by decide +kernel
  simp only [Option.any_eq_true, Bool.and_eq_true, decide_eq_true_eq, Option.isSome_iff_exists,
    toOption_eq_some] at hcheck
  obtain ⟨d, hd, d', hd', hbuffers, packed, hpacked⟩ := hcheck
  have hsame : Transcript.SameWork (.of .chained forwardOperations) (.of .chained backwardOperations) :=
    { encoding := rfl
      registrations := rfl
      roots := fun _ => rfl
      unit := rfl
      opened := rfl
      closed := by decide +kernel }
  exact ⟨d, d', packed, hd, hd', hbuffers, hpacked,
    (link_of_sameWork (run_of_after? hd) (run_of_after? hd') hsame).trans hpacked⟩

end Draft

end ObjectPack
