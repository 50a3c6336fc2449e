import ObjectPack.Interface.Source
import ObjectPack.Proofs.Compile
import ObjectPack.Proofs.Link.Script
import ObjectPack.Proofs.Model.Shift
import ObjectPack.Proofs.Packing.Mirror
import ObjectPack.Proofs.Walk.Shift

/-!
# References never show

Where the references of a draft come from makes no difference to what it is linked to: neither for
drafts that are written by hand, with any script of operations on a draft and on pools of texts, nor for
those that data units are packed into (`supply_never_shows`).  So whatever has taken references before, a
data unit is compiled to the same container and the same interface.

Nothing else is said about a supply than how many references have been taken from it.  The later of two
supplies is the earlier one shifted by what has been taken in between, and a run that succeeds from the
earlier one is followed by the shifted run from the later one.

An interface is written from the rows of a model, so that of a shifted model is the same text
(`Model.interface_shift`).

A shifted model mirrors the model, every row being where it was.  So packing it into a shifted draft does the
same step by step (`Packing.packFrom_shifted`).
-/

/-! ### Interfaces -/

namespace ObjectPack.Model

open Outcome Interface

theorem fieldType_shift (t : Nat) (m : Model) : (m.shift t).fieldType = m.fieldType := by
  have hwithin : ∀ depth i, (m.shift t).fieldTypeWithin depth i = m.fieldTypeWithin depth i := by
    intro depth
    induction depth with
    | zero => exact fun i => rfl
    | succ depth ih =>
      intro i
      unfold fieldTypeWithin
      simp only [ih]
      rfl
  exact funext fun i => hwithin _ i

theorem getters_shift (t : Nat) (m : Model) : (m.shift t).getters = m.getters := by
  funext i
  unfold getters
  rw [fieldType_shift]
  rfl

theorem structDeclaration_shift (t : Nat) (m : Model) :
    (m.shift t).structDeclaration = m.structDeclaration := by
  funext name i
  unfold structDeclaration
  rw [fieldType_shift, getters_shift]
  rfl

theorem rowDependencies_shift (t : Nat) (m : Model) (forward : Bool) :
    (m.shift t).rowDependencies forward = m.rowDependencies forward := by
  funext depth
  induction depth with
  | zero => exact funext fun i => rfl
  | succ depth ih =>
    funext i
    unfold rowDependencies
    rw [ih]
    rfl

theorem dependencies_shift (t : Nat) (m : Model) (forward : Bool) :
    (m.shift t).dependencies forward = m.dependencies forward := by
  funext d
  cases d with
  | custom c => rfl
  | object row =>
    unfold dependencies
    rw [rowDependencies_shift]
    rfl

theorem orderedDefinitions_shift (t : Nat) (m : Model) (forward : Bool) (ds : Definitions) :
    (m.shift t).orderedDefinitions forward ds = m.orderedDefinitions forward ds := by
  unfold orderedDefinitions
  rw [dependencies_shift]

/-- The interface of a model does not show its references. -/
theorem interface_shift (t : Nat) (m : Model) (style : Style) :
    (m.shift t).interface style = m.interface style := by
  have htext : definitionText (m.shift t) = definitionText m := by
    funext ds name
    unfold definitionText
    rw [structDeclaration_shift]
  have hdefinitions : (m.shift t).definitions = m.definitions := rfl
  have hforward : (m.shift t).forwardNames = m.forwardNames := rfl
  unfold interface
  rw [hdefinitions, hforward, htext]
  simp only [orderedDefinitions_shift]
  rfl

end ObjectPack.Model

/-! ### Packing -/

namespace ObjectPack

open Outcome

variable {t : Nat} {m : Model} {registry : Registry} {d d' : Draft}

/-- Rows and texts correspond to themselves. -/
def Matching.shift (t : Nat) : Matching := ⟨.shift t, t, Eq, Eq, Eq⟩

theorem Model.shift_mirrors (t : Nat) (m : Model) : m.Mirrors (.shift t) (m.shift t) where
  row := by
    rintro i _ rfl
    exact Follows.rfl.mono fun r _ hsame => hsame ▸ ⟨rfl, rfl, rfl⟩
  slot := id
  block same _ _ := same
  members := by
    rintro i _ r r' rfl hrow hrow'
    obtain rfl := Except.ok.inj (hrow.symm.trans hrow')
    exact Follows.rfl.mono fun s _ hsame => hsame ▸ ⟨rfl, fun _ _ => rfl⟩
  elements := by
    rintro i _ r r' rfl hrow hrow'
    obtain rfl := Except.ok.inj (hrow.symm.trans hrow')
    have hsame : ∀ x : Option Nat, Option.Rel Eq x x := fun x => by cases x <;> constructor; rfl
    exact Follows.rfl.mono fun e _ heq => heq ▸ ⟨hsame e.1, hsame e.2⟩
  text := by
    rintro i _ r r' rfl hrow hrow' - - index hindex
    obtain rfl := Except.ok.inj (hrow.symm.trans hrow')
    exact ⟨index, hindex, rfl⟩
  root := by
    rintro i _ r r' s rfl hrow hrow' - root hroot
    obtain rfl := Except.ok.inj (hrow.symm.trans hrow')
    exact ⟨root, hroot, rfl⟩
  entry := by
    rintro index _ rfl
    exact m.texts.entry_follows _ index
  order := by
    intro l l' hpairs
    obtain rfl : l = l' := List.forall₂_eq_eq_eq ▸ hpairs
    show Follows _ _ ((m.texts.rename _).writingOrder l)
    rw [TextPool.writingOrder_rename]
    exact Follows.rfl.mono fun order _ hsame => hsame ▸ List.forall₂_same.mpr fun _ _ => rfl

/-- Both models have as many rows. -/
theorem Model.shift_roundsSuffice (t : Nat) (registry : Registry) (m : Model) (d d' : Draft) :
    m.RoundsSuffice (.shift t) registry (m.shift t) d d' :=
  ⟨fun _ => id, fun _ _ _ _ _ packed _ => packed⟩

/-- Packing a shifted model into a shifted draft gives a shifted draft. -/
theorem Packing.packFrom_shifted (h : d.Shifted t d') (i : Nat) :
    Follows (Draft.Shifted t) (packFrom m registry d i) (packFrom (m.shift t) registry d' i) :=
  packFrom_mirrors (m.shift_mirrors t) (m.shift_roundsSuffice t registry d d') h rfl

end ObjectPack

/-! ### Compiling -/

namespace ObjectPack

open Outcome Packing

namespace Options

variable {o : Options} {classifier : Classifier} {registry : Registry} {unit : DataUnit} {s : Supply}
  {t root : Nat} {m m' : Model} {d : Draft}

/-- Flattens a data unit and solves the layout; its texts take their references from a supply. -/
def solvedModelFrom (o : Options) (classifier : Classifier) (s : Supply) (unit : DataUnit) :
    Except (Failure CompileError) (Nat × Model) := do
  let (root, m) ← ((o.rules classifier).walk (.blank s) unit).mapError fun e => .error (.walk e)
  let (m, _) ← m.solve
  return (root, m)

/-- Compiles a data unit with references from a supply. -/
def compileFrom (o : Options) (classifier : Classifier) (registry : Registry) (s : Supply)
    (unit : DataUnit) : Except (Failure CompileError) CompiledUnit := do
  let (root, m) ← o.solvedModelFrom classifier s unit
  let data ← o.pack registry m root
  let code ← o.interface m
  return ⟨data, code⟩

/-- Compiling takes references from the full supply. -/
theorem compileFrom_full (o : Options) (classifier : Classifier) (registry : Registry)
    (unit : DataUnit) : o.compileFrom classifier registry .full unit = o.compile classifier registry unit :=
  rfl

/-- Whether in the draft that a data unit is packed into equal digests mean equal sections. -/
def DigestsSufficeFrom (o : Options) (classifier : Classifier) (registry : Registry) (s : Supply)
    (unit : DataUnit) : Prop :=
  ∀ root m d, o.solvedModelFrom classifier s unit = .ok (root, m) →
    packFrom m registry (.blank o.platform o.encoding m.supply) root = .ok d → d.DigestsSuffice

/-- There is one draft at most. -/
theorem digestsSufficeFrom_of_packed (solved : o.solvedModelFrom classifier s unit = .ok (root, m))
    (packed : packFrom m registry (.blank o.platform o.encoding m.supply) root = .ok d)
    (suffice : d.DigestsSuffice) : o.DigestsSufficeFrom classifier registry s unit := by
  intro root' m' d' hsolved hpacked
  obtain ⟨rfl, rfl⟩ := Prod.mk.inj (Except.ok.inj (solved.symm.trans hsolved))
  obtain rfl := Except.ok.inj (packed.symm.trans hpacked)
  exact suffice

/-- From a later supply the shifted model is solved. -/
theorem solvedModelFrom_shifted {n : Nat} (positive : 0 < n) :
    Follows (fun x x' => x'.1 = x.1 ∧ x.2.Shifted t x'.2) (o.solvedModelFrom classifier ⟨n⟩ unit)
      (o.solvedModelFrom classifier ⟨n + t⟩ unit) := by
  have hblank : (Model.blank ⟨n⟩).Shifted t (.blank ⟨n + t⟩) := ⟨rfl, positive⟩
  refine ((Walk.Rules.walk_shifted hblank _ unit).there.mapError _ _).bind ?_
  rintro ⟨root, m⟩ ⟨_, m'⟩ ⟨rfl, h⟩
  refine h.solve.lift.bind ?_
  rintro ⟨m, passes⟩ ⟨m', _⟩ ⟨h, rfl⟩
  exact .ok ⟨rfl, h⟩

/-- What a data unit is packed into is a valid draft whose blocks are numbered. -/
theorem packFrom_valid (solved : o.solvedModelFrom classifier s unit = .ok (root, m))
    (packed : packFrom m registry (.blank o.platform o.encoding m.supply) root = .ok d) :
    d.Valid ∧ d.Numbered := by
  have hwhole : m.Whole root := by
    unfold solvedModelFrom at solved
    simp only [bind_eq_ok, mapError_eq_ok, lift_eq_ok, pure_eq_ok, Prod.exists, Prod.mk.injEq] at solved
    obtain ⟨root', m', hwalk, m'', passes, hsolve, rfl, rfl⟩ := solved
    exact Model.solve_whole (Walk.Rules.walk_whole hwalk) hsolve
  obtain ⟨_, _, _, -, -, -, hpacked, hmoves⟩ :=
    packFrom_packed hwhole.fits hwhole.objects hwhole.texts packed
  exact ⟨hpacked.valid, hmoves.numbered (Draft.blank_valid _ _ _) (Draft.blank_numbered _ _ _)⟩

/-- What is compiled from a supply is compiled from a later one, if digests suffice in both drafts. -/
theorem compileFrom_shifted {n : Nat} (positive : 0 < n)
    (suffice : o.DigestsSufficeFrom classifier registry ⟨n⟩ unit)
    (suffice' : o.DigestsSufficeFrom classifier registry ⟨n + t⟩ unit) :
    Follows Eq (o.compileFrom classifier registry ⟨n⟩ unit)
      (o.compileFrom classifier registry ⟨n + t⟩ unit) := by
  intro made hmade
  unfold compileFrom at hmade
  simp only [bind_eq_ok, pure_eq_ok, Prod.exists] at hmade
  obtain ⟨root, m, hsolved, data, hdata, code, hcode, rfl⟩ := hmade
  obtain ⟨⟨root', m'⟩, hsolved', hroot, hm⟩ :=
    solvedModelFrom_shifted (t := t) positive (root, m) hsolved
  obtain rfl : root' = root := hroot
  obtain ⟨rfl, hpositive⟩ : m.Shifted t m' := hm
  obtain ⟨d, hpacked, hlinked⟩ := exists_draft hdata
  have hblank : (Draft.blank o.platform o.encoding m.supply).Shifted t
      (.blank o.platform o.encoding (m.shift t).supply) := Draft.blank_shifted hpositive _ _
  obtain ⟨d', hpacked', hd⟩ := packFrom_shifted hblank root' d hpacked
  obtain ⟨hvalid, hnumbered⟩ := packFrom_valid hsolved hpacked
  obtain ⟨hvalid', hnumbered'⟩ := packFrom_valid hsolved' hpacked'
  obtain ⟨_, hlinked', rfl⟩ := hd.link hvalid hvalid' hnumbered hnumbered'
    (suffice root' m d hsolved hpacked) (suffice' root' _ d' hsolved' hpacked') data hlinked
  have hcode' : o.interface (m.shift t) = .ok code := by
    unfold interface at hcode ⊢
    rw [Model.interface_shift]
    exact hcode
  refine ⟨_, ?_, rfl⟩
  unfold compileFrom
  simp only [bind_eq_ok, pure_eq_ok, Prod.exists]
  exact ⟨root', m.shift t, hsolved', data, pack_of_draft hpacked' hlinked', code, hcode', rfl⟩

end Options

namespace Session

variable {platform : Platform} {encoding : PointerEncoding} {script : List Step} {w w' : Session}
  {packed packed' : PackedContainer}

/-- A script that is played from two supplies leads to the same container. -/
theorem play_link_eq {s s' : Supply} (positive : 0 < s.next) (le : s.next ≤ s'.next)
    (run : play platform encoding s script = some w) (run' : play platform encoding s' script = some w')
    (suffice : w.draft.DigestsSuffice) (suffice' : w'.draft.DigestsSuffice)
    (linked : w.draft.link = .ok packed) (linked' : w'.draft.link = .ok packed') : packed = packed' := by
  obtain ⟨t, ht⟩ := Nat.exists_eq_add_of_le le
  obtain ⟨next⟩ := s
  obtain ⟨_⟩ := s'
  obtain rfl : _ = next + t := ht
  obtain ⟨_, hrun, hshifted⟩ := play_shifted (t := t) positive run
  obtain rfl := Option.some.inj (run'.symm.trans hrun)
  obtain ⟨_, hlinked, rfl⟩ :=
    hshifted.link (play_sound run) (play_sound run') suffice suffice' packed linked
  exact Except.ok.inj (hlinked.symm.trans linked')

end Session

/-- **References never show**: whatever has been taken from a supply before, a script of operations on a
draft and on pools of texts leads to the same container with the same summaries of its data units, and
what a data unit has been compiled to it is compiled to again. -/
theorem supply_never_shows {s s' : Supply} (positive : 0 < s.next) (positive' : 0 < s'.next) :
    (∀ platform encoding script w w' packed packed',
      Session.play platform encoding s script = some w →
      Session.play platform encoding s' script = some w' →
      w.draft.DigestsSuffice → w'.draft.DigestsSuffice →
      w.draft.link = .ok packed → w'.draft.link = .ok packed' → packed = packed') ∧
    ∀ (o : Options) classifier registry unit made, s.next ≤ s'.next →
      o.DigestsSufficeFrom classifier registry s unit →
      o.DigestsSufficeFrom classifier registry s' unit →
      o.compileFrom classifier registry s unit = .ok made →
      o.compileFrom classifier registry s' unit = .ok made := by
  refine ⟨fun platform encoding script w w' packed packed' run run' suffice suffice' linked linked' => ?_,
    fun o classifier registry unit made le suffice suffice' compiled => ?_⟩
  · rcases Nat.le_total s.next s'.next with hle | hle
    · exact Session.play_link_eq positive hle run run' suffice suffice' linked linked'
    · exact (Session.play_link_eq positive' hle run' run suffice' suffice linked' linked).symm
  · obtain ⟨t, ht⟩ := Nat.exists_eq_add_of_le le
    obtain ⟨next⟩ := s
    obtain ⟨_⟩ := s'
    obtain rfl : _ = next + t := ht
    obtain ⟨_, hcompiled, rfl⟩ := Options.compileFrom_shifted positive suffice suffice' made compiled
    exact hcompiled

/-- A block that refers to two equal blocks and to one of two texts. -/
def sharedTexts : List Session.Step :=
  [.draft (.registerUnit .empty), .draft (.openUnit 0), .draft (.newBlock 4 none),
    .draft (.newBlock 4 none), .newPool, .addText 0 "b", .addText 0 "a", .addText 0 "b",
    .draft (.newBlock 8 none), .draft (.newBlock 1 none),
    .draft (.openBlock ⟨1⟩), .draft (.write (.scalar (.u32 7))), .draft .closeBlock,
    .draft (.openBlock ⟨2⟩), .draft (.write (.scalar (.u32 7))), .draft .closeBlock,
    .draft (.openBlock ⟨5⟩), .draft (.writeReference ⟨1⟩), .draft (.writeReference ⟨2⟩),
    .draft (.writeText ⟨3⟩ 1 1), .draft .closeBlock,
    .fillTexts 0 ⟨6⟩ [0, 1], .draft (.setRoot ⟨5⟩), .draft .closeUnit]

/-- A data unit with two texts. -/
def twoNames : DataUnit :=
  ⟨"names", ⟨"Root", [⟨"m_name", .string, .text "a"⟩, ⟨"m_alias", .string, .text "b"⟩]⟩⟩

/-- The drafts that the script leads to differ in what they hold; the two equal blocks are merged in both. -/
theorem supply_never_shows_sharedTexts : ∃ w w' packed made,
    Session.play .win64 .chained .full sharedTexts = some w ∧
    Session.play .win64 .chained ⟨8⟩ sharedTexts = some w' ∧ w.draft.buffer ≠ w'.draft.buffer ∧
    w.draft.link = .ok packed ∧ w'.draft.link = .ok packed ∧ packed.units.map (·.merged) = [1] ∧
    Options.compileFrom {} .standard .empty .full twoNames = .ok made ∧
    Options.compileFrom {} .standard .empty ⟨8⟩ twoNames = .ok made := by
  have hscript : ((Session.play .win64 .chained .full sharedTexts).any fun w =>
      (Session.play .win64 .chained ⟨8⟩ sharedTexts).any fun w' =>
        w.draft.buffer ≠ w'.draft.buffer &&
        (w.draft.units.length = 1 && Section.digestsTell w.draft.endian 2 (w.draft.sections 0)) &&
        (w'.draft.units.length = 1 && Section.digestsTell w'.draft.endian 2 (w'.draft.sections 0)) &&
        w.draft.link.toOption.any fun packed => packed.units.map (·.merged) = [1] &&
          w'.draft.link.toOption.isSome) = true := by
    decide +kernel
  have hdraft : ∀ s ∈ [Supply.full, ⟨8⟩],
      ((Options.solvedModelFrom {} .standard s twoNames).toOption.any fun x =>
        (packFrom x.2 .empty (.blank .win64 .chained x.2.supply) x.1).toOption.any fun d =>
          d.units.length = 1 && Section.digestsTell d.endian 1 (d.sections 0)) = true := by
    decide +kernel
  have hcompiled : (Options.compileFrom {} .standard .empty .full twoNames).toOption.isSome = true := by
    decide +kernel
  simp only [Option.any_eq_true, Option.isSome_iff_exists, Bool.and_eq_true, decide_eq_true_eq,
    toOption_eq_some, Prod.exists] at hscript hdraft hcompiled
  obtain ⟨w, hw, w', hw', ⟨⟨hbuffer, hunits, htell⟩, hunits', htell'⟩, packed, hlink, hmerged, packed',
    hlink'⟩ := hscript
  have hsuffice : ∀ s ∈ [Supply.full, ⟨8⟩], Options.DigestsSufficeFrom {} .standard .empty s twoNames := by
    intro s hs
    obtain ⟨root, m, hsolved, d, hpacked, hunits, htell⟩ := hdraft s hs
    exact Options.digestsSufficeFrom_of_packed hsolved hpacked (.of_check hunits htell)
  obtain ⟨made, hmade⟩ := hcompiled
  obtain ⟨hscripts, hunit⟩ := @supply_never_shows .full ⟨8⟩ (by decide) (by decide)
  obtain rfl := hscripts _ _ _ _ _ _ _ hw hw' (.of_check hunits htell) (.of_check hunits' htell') hlink hlink'
  refine ⟨w, w', packed, made, hw, hw', hbuffer, hlink, hlink', hmerged, hmade, ?_⟩
  exact hunit _ _ _ _ made (by decide) (hsuffice _ (by simp)) (hsuffice _ (by simp)) hmade

end ObjectPack
