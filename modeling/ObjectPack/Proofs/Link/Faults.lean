import ObjectPack.Proofs.Draft.State
import ObjectPack.Proofs.Link.Total

/-!
# When linking breaks a contract

Linking can end in three ways: with a container, with an error, or with a broken contract.  Errors come from
offsets that leave their range only, so a container that ends below the limit is never answered with one
(`Draft.Valid.link_answersNone`).  Of the other two ways the broken contract is taken exactly if something has
been left unfinished, or if a root or a site refers to nothing in its data unit (`Draft.IllFormed`,
`Draft.link_faults_iff`).  It does not matter here whether the block of the site survives merging, because the
block that stands in for it has a site with the same target.
-/

namespace ObjectPack

open Placement

namespace Outcome

variable {ε α β : Type}

/-! ### Computations that answer with no error -/

/-- Whether a computation answers with no error; it may break contracts. -/
def AnswersNone (x : Except (Failure ε) α) : Prop := ∀ e, x ≠ .error (.error e)

theorem AnswersNone.of_exists {x : Except (Failure ε) α} (h : ∃ a, x = .ok a) : AnswersNone x := by
  obtain ⟨a, rfl⟩ := h
  intro e he
  cases he

theorem AnswersNone.lift (x : Except Fault α) : AnswersNone (liftM x : Except (Failure ε) α) := by
  intro e he
  cases x <;> cases he

theorem AnswersNone.bind {x : Except (Failure ε) α} {f : α → Except (Failure ε) β} (first : AnswersNone x)
    (rest : ∀ a, x = .ok a → AnswersNone (f a)) : AnswersNone (x >>= f) := by
  cases x with
  | ok a => exact rest a rfl
  | error failure =>
    intro e he
    cases he
    exact first e rfl

theorem AnswersNone.mapM {f : α → Except (Failure ε) β} {l : List α} (step : ∀ a ∈ l, AnswersNone (f a)) :
    AnswersNone (l.mapM f) := by
  intro e he
  obtain ⟨a, ha, herror⟩ := exists_error_of_mapM he
  exact step a ha e herror

/-- What answers with no error either succeeds or breaks a contract. -/
theorem AnswersNone.cases {x : Except (Failure ε) α} (h : AnswersNone x) :
    (∃ a, x = .ok a) ∨ ∃ fault, x = .error (.fault fault) := by
  cases x with
  | ok a => exact .inl ⟨a, rfl⟩
  | error failure =>
    cases failure with
    | fault fault => exact .inr ⟨fault, rfl⟩
    | error e => exact absurd rfl (h e)

end Outcome

open Outcome

/-! ### Slots within reach -/

/-- Distances between offsets below the limit can be written. -/
theorem exists_delta32 {start stop : UInt32} (hstart : start.toNat < dataLimit) (hstop : stop.toNat < dataLimit) :
    ∃ delta, delta32? (distance start stop) = some delta := by
  unfold dataLimit at hstart hstop
  exact ⟨_, if_pos (by unfold distance; omega)⟩

/-- Whether both ends of a pointer lie below the limit. -/
def Pointer.Below (p : Pointer) : Prop := p.position.toNat < dataLimit ∧ p.target.toNat < dataLimit

theorem Pointer.Below.exists_slot {p : Pointer} {next : Option UInt32} (below : p.Below)
    (hnext : ∀ n ∈ next, n.toNat < dataLimit) (e : Endian) : ∃ slot, chainedSlot e p next = .ok slot := by
  obtain ⟨target, htarget⟩ := exists_delta32 below.1 below.2
  have hencode : ∃ slot, p.encodeChained? next e = some slot := by
    unfold encodeChained? delta
    rw [htarget]
    cases next with
    | none => exact ⟨_, rfl⟩
    | some n =>
      obtain ⟨link, hlink⟩ := exists_delta32 below.1 (hnext n rfl)
      simp only [hlink]
      exact ⟨_, rfl⟩
  obtain ⟨slot, hslot⟩ := hencode
  exact ⟨slot, chainedSlot_eq_ok.mpr hslot⟩

/-- Chains of pointers below the limit can be written. -/
theorem exists_chainedSlots (e : Endian) {pointers : List Pointer} (below : ∀ p ∈ pointers, p.Below) :
    ∃ slots, chainedSlots e pointers = .ok slots := by
  induction pointers with
  | nil => exact ⟨[], rfl⟩
  | cons p rest ih =>
    obtain ⟨hp, hrest⟩ := List.forall_mem_cons.mp below
    obtain ⟨slots, hslots⟩ := ih hrest
    have hnext : ∀ n ∈ rest.head?.map (·.position), n.toNat < dataLimit := by
      intro n hn
      obtain ⟨q, hq, rfl⟩ := Option.map_eq_some_iff.mp hn
      exact (hrest q (List.mem_of_mem_head? hq)).1
    obtain ⟨slot, hslot⟩ := hp.exists_slot hnext e
    exact ⟨_, by simp only [chainedSlots, bind_eq_ok, hslot, hslots]; exact ⟨_, rfl, _, rfl, rfl⟩⟩

namespace Placement

variable {placements : List Placement} {position last : Nat}

/-- Every place that is looked up lies before the end. -/
theorem placeOf_le (laid : Laid position placements last) (wellFormed : ∀ p ∈ placements, p.placed.WellFormed)
    (aliases : Aliases) (r : Reference) : placeOf placements aliases r ≤ last := by
  unfold placeOf
  generalize aliases.resolve r = name
  cases hlookup : (placements.flatMap targets).lookup name with
  | none => exact Nat.zero_le _
  | some place =>
    obtain ⟨p, hp, htarget⟩ := List.mem_flatMap.mp (Outcome.mem_of_lookup hlookup)
    have hstop := laid.stop_le p hp
    unfold stop at hstop
    show place ≤ last
    rcases List.mem_cons.mp htarget with hself | hmarked
    · cases hself
      omega
    · obtain ⟨mark, hmark, heq⟩ := List.mem_map.mp hmarked
      cases heq
      have hinside := (wellFormed p hp).marksInside mark hmark
      omega

/-- The pointers of sections that end below the limit have both ends below it. -/
theorem pointersOf_below (laid : Laid position placements last)
    (wellFormed : ∀ p ∈ placements, p.placed.WellFormed) (small : last < dataLimit) {aliases : Aliases}
    {x : Pointer × PointerEncoding} (hx : x ∈ pointersOf placements aliases) : x.1.Below := by
  obtain ⟨p, hp, site, hsite, rfl⟩ := Linkage.mem_pointersOf.mp hx
  have hinside := (wellFormed p hp).slotsInside site hsite
  have hstop := laid.stop_le p hp
  have htarget := placeOf_le laid wellFormed aliases site.target
  unfold stop at hstop
  -- An offset that is cut to 32 bits does not grow.
  have hcut (n : Nat) : (UInt32.ofNat n).toNat ≤ n := by
    rw [UInt32.toNat_ofNat']
    exact Nat.mod_le _ _
  exact ⟨Nat.lt_of_le_of_lt (hcut (p.start + site.offset)) (by omega),
    Nat.lt_of_le_of_lt (hcut (placeOf placements aliases site.target)) (by omega)⟩

end Placement

/-! ### Linking without errors -/

/-- Linking a data unit that ends below the limit answers with no error. -/
theorem LinkedUnit.ofSections_answersNone {e : Endian} {unit : Nat} {root : Option Reference}
    {sections : List Section} (wellFormed : ∀ s ∈ (Section.merge e sections).1, s.WellFormed)
    (fit : ∀ s ∈ (Section.merge e sections).1, s.alignment < wordLimit)
    (small : reach Container.unitHeaderSize (Section.merge e sections).1 < dataLimit) :
    AnswersNone (ofSections e unit root sections) := by
  obtain ⟨placements, hplace, hplaced⟩ :=
    exists_place unit (fun s hs => ⟨(wellFormed s hs).power, fit s hs⟩) small
  obtain ⟨-, hlaid, -⟩ := place_laid wellFormed hplace
  have hsections : ∀ p ∈ placements, p.placed.WellFormed := fun p hp =>
    wellFormed p.placed (hplaced ▸ List.mem_map_of_mem hp)
  unfold ofSections
  dsimp only
  refine (AnswersNone.of_exists ⟨_, hplace⟩).bind fun result hresult => ?_
  obtain rfl := Except.ok.inj (hplace.symm.trans hresult)
  refine (AnswersNone.mapM fun p _ => .lift _).bind fun found hfound => ?_
  rw [flatten_pointers hfound]
  refine (AnswersNone.of_exists ?_).bind fun slots _ => ?_
  · obtain ⟨slots, hslots⟩ := exists_chainedSlots e fun p hp =>
      pointersOf_below hlaid hsections small (mem_chainedPointers.mp hp)
    exact ⟨slots, mapError_eq_ok.mpr hslots⟩
  cases root with
  | none => exact .of_exists ⟨_, rfl⟩
  | some reference => exact (AnswersNone.lift _).bind fun place _ => .of_exists ⟨_, rfl⟩

namespace Draft

variable {d : Draft} {packed : PackedContainer}

/-- Linking answers with no error as long as the container ends below the limit of offsets. -/
theorem Valid.link_answersNone (valid : d.Valid) (small : d.linkedSize < dataLimit) : AnswersNone d.link := by
  unfold link
  refine (AnswersNone.lift _).bind fun _ _ => ?_
  refine AnswersNone.bind (.mapM fun x hx => ?_) fun images himages => ?_
  · exact LinkedUnit.ofSections_answersNone (valid.merging x.2).coherent.wellFormed
      (fun s hs => ((valid.alignments x.2).1 s hs).2) (unitExtent_lt small hx)
  · exact .of_exists (valid.exists_joinUnits himages small)

/-! ### Ill-formed drafts -/

/-- What keeps a draft from being linked. -/
inductive IllFormed (d : Draft) : Prop
  | blockOpen (opened : d.isBlockOpen = true)
  | unitOpen {unit : Nat} (opened : d.currentUnit = some unit)
  | neverWritten {block : Block} (registered : block ∈ d.blocks) (unwritten : block.body = none)
  /-- A root refers neither to a block of its data unit nor to a mark in it. -/
  | danglingRoot {unit : Nat} {u : DraftUnit} {r : Reference} (registered : d.units[unit]? = some u)
      (root : u.root = some r) (dangling : ¬ d.MeansIn unit r)
  | danglingSite {unit : Nat} {target : Reference} (refers : d.RefersIn unit target)
      (dangling : ¬ d.MeansIn unit target)

/-- Nothing that has been linked was ill-formed. -/
theorem not_illFormed_of_link (valid : d.Valid)
    (tell : ∀ unit < d.units.length, Section.DigestsTell d.endian (d.sections unit))
    (linked : d.link = .ok packed) : ¬ d.IllFormed := by
  have hfinished : d.requireFinished = .ok () := by
    have hsteps := linked
    unfold link at hsteps
    obtain ⟨_, hfinished, -⟩ := bind_eq_ok.mp hsteps
    exact lift_eq_ok.mp hfinished
  obtain ⟨hblock, hunit, hwritten⟩ := requireFinished_eq_ok.mp hfinished
  intro h
  cases h with
  | blockOpen opened =>
    rw [isBlockOpen, hblock] at opened
    cases opened
  | unitOpen opened =>
    rw [hunit] at opened
    cases opened
  | neverWritten registered unwritten =>
    have hnone := List.find?_eq_none.mp hwritten _ registered
    rw [unwritten] at hnone
    exact hnone rfl
  | danglingRoot registered root dangling =>
    have hlt := (List.getElem?_eq_some_iff.mp registered).1
    exact dangling ((valid.placedIn linked hlt (tell _ hlt)).root _ registered _ root).1
  | danglingSite refers dangling =>
    obtain ⟨body, hbody, rfl, site, hsite, rfl⟩ := refers
    have hlt := (hbody.valid valid).registered
    obtain ⟨block, hblock, hbody⟩ := hbody
    exact dangling ((valid.placedIn linked hlt (tell _ hlt)).targets block hblock body hbody rfl site hsite)

/-- A reachable draft that is not ill-formed has been settled. -/
theorem settled_of_not_illFormed (reachable : d.Reachable) (h : ¬ d.IllFormed) : d.Settled := by
  obtain ⟨platform, encoding, supply, ops, hrun⟩ := reachable
  have htidy := (blank_tidy platform encoding supply).moves (blank_valid platform encoding supply) hrun.moves
  refine
    { closed := ?_
      unopened := ?_
      means := fun unit target hrefers => not_not.mp fun hdangling => h (.danglingSite hrefers hdangling) }
  · cases hcurrent : d.currentBlock with
    | none => rfl
    | some index =>
      obtain ⟨block, body, hactive⟩ := htidy.active hcurrent
      exact absurd (.blockOpen (by rw [isBlockOpen, hactive]; rfl)) h
  · refine List.eq_nil_iff_forall_not_mem.mpr fun reference hwaits => ?_
    obtain ⟨block, hblock, hunwritten, -⟩ := mem_unopened.mp hwaits
    exact h (.neverWritten hblock hunwritten)

/-- Linking a draft whose container ends below the limit of offsets breaks a contract exactly if the draft is
ill-formed, and gives the container in all other cases, as long as digests tell blocks apart. -/
theorem link_faults_iff (reachable : d.Reachable)
    (tell : ∀ unit < d.units.length, Section.DigestsTell d.endian (d.sections unit))
    (small : d.linkedSize < dataLimit) :
    ((∃ fault, d.link = .error (.fault fault)) ↔ d.IllFormed) ∧
      (¬ d.IllFormed → ∃ packed, d.link = .ok packed) := by
  have hvalid := reachable.valid
  have hanswers := (hvalid.link_answersNone small).cases
  have hkeeps : ¬ d.IllFormed → KeepsContracts d.link := by
    intro h
    have hclosed : d.currentUnit = none := by
      cases hunit : d.currentUnit with
      | none => rfl
      | some unit => exact absurd (.unitOpen hunit) h
    refine link_keepsContracts hvalid (settled_of_not_illFormed reachable h) hclosed ?_ tell small
    intro unit u hu r hroot
    exact not_not.mp fun hdangling => h (.danglingRoot hu hroot hdangling)
  refine ⟨⟨?_, fun h => ?_⟩, fun h => ?_⟩
  · rintro ⟨fault, hfault⟩
    by_contra h
    exact hkeeps h fault hfault
  · refine hanswers.resolve_left ?_
    rintro ⟨packed, hlinked⟩
    exact not_illFormed_of_link hvalid tell hlinked h
  · refine hanswers.resolve_right ?_
    rintro ⟨fault, hfault⟩
    exact hkeeps h fault hfault

/-- Two data units; the one block of the second refers to the block of the first. -/
def strangerOperations : List Operation :=
  [.registerUnit .empty, .registerUnit ⟨1⟩, .openUnit 0, .newBlock 8 none, .openBlock ⟨1⟩, .closeBlock, .closeUnit,
    .openUnit 1, .newBlock 8 none, .openBlock ⟨2⟩, .writeReference ⟨1⟩, .closeBlock, .closeUnit]

/-- A block of another data unit is no target, so linking breaks a contract. -/
theorem link_faults_iff_stranger : ∃ d fault,
    (blank .win64 .chained .full).after? strangerOperations = some d ∧ d.RefersIn 1 ⟨1⟩ ∧ d.MeansIn 0 ⟨1⟩ ∧
      d.link = .error (.fault fault) := by
  have hcheck : ((blank .win64 .chained .full).after? strangerOperations).any (fun d =>
      d.units.length = 2 && d.linkedSize < 200 && Section.digestsTell d.endian 2 (d.sections 0) &&
        Section.digestsTell d.endian 2 (d.sections 1) &&
        (d.blocks.any fun block => block.reference = ⟨1⟩ && block.body.any fun body => body.unit = 0) &&
        (d.blocks.any fun block => block.body.any fun body =>
          body.unit = 1 && body.sites.any fun site => site.target = ⟨1⟩) &&
        (d.sections 1).flatMap Section.names = [⟨2⟩]) = true := by
    decide +kernel
  simp only [Option.any_eq_true, Bool.and_eq_true, decide_eq_true_eq, List.any_eq_true] at hcheck
  obtain ⟨d, hd, ⟨⟨⟨⟨⟨hunits, hsize⟩, hfirst⟩, hsecond⟩, block, hblock, hreference, body, hbody, hin⟩,
    block', hblock', body', hbody', hin', site, hsite, htarget⟩, hnames⟩ := hcheck
  have hrefers : d.RefersIn 1 ⟨1⟩ := ⟨body', ⟨block', hblock', hbody'⟩, hin', site, hsite, htarget⟩
  have hmeans : d.MeansIn 0 ⟨1⟩ := ⟨block, hblock, body, hbody, hin, .inl hreference⟩
  have hdangling : ¬ d.MeansIn 1 ⟨1⟩ := by
    intro h
    obtain ⟨s, hs, hname⟩ := h.exists_name
    have hmem := List.mem_flatMap.mpr ⟨s, hs, hname⟩
    rw [hnames] at hmem
    revert hmem
    decide
  have htell : ∀ unit < d.units.length, Section.DigestsTell d.endian (d.sections unit) := by
    intro unit hunit
    obtain rfl | rfl : unit = 0 ∨ unit = 1 := by omega
    · exact Section.digestsTell_of_check hfirst
    · exact Section.digestsTell_of_check hsecond
  have hsmall : d.linkedSize < dataLimit := Nat.lt_trans hsize (by decide)
  obtain ⟨fault, hfault⟩ :=
    (link_faults_iff (reachable_of_after? hd) htell hsmall).1.mpr (.danglingSite hrefers hdangling)
  exact ⟨d, fault, hd, hrefers, hmeans, hfault⟩

end Draft

end ObjectPack
