import ObjectPack.Proofs.Link.Read

/-!
# Walking the chain

A loader finds the chained sites of a data unit by their links alone.  Each slot of the chain holds the
distance to the next one, and a distance of zero ends it; as the sites come one behind the other, no
other link is zero, so that a walk from the first slot meets all of them in their order
(`Chain.sites_eq`).  For the units of a container this means that a walk gives the chained sites of the
blocks that survive, whatever other sites stand between them (`Draft.link_chain`).
-/

namespace ObjectPack

open Outcome Placement

theorem offset32?_toNat (v : UInt32) : offset32? (v.toNat : Int) = some v := by
  have hlt := v.toNat_lt
  rw [offset32?, if_pos (by omega), Int.toNat_natCast, UInt32.ofNat_toNat]

/-! ### Chains of slots -/

/-- Whether a byte string holds the slots of a chain: each pointer has its own, which links to the
next one. -/
inductive Chain.Linked (b : Bytes) (e : Endian) : List Pointer → Prop
  | nil : Linked b e []
  | cons {p : Pointer} {rest : List Pointer} {slot : Bytes} (stands : b.HasAt p.position.toNat slot)
      (inside : p.position.toNat + Pointer.slotSize ≤ b.length)
      (encoded : p.encodeChained? (rest.head?.map (·.position)) e = some slot)
      (later : Linked b e rest) : Linked b e (p :: rest)

namespace Chain

variable {b : Bytes} {e : Endian}

/-- One step along a chain visits its first pointer and leads to the next one. -/
theorem Linked.step {p : Pointer} {rest : List Pointer} {remaining : Nat}
    (h : Linked b e (p :: rest)) (apart : ∀ q ∈ rest, p.position ≠ q.position) :
    Chain.step ⟨b, e, some p.position, remaining + 1⟩
      = (some p, ⟨b, e, rest.head?.map (·.position), remaining⟩) := by
  cases h with
  | cons stands inside encoded later =>
    obtain ⟨hlink, htarget, hlength⟩ := Pointer.encodeChained?_eq_some encoded
    have hslice := stands.slice? (hlength.symm ▸ inside)
    rw [hlength] at hslice
    have hsum : (p.position.toNat : Int) + p.delta = p.target.toNat := by
      unfold Pointer.delta distance
      omega
    -- The link is zero exactly if no pointer follows.
    have hnext : (if (rest.head?.map (·.position)).elim 0 (fun n => distance p.position n) = 0
        then none
        else offset32? ((p.position.toNat : Int)
          + (rest.head?.map (·.position)).elim 0 fun n => distance p.position n))
        = rest.head?.map (·.position) := by
      cases rest with
      | nil => rfl
      | cons q rest =>
        have hne : p.position.toNat ≠ q.position.toNat :=
          fun heq => apart q List.mem_cons_self (UInt32.toNat_inj.mp heq)
        have hforth : (p.position.toNat : Int) + distance p.position q.position
            = q.position.toNat := by
          unfold distance
          omega
        show (if distance p.position q.position = 0 then none
          else offset32? ((p.position.toNat : Int) + distance p.position q.position)) = _
        rw [hforth, if_neg (by unfold distance; omega), offset32?_toNat]
        rfl
    unfold Chain.step
    simp only [Nat.add_one_ne_zero, if_false, hslice, hlink, htarget, hsum, hnext, offset32?_toNat,
      Option.map_some, Nat.add_sub_cancel]

/-- A walk along a chain gives its pointers, however often one goes on. -/
theorem Linked.sites_eq {pointers : List Pointer} (h : Linked b e pointers)
    (ascending : pointers.Pairwise fun p q => p.position.toNat < q.position.toNat) {n : Nat}
    (enough : pointers.length ≤ n) :
    Chain.sites n ⟨b, e, pointers.head?.map (·.position), pointers.length⟩ = pointers := by
  induction pointers generalizing n with
  | nil => cases n <;> rfl
  | cons p rest ih =>
    obtain ⟨n, rfl⟩ := Nat.exists_eq_add_of_lt enough
    obtain ⟨hfirst, hrest⟩ := List.pairwise_cons.mp ascending
    have hlater : Linked b e rest := by
      cases h
      assumption
    rw [show rest.length + n + 1 = (rest.length + n) + 1 from rfl, Chain.sites]
    have hapart : ∀ q ∈ rest, p.position ≠ q.position := fun q hq heq =>
      absurd (hfirst q hq) (by rw [heq]; exact Nat.lt_irrefl _)
    rw [List.head?_cons, Option.map_some, List.length_cons, h.step hapart]
    exact congrArg (p :: ·) (ih hlater hrest (by omega))

end Chain

/-- The slots that linking gives to chained pointers form a chain where they are written. -/
theorem linked_of_chainedSlots {e : Endian} {b : Bytes} {chained : List Pointer}
    {slots : List (Nat × Bytes)} (h : chainedSlots e chained = .ok slots)
    (stand : ∀ slot ∈ slots, b.HasAt slot.1 slot.2 ∧ slot.1 + slot.2.length ≤ b.length) :
    Chain.Linked b e chained := by
  induction chained generalizing slots with
  | nil => exact .nil
  | cons p rest ih =>
    simp only [chainedSlots, bind_eq_ok, pure_eq_ok] at h
    obtain ⟨slot, hslot, later, hlater, rfl⟩ := h
    obtain ⟨⟨hstands, hinside⟩, hothers⟩ := List.forall_mem_cons.mp stand
    have hencoded := chainedSlot_eq_ok.mp hslot
    rw [(Pointer.encodeChained?_eq_some hencoded).2.2] at hinside
    exact .cons hstands hinside hencoded (ih hlater hothers)

/-- Slots that come one behind the other need their space. -/
theorem length_mul_slotSize_le {pointers : List Pointer} {start stop : Nat}
    (ascending : pointers.Pairwise fun p q =>
      p.position.toNat + Pointer.slotSize ≤ q.position.toNat)
    (low : ∀ p ∈ pointers, start ≤ p.position.toNat)
    (high : ∀ p ∈ pointers, p.position.toNat + Pointer.slotSize ≤ stop) (space : start ≤ stop) :
    start + pointers.length * Pointer.slotSize ≤ stop := by
  induction pointers generalizing start with
  | nil =>
    rw [List.length_nil, Nat.zero_mul]
    exact space
  | cons p rest ih =>
    obtain ⟨hfirst, hrest⟩ := List.pairwise_cons.mp ascending
    have hlow := low p List.mem_cons_self
    have hlater := ih hrest hfirst (fun q hq => high q (List.mem_cons_of_mem _ hq))
      (high p List.mem_cons_self)
    rw [List.length_cons, Nat.succ_mul]
    omega

/-! ### Data units -/

namespace Linkage

variable {e : Endian} {root : Option Reference} {kept : List Section} {aliases : Aliases}
  {image : LinkedUnit} {placements : List Placement} {last : Nat} {slots : List (Nat × Bytes)}

/-- The chained pointers of a unit form a chain. -/
theorem linked (h : Linkage e root kept aliases image placements last slots)
    (coherent : Section.Coherent kept) :
    Chain.Linked image.bytes e (chainedPointers (pointersOf placements aliases)) := by
  refine linked_of_chainedSlots h.chain fun slot hslot => ?_
  have hmem : slot ∈ (pointersOf placements aliases).filterMap (plainSlot? e) ++ slots :=
    List.mem_append_right _ hslot
  have hinside := h.slots_inside coherent slot hmem
  rw [h.length_filled, ← h.length_bytes coherent] at hinside
  refine ⟨?_, hinside⟩
  rw [h.bytes]
  exact patchAll_hasAt (h.slots_inside coherent) ((h.ascending coherent).slots_apart h.chain) hmem

theorem chained_ascending (h : Linkage e root kept aliases image placements last slots)
    (coherent : Section.Coherent kept) :
    (chainedPointers (pointersOf placements aliases)).Pairwise fun p q =>
      p.position.toNat + Pointer.slotSize ≤ q.position.toNat := by
  refine List.pairwise_filterMap.mpr ((h.ascending coherent).imp ?_)
  rintro ⟨p, encoding⟩ ⟨q, encoding'⟩ hle x hx y hy
  obtain ⟨-, rfl⟩ : encoding = .chained ∧ p = x := by simpa using hx
  obtain ⟨-, rfl⟩ : encoding' = .chained ∧ q = y := by simpa using hy
  exact hle

theorem chained_sorted (h : Linkage e root kept aliases image placements last slots)
    (coherent : Section.Coherent kept) :
    (chainedPointers (pointersOf placements aliases)).Pairwise fun p q =>
      p.position.toNat < q.position.toNat := by
  refine (h.chained_ascending coherent).imp fun {p q} hle => ?_
  unfold Pointer.slotSize at hle
  omega

/-- The slots of a unit stand behind its header and inside the unit. -/
theorem chained_bounds (h : Linkage e root kept aliases image placements last slots)
    (coherent : Section.Coherent kept) {p : Pointer}
    (hp : p ∈ chainedPointers (pointersOf placements aliases)) :
    Container.unitHeaderSize ≤ p.position.toNat ∧ p.position.toNat + Pointer.slotSize ≤ last := by
  obtain ⟨q, hq, site, hsite, heq⟩ := mem_pointersOf.mp (mem_chainedPointers.mp hp)
  have hposition : p.position.toNat = q.start + site.offset := by
    rw [← h.position_pointerOf coherent hq hsite, ← heq]
  have hinside := h.slot_inside coherent hq hsite
  have hstart := h.laid.le_start q hq
  have hstop := h.laid.stop_le q hq
  omega

/-- The mark of an empty chain leaves no space for a slot. -/
theorem chained_ne_noPointers (h : Linkage e root kept aliases image placements last slots)
    (coherent : Section.Coherent kept) {p : Pointer}
    (hp : p ∈ chainedPointers (pointersOf placements aliases)) :
    p.position ≠ Container.noPointers := by
  intro hnone
  have hbounds := (h.chained_bounds coherent hp).2
  have hfits := h.fits
  have hposition : p.position.toNat = wordLimit - 1 := congrArg UInt32.toNat hnone
  unfold Pointer.slotSize at hbounds
  omega

/-- The chain that a reader walks in a unit. -/
theorem chain_eq (h : Linkage e root kept aliases image placements last slots)
    (coherent : Section.Coherent kept) {view : Container.UnitReader}
    (bytes : view.bytes = image.bytes) (endian : view.endian = e)
    (header : view.header = .ofBytes e image.bytes) :
    let chained := chainedPointers (pointersOf placements aliases)
    view.chain = ⟨image.bytes, e, chained.head?.map (·.position), chained.length⟩ ∧
      view.header.pointerCount.toNat = chained.length ∧
      view.header.firstPointer = (chained.head?.map (·.position)).getD Container.noPointers := by
  intro chained
  rw [h.header_eq coherent] at header
  have hfirst : view.header.firstPointer
      = (chained.head?.map (·.position)).getD Container.noPointers := by
    rw [header]
    rfl
  -- The chained slots stand apart within the unit, so their count is a word.
  have hcount : view.header.pointerCount.toNat = chained.length := by
    have hspace : 0 + chained.length * Pointer.slotSize ≤ last :=
      length_mul_slotSize_le (h.chained_ascending coherent) (fun _ _ => Nat.zero_le _)
        (fun p hp => (h.chained_bounds coherent hp).2) (Nat.zero_le _)
    have hfits := h.fits
    rw [header]
    refine UInt32.toNat_ofNat_of_lt' (show chained.length < wordLimit from ?_)
    unfold Pointer.slotSize at hspace
    omega
  refine ⟨?_, hcount, hfirst⟩
  have hnext : (if view.header.firstPointer = Container.noPointers then none
      else some view.header.firstPointer) = chained.head?.map (·.position) := by
    rw [hfirst]
    cases hhead : chained.head? with
    | none => exact if_pos rfl
    | some p => exact if_neg (h.chained_ne_noPointers coherent (List.mem_of_mem_head? hhead))
  rw [Container.UnitReader.chain, hnext, hcount, bytes, endian]

end Linkage

namespace Draft

/-- The chained sites of the blocks of a data unit that survive, as positions in the unit, each with
the final place of its target. -/
def chainedSites (d : Draft) (unit : Nat) : List (Nat × Nat) :=
  (d.survivors unit).flatMap fun s => (s.sites.filter (·.encoding = .chained)).map fun site =>
    (d.placeIn unit s.reference + site.offset, d.placeIn unit site.target)

/-- What the chain of a data unit tells its reader. -/
structure ChainedIn (d : Draft) (unit : Nat) (view : Container.UnitReader) : Prop where
  /-- The walk meets every chained site once, in the order of the positions. -/
  sites : view.chainedSites.map (fun p => (p.position.toNat, p.target.toNat)) = d.chainedSites unit
  ascending : view.chainedSites.Pairwise fun p q => p.position.toNat < q.position.toNat
  /-- There is nothing behind the last site. -/
  ends : ∀ n, view.chainedSites.length ≤ n → Chain.sites n view.chain = view.chainedSites
  count : view.header.pointerCount.toNat = view.chainedSites.length
  first : view.header.firstPointer
    = (view.chainedSites.head?.map (·.position)).getD Container.noPointers
  /-- The mark of an empty chain is no position. -/
  positions : ∀ p ∈ view.chainedSites, p.position ≠ Container.noPointers

variable {d : Draft} {packed : PackedContainer} {unit last : Nat} {root : Option Reference}
  {image : LinkedUnit} {slots : List (Nat × Bytes)}

/-- The chained ones of some sites, as pointers. -/
theorem chainedPointers_map {f : Site → Pointer × PointerEncoding} (sites : List Site)
    (encoded : ∀ site, (f site).2 = site.encoding) :
    chainedPointers (sites.map f) = (sites.filter (·.encoding = .chained)).map fun site => (f site).1 := by
  induction sites with
  | nil => rfl
  | cons site rest ih =>
    have hencoded := encoded site
    unfold chainedPointers at ih ⊢
    by_cases hchained : site.encoding = .chained
    · rw [List.map_cons, List.filterMap_cons_some (b := (f site).1), ih, List.filter_cons_of_pos,
        List.map_cons]
      · exact decide_eq_true hchained
      · exact if_pos (hencoded.trans hchained)
    · rw [List.map_cons, List.filterMap_cons_none, ih, List.filter_cons_of_neg]
      · exact fun h => hchained (of_decide_eq_true h)
      · exact if_neg fun h => hchained (hencoded.symm.trans h)

/-- The chained pointers of a placed section are the chained sites of the block that it comes from. -/
theorem chainedPointers_placed (valid : d.Valid)
    (linkage : Linkage d.endian root (Section.merge d.endian (d.sections unit)).1 (d.aliases unit)
      image (d.placements unit) last slots) {s : Section} {p : Placement}
    (hp : p ∈ d.placements unit) (place : d.placeIn unit s.reference = p.start)
    (stands : p.placed.StandsFor (d.aliases unit).resolve s) :
    (chainedPointers (p.placed.sites.map (p.pointerOf (d.placements unit) (d.aliases unit)))).map
        (fun q => (q.position.toNat, q.target.toNat))
      = (s.sites.filter (·.encoding = .chained)).map fun site =>
        (d.placeIn unit s.reference + site.offset, d.placeIn unit site.target) := by
  have hmerging := valid.merging unit
  have hsites : p.placed.sites.filter (·.encoding = .chained)
      = (s.sites.filter (·.encoding = .chained)).map fun site =>
        { site with target := (d.aliases unit).resolve site.target } := by
    rw [stands.sites, List.filter_map]
    rfl
  rw [chainedPointers_map p.placed.sites fun _ => rfl, hsites, List.map_map, List.map_map]
  refine List.map_congr_left fun site hsite => ?_
  have hmoved : { site with target := (d.aliases unit).resolve site.target } ∈ p.placed.sites := by
    rw [stands.sites]
    exact List.mem_map_of_mem (List.mem_of_mem_filter hsite)
  have htarget : placeOf (d.placements unit) (d.aliases unit)
      ((d.aliases unit).resolve site.target) = d.placeIn unit site.target := by
    rw [placeOf, hmerging.resolve_resolve, ← placeOf, placeIn]
  rw [place, ← htarget]
  exact Prod.ext (linkage.position_pointerOf hmerging.coherent hp hmoved)
    (linkage.target_pointerOf hmerging.coherent hp hmoved)

/-- The chained pointers of a data unit are its chained sites. -/
theorem chainedPointers_eq (valid : d.Valid)
    (linkage : Linkage d.endian root (Section.merge d.endian (d.sections unit)).1 (d.aliases unit)
      image (d.placements unit) last slots) :
    (chainedPointers (pointersOf (d.placements unit) (d.aliases unit))).map
      (fun q => (q.position.toNat, q.target.toNat)) = d.chainedSites unit := by
  have hpieces : (d.survivors unit).map (fun s => (s.sites.filter (·.encoding = .chained)).map
        fun site => (d.placeIn unit s.reference + site.offset, d.placeIn unit site.target))
      = (d.placements unit).map fun p => (chainedPointers (p.placed.sites.map
          (p.pointerOf (d.placements unit) (d.aliases unit)))).map
            fun q => (q.position.toNat, q.target.toNat) := by
    rw [← List.forall₂_eq_eq_eq, List.forall₂_map_left_iff, List.forall₂_map_right_iff]
    refine (valid.survivors_placed linkage).imp fun s p ⟨hp, hplace, hstands⟩ => ?_
    exact (chainedPointers_placed valid linkage hp hplace hstands).symm
  rw [chainedSites, List.flatMap_def, hpieces, ← List.flatMap_def, ← List.map_flatMap, pointersOf]
  simp only [chainedPointers, List.filterMap_flatMap]

/-- The chain of every data unit of a container leads along all its chained sites. -/
theorem link_chain (reachable : d.Reachable) (linked : d.link = .ok packed) :
    ∃ r, Container.Reader.ofBytes packed.bytes = .ok r ∧ r.unitCount = d.units.length ∧
      ∀ unit < d.units.length, ∃ view, r.unit? unit = some view ∧ d.ChainedIn unit view := by
  have hvalid := reachable.valid
  obtain ⟨r, hr, hcount, hunits⟩ := link_opens hvalid linked
  refine ⟨r, hr, hcount, fun unit hunit => ?_⟩
  obtain ⟨image, last, slots, view, hlinkage, hview, hbytes, hheader, hendian, -, -⟩ :=
    hunits unit _ (List.getElem?_eq_getElem hunit)
  have hcoherent := (hvalid.merging unit).coherent
  obtain ⟨hchain, hpointerCount, hfirst⟩ := hlinkage.chain_eq hcoherent hbytes hendian hheader
  have hlinked := hlinkage.linked hcoherent
  have hascending := hlinkage.chained_sorted hcoherent
  generalize hchained : chainedPointers (pointersOf (d.placements unit) (d.aliases unit)) = chained
    at hchain hpointerCount hfirst hlinked hascending
  have hsites : view.chainedSites = chained := by
    rw [Container.UnitReader.chainedSites, Chain.toList, hchain]
    exact hlinked.sites_eq hascending (Nat.le_refl _)
  refine ⟨view, hview, ?_⟩
  exact
    { sites := by rw [hsites, ← hchained, chainedPointers_eq hvalid hlinkage]
      ascending := hsites ▸ hascending
      ends := by
        rw [hsites, hchain]
        exact fun n hn => hlinked.sites_eq hascending hn
      count := by rw [hsites, hpointerCount]
      first := by rw [hsites, hfirst]
      positions := by
        rw [hsites, ← hchained]
        exact fun p hp => hlinkage.chained_ne_noPointers hcoherent hp }

/-- The first data unit of the mixed draft has three chained sites among others, the second none. -/
theorem link_chain_mixed : ∃ d packed r view empty, mixed = some d ∧ d.link = .ok packed ∧
    Container.Reader.ofBytes packed.bytes = .ok r ∧ r.unit? 0 = some view ∧
    view.chainedSites.map (fun p => (p.position.toNat, p.target.toNat))
      = [(32, 16), (40, 64), (72, 16)] ∧
    r.unit? 1 = some empty ∧ empty.header.firstPointer = Container.noPointers := by
  have hcheck : mixed.any (fun d => d.link.toOption.isSome && d.units.length = 2 &&
      d.chainedSites 0 = [(32, 16), (40, 64), (72, 16)] && d.chainedSites 1 = []) = true := by
    decide +kernel
  simp only [Option.any_eq_true, Bool.and_eq_true, decide_eq_true_eq, Option.isSome_iff_exists,
    toOption_eq_some] at hcheck
  obtain ⟨d, hd, ⟨⟨⟨packed, hpacked⟩, hunits⟩, hfirst⟩, hsecond⟩ := hcheck
  obtain ⟨r, hr, -, hviews⟩ := link_chain (reachable_of_after? hd) hpacked
  obtain ⟨view, hview, hchained⟩ := hviews 0 (by omega)
  obtain ⟨empty, hempty, hnone⟩ := hviews 1 (by omega)
  refine ⟨d, packed, r, view, empty, hd, hpacked, hr, hview, hchained.sites.trans hfirst, hempty, ?_⟩
  have hsites := hnone.sites.trans hsecond
  rw [List.map_eq_nil_iff] at hsites
  rw [hnone.first, hsites]
  rfl

end Draft

end ObjectPack
