import Mathlib.Data.List.Nodup
import Mathlib.Data.List.Induction
import Mathlib.Data.List.Pairwise
import ObjectPack.Draft.Section
import ObjectPack.Proofs.Outcome
import ObjectPack.Proofs.Sorting

/-!
# Sites by target

While blocks are merged, the sites of a block are kept by their targets: each reference that the block refers to has
the list of the places where it does (`Grouped`).  To replace a reference is then to take its list out and to join it
to the list of the other one (`Grouped.replace`).  However often that is done, no site is lost
(`Grouped.sites_replace`), no reference has two lists, none is left without places, and each list stays in the order of
the offsets (`Grouped.Kept`).  So the sites of the block in the order of their offsets are known from the sites that it
had at the start (`Grouped.sorted_eq`).
-/

namespace ObjectPack

/-- Where and how a block refers to something that is told elsewhere. -/
structure Place where
  offset : Nat
  encoding : PointerEncoding
  deriving DecidableEq, Repr

/-- A place of a known target. -/
def Place.toSite (target : Reference) (p : Place) : Site := ⟨p.offset, target, p.encoding⟩

/-- The site with one reference in the place of another one. -/
def Site.redirect (old new : Reference) (s : Site) : Site :=
  { s with target := if s.target = old then new else s.target }

theorem Site.redirect_of_ne {old : Reference} {s : Site} (h : s.target ≠ old) (new : Reference) :
    Site.redirect old new s = s := by
  rw [redirect, if_neg h]

/-- Slots that stand one behind the other begin one behind the other. -/
theorem Site.offset_lt {a b : Site} (h : a.offset + Pointer.slotSize ≤ b.offset) : a.offset < b.offset :=
  Nat.lt_of_lt_of_le (Nat.lt_add_of_pos_right (by decide)) h

/-- The sites of a block by their targets, in the order in which the targets came up. -/
abbrev Grouped := List (Reference × List Place)

namespace Grouped

/-- Changes the list of a reference; one that has none gets the end of the order. -/
def update (target : Reference) (f : List Place → List Place) : Grouped → Grouped
  | [] => [(target, f [])]
  | (r, places) :: rest => if r = target then (r, f places) :: rest else (r, places) :: update target f rest

/-- Adds a site behind the others of its target. -/
def add (g : Grouped) (s : Site) : Grouped := g.update s.target (· ++ [⟨s.offset, s.encoding⟩])

/-- The sites of a block as they have been written one after another. -/
def ofSites (sites : List Site) : Grouped := sites.foldl add []

/-- Sorts places by their offsets. -/
def sortPlaces (places : List Place) : List Place := Sorting.sortBy (fun a b => a.offset ≤ b.offset) places

/-- Joins the places of one reference to those of another one. -/
def replace (g : Grouped) (old new : Reference) : Grouped :=
  match g.lookup old with
  | none => g
  | some places => Grouped.update new (fun l => sortPlaces (l ++ places)) (g.filter (·.1 ≠ old))

/-- All sites, target by target. -/
def sites (g : Grouped) : List Site := g.flatMap fun p => p.2.map (Place.toSite p.1)

/-- Whether a site comes before another one by offset, target and encoding. -/
def siteLe (a b : Site) : Bool :=
  a.offset < b.offset || a.offset == b.offset &&
    Sorting.lexLe (a.target.id, a.encoding.marker.toNat) (b.target.id, b.encoding.marker.toNat)

/-- All sites in the order of their offsets. -/
def sorted (g : Grouped) : List Site := Sorting.sortBy siteLe g.sites

variable {g : Grouped} {target old new r : Reference} {places : List Place} {f : List Place → List Place} {l : List Site}

/-! ### Changing lists -/

@[simp] theorem sites_nil : sites [] = [] := rfl

@[simp] theorem sites_cons (p : Reference × List Place) (g : Grouped) :
    sites (p :: g) = p.2.map (Place.toSite p.1) ++ g.sites := List.flatMap_cons

/-- What a list gains, the sites gain. -/
theorem sites_update (gains : ∀ l, (f l).Perm (l ++ places)) (target : Reference) (g : Grouped) :
    (g.update target f).sites.Perm (g.sites ++ places.map (Place.toSite target)) := by
  induction g with
  | nil => simpa [update] using (gains []).map (Place.toSite target)
  | cons p rest ih =>
    obtain ⟨r, l⟩ := p
    rw [update]
    split
    · rename_i heq
      subst heq
      rw [sites_cons, sites_cons, List.append_assoc]
      refine (((gains l).map _).append_right _).trans ?_
      rw [List.map_append, List.append_assoc]
      exact List.Perm.append_left _ List.perm_append_comm
    · rw [sites_cons, sites_cons, List.append_assoc]
      exact ih.append_left _

theorem fst_mem_update : r ∈ (g.update target f).map Prod.fst ↔ r ∈ g.map Prod.fst ∨ r = target := by
  induction g with
  | nil => simp [update]
  | cons p rest ih =>
    rw [update]
    split
    · rename_i heq
      simp only [List.map_cons, List.mem_cons, ← heq]
      tauto
    · simp only [List.map_cons, List.mem_cons, ih]
      tauto

theorem nodup_update (h : (g.map Prod.fst).Nodup) : ((g.update target f).map Prod.fst).Nodup := by
  induction g with
  | nil => exact List.nodup_singleton target
  | cons p rest ih =>
    obtain ⟨hnot, hrest⟩ := List.nodup_cons.mp h
    rw [update]
    split
    · exact h
    · rename_i hne
      refine List.nodup_cons.mpr ⟨fun hmem => ?_, ih hrest⟩
      rcases fst_mem_update.mp hmem with hmem | heq
      · exact hnot hmem
      · exact hne heq

/-- Lists that have a property keep it if the one that changes does. -/
theorem forall_update {P : List Place → Prop} (all : ∀ p ∈ g, P p.2) (none : P (f []))
    (some : ∀ l, P l → (target, l) ∈ g → P (f l)) : ∀ p ∈ g.update target f, P p.2 := by
  induction g with
  | nil => exact List.forall_mem_singleton.mpr none
  | cons p rest ih =>
    obtain ⟨r, l⟩ := p
    obtain ⟨hfirst, hrest⟩ := List.forall_mem_cons.mp all
    rw [update]
    split
    · rename_i heq
      subst heq
      exact List.forall_mem_cons.mpr ⟨some l hfirst List.mem_cons_self, hrest⟩
    · exact List.forall_mem_cons.mpr ⟨hfirst, ih hrest fun l hl hmem => some l hl (List.mem_cons_of_mem _ hmem)⟩

/-! ### What replacing keeps -/

/-- Whether each reference has one list, and each list holds places, in the order of their offsets. -/
structure Kept (g : Grouped) : Prop where
  once : (g.map Prod.fst).Nodup
  held : ∀ p ∈ g, p.2 ≠ []
  ordered : ∀ p ∈ g, p.2.Pairwise fun a b => a.offset ≤ b.offset

theorem sortPlaces_perm (l : List Place) : (sortPlaces l).Perm l := Sorting.sortBy_perm _ l

theorem sortPlaces_pairwise (l : List Place) : (sortPlaces l).Pairwise fun a b => a.offset ≤ b.offset := by
  have hsorted := @Sorting.sortBy_pairwise Place (fun a b => a.offset ≤ b.offset)
    (fun a b => by simpa using Nat.le_total a.offset b.offset)
    (fun a b c hab hbc => by simpa using Nat.le_trans (of_decide_eq_true hab) (of_decide_eq_true hbc)) l
  exact hsorted.imp of_decide_eq_true

theorem replace_of_none (h : g.lookup old = none) (new : Reference) : g.replace old new = g := by
  rw [replace, h]

theorem replace_of_some (h : g.lookup old = some places) (new : Reference) :
    g.replace old new = Grouped.update new (fun l => sortPlaces (l ++ places)) (g.filter (·.1 ≠ old)) := by
  rw [replace, h]

theorem Kept.replace (h : g.Kept) (old new : Reference) : (g.replace old new).Kept := by
  cases hlookup : g.lookup old with
  | none => rwa [replace_of_none hlookup]
  | some places =>
    have hheld : ∀ l, sortPlaces (l ++ places) ≠ [] := fun l hnil => by
      have hperm := sortPlaces_perm (l ++ places)
      rw [hnil] at hperm
      exact h.held _ (Outcome.mem_of_lookup hlookup) (List.append_eq_nil_iff.mp hperm.nil_eq.symm).2
    rw [replace_of_some hlookup]
    exact
      { once := nodup_update (h.once.sublist (List.filter_sublist.map _))
        held := forall_update (P := (· ≠ [])) (fun p hp => h.held p (List.mem_of_mem_filter hp)) (hheld [])
          fun l _ _ => hheld l
        ordered := forall_update (P := List.Pairwise fun a b => a.offset ≤ b.offset)
          (fun p hp => h.ordered p (List.mem_of_mem_filter hp)) (sortPlaces_pairwise _) fun l _ _ => sortPlaces_pairwise _ }

/-! ### No site is lost -/

theorem filter_sites (p : Reference → Bool) (g : Grouped) :
    g.sites.filter (fun s => p s.target) = Grouped.sites (g.filter fun q => p q.1) := by
  induction g with
  | nil => rfl
  | cons q rest ih =>
    have hfirst : (q.2.map (Place.toSite q.1)).filter (fun s => p s.target) =
        if p q.1 then q.2.map (Place.toSite q.1) else [] := by
      split
      · rename_i hp
        exact List.filter_eq_self.mpr (List.forall_mem_map.mpr fun _ _ => hp)
      · rename_i hp
        exact List.filter_eq_nil_iff.mpr (List.forall_mem_map.mpr fun _ _ => hp)
    rw [sites_cons, List.filter_append, hfirst, ih, List.filter_cons]
    split <;> rfl

/-- The list of a reference holds all the sites that refer to it. -/
theorem sites_of_lookup (once : (g.map Prod.fst).Nodup) (h : g.lookup old = some places) :
    g.sites.filter (·.target = old) = places.map (Place.toSite old) := by
  obtain ⟨before, behind, rfl, -⟩ := List.lookup_eq_some_iff.mp h
  rw [List.map_append, List.map_cons, List.nodup_append, List.nodup_cons] at once
  obtain ⟨-, ⟨hbehind, -⟩, hbefore⟩ := once
  have hother : ∀ l : Grouped, old ∉ l.map Prod.fst → l.filter (fun q => q.1 = old) = [] := fun l hl =>
    List.filter_eq_nil_iff.mpr fun q hq heq => hl (of_decide_eq_true heq ▸ List.mem_map_of_mem hq)
  have hlist := filter_sites (fun r => decide (r = old)) (before ++ (old, places) :: behind)
  rw [List.filter_append, hother before fun hmem => hbefore old hmem old List.mem_cons_self rfl,
    List.filter_cons_of_pos (by simp), hother behind hbehind] at hlist
  simpa using hlist

theorem sites_of_none (h : g.lookup old = none) : ∀ s ∈ g.sites, s.target ≠ old := by
  intro s hs heq
  obtain ⟨q, hq, hs⟩ := List.mem_flatMap.mp hs
  obtain ⟨p, -, rfl⟩ := List.mem_map.mp hs
  exact Outcome.lookup_eq_none_iff.mp h (List.mem_map.mpr ⟨q, hq, heq⟩)

theorem map_redirect_of_ne {l : List Site} (h : ∀ s ∈ l, s.target ≠ old) (new : Reference) :
    l.map (Site.redirect old new) = l :=
  (List.map_congr_left fun s hs => Site.redirect_of_ne (h s hs) new).trans (List.map_id' l)

/-- Replacing a reference replaces it in all sites, and does nothing else to them. -/
theorem sites_replace (once : (g.map Prod.fst).Nodup) (old new : Reference) :
    (g.replace old new).sites.Perm (g.sites.map (Site.redirect old new)) := by
  cases hlookup : g.lookup old with
  | none => rw [replace_of_none hlookup, map_redirect_of_ne (sites_of_none hlookup) new]
  | some places =>
    -- The sites of other targets stay, and those of this one are its places.
    have hother : (g.sites.filter (·.target ≠ old)).map (Site.redirect old new) =
        Grouped.sites (g.filter (·.1 ≠ old)) := by
      rw [map_redirect_of_ne (fun s hs => of_decide_eq_true (List.mem_filter.mp hs).2) new]
      exact filter_sites (fun r => decide (r ≠ old)) g
    have hplaces : (g.sites.filter fun s => !decide (s.target ≠ old)).map (Site.redirect old new) =
        places.map (Place.toSite new) := by
      simp only [decide_not, Bool.not_not, sites_of_lookup once hlookup, List.map_map]
      refine List.map_congr_left fun p _ => ?_
      simp [Place.toSite, Site.redirect]
    have hall := (List.filter_append_perm (fun s : Site => decide (s.target ≠ old)) g.sites).map (Site.redirect old new)
    rw [List.map_append, hother, hplaces] at hall
    rw [replace_of_some hlookup]
    exact (sites_update (fun l => sortPlaces_perm (l ++ places)) new _).trans hall

/-! ### Sites in the order of their offsets -/

theorem siteLe_iff {a b : Site} : siteLe a b = true ↔ a.offset < b.offset ∨ a.offset = b.offset ∧
    (a.target.id < b.target.id ∨ a.target.id = b.target.id ∧ a.encoding.marker.toNat ≤ b.encoding.marker.toNat) := by
  simp [siteLe, Sorting.lexLe_iff]

theorem sorted_perm (g : Grouped) : g.sorted.Perm g.sites := Sorting.sortBy_perm siteLe g.sites

theorem pairwise_sorted (g : Grouped) : g.sorted.Pairwise fun a b => siteLe a b = true := by
  refine Sorting.sortBy_pairwise (fun a b => ?_) (fun a b c hab hbc => ?_) _
  · rw [siteLe_iff, siteLe_iff]
    omega
  · rw [siteLe_iff] at hab hbc ⊢
    omega

/-- Sites that stand one behind the other are in the order of their offsets, however they are grouped. -/
theorem sorted_eq (perm : g.sites.Perm l) (apart : l.Pairwise fun a b => a.offset < b.offset) : g.sorted = l := by
  have hperm : g.sorted.Perm l := g.sorted_perm.trans perm
  have hsorted : l.Pairwise fun a b => siteLe a b = true := apart.imp fun h => siteLe_iff.mpr (Or.inl h)
  refine hperm.eq_of_pairwise (fun a b ha hb hab hba => ?_) (pairwise_sorted g) hsorted
  rw [siteLe_iff] at hab hba
  -- No two sites have one offset.
  by_contra hne
  have hsym : l.Pairwise fun a b => a.offset ≠ b.offset := apart.imp Nat.ne_of_lt
  have : Std.Symm fun a b : Site => a.offset ≠ b.offset := ⟨fun _ _ h => h.symm⟩
  exact hsym.forall (hperm.mem_iff.mp ha) hb hne (by omega)

/-! ### Sites as they are written -/

theorem sites_add (g : Grouped) (s : Site) : (g.add s).sites.Perm (g.sites ++ [s]) :=
  sites_update (fun _ => .refl _) s.target g

/-- Adding a site that stands behind all others keeps what is kept. -/
theorem Kept.add (h : g.Kept) {s : Site} (behind : ∀ t ∈ g.sites, t.offset ≤ s.offset) : (g.add s).Kept where
  once := nodup_update h.once
  held := forall_update (P := (· ≠ [])) h.held (List.cons_ne_nil _ _) fun l _ _ hnil =>
    List.cons_ne_nil _ _ (List.append_eq_nil_iff.mp hnil).2
  ordered := forall_update (P := List.Pairwise fun a b => a.offset ≤ b.offset) h.ordered (List.pairwise_singleton _ _)
    fun l hl hmem => by
      refine List.pairwise_append.mpr ⟨hl, List.pairwise_singleton _ _, fun p hp q hq => ?_⟩
      rw [List.mem_singleton.mp hq]
      exact behind _ (List.mem_flatMap.mpr ⟨_, hmem, List.mem_map_of_mem hp⟩)

/-- Sites that are written one behind the other are grouped as they are to be kept, and none is lost. -/
theorem ofSites_kept (apart : l.Pairwise fun a b => a.offset < b.offset) :
    (ofSites l).Kept ∧ (ofSites l).sites.Perm l := by
  induction l using List.reverseRecOn with
  | nil => exact ⟨⟨List.nodup_nil, List.forall_mem_nil _, List.forall_mem_nil _⟩, .refl _⟩
  | append_singleton l s ih =>
    obtain ⟨hl, -, hlast⟩ := List.pairwise_append.mp apart
    obtain ⟨hkept, hperm⟩ := ih hl
    rw [ofSites, List.foldl_append]
    refine ⟨hkept.add fun t ht => ?_, (sites_add _ s).trans (hperm.append_right _)⟩
    exact Nat.le_of_lt (hlast t (hperm.mem_iff.mp ht) s List.mem_cons_self)

/-- There are sites where there are lists. -/
theorem Kept.sorted_eq_nil (h : g.Kept) : g.sorted = [] ↔ g = [] := by
  refine ⟨fun hnil => ?_, fun hnil => hnil ▸ rfl⟩
  have hsites : g.sites = [] := (hnil ▸ g.sorted_perm).nil_eq.symm
  cases g with
  | nil => rfl
  | cons p rest =>
    rw [sites_cons, List.append_eq_nil_iff, List.map_eq_nil_iff] at hsites
    exact absurd hsites.1 (h.held p List.mem_cons_self)

end Grouped

end ObjectPack
