import ObjectPack.Proofs.Draft.State
import ObjectPack.Proofs.Section.InPlace

/-!
# The state of merging

Merging the blocks of a data unit goes on in place, pass after pass (`Merger.pass`): blocks that repeat an earlier one
are taken out and written down as aliases of it, and the references to them are replaced in the blocks that are left.
A pass does to the blocks what it does to their sections (`Merger.Intact.pass`).

What has to agree in this state with the blocks of the start is `Merger.Consistent`: aliases lead from blocks that have
been merged to ones registered before them, never round in a circle, and in the end to a block that is left; no block
that is left refers to a merged one; its sites are those of the start with the targets that following the aliases leads
to; every slot holds the number of its target, and nothing else of the buffer has changed.  It holds after any number
of passes over the blocks of any data unit of a draft that operations have produced, the data units before it having
been merged (`Draft.Reachable.merging_consistent`).  With so many passes as there are blocks merging comes to its end,
and what is left are the merged sections (`Draft.Reachable.merging_ends`).

Aliases that are followed step by step and aliases of which the later ones have been put into the earlier ones lead to
the same (`Aliases.Ends.append`).  So what is known of the latter (`Section.Merging`) carries over; what it does not
say is kept pass by pass beside it (`Merger.Traced`).
-/

namespace ObjectPack

open Outcome

namespace Aliases

/-- Whether following aliases from a reference comes to an end at another one. -/
inductive Ends (a : Aliases) : Reference → Reference → Prop
  | last {r : Reference} (none : a.lookup r = none) : Ends a r r
  | next {r s t : Reference} (some : a.lookup r = some s) (rest : Ends a s t) : Ends a r t

variable {a new : Aliases} {r s t : Reference}

/-- There is one end only. -/
theorem Ends.unique (h : a.Ends r s) (h' : a.Ends r t) : s = t := by
  induction h with
  | last hnone =>
    cases h' with
    | last => rfl
    | next hsome => cases hnone.symm.trans hsome
  | next hsome _ ih =>
    cases h' with
    | last hnone => cases hnone.symm.trans hsome
    | next hsome' hrest =>
      cases hsome.symm.trans hsome'
      exact ih hrest

/-- Where following aliases ends there is no alias. -/
theorem Ends.notMem (h : a.Ends r t) : t ∉ a.map Prod.fst := by
  induction h with
  | last hnone => exact lookup_eq_none_iff.mp hnone
  | next _ _ ih => exact ih

/-- New aliases of references that had none lead on from where the old ones ended. -/
theorem Ends.append (h : a.Ends r t) (fresh : ∀ r ∈ new.map Prod.fst, r ∉ a.map Prod.fst)
    (settled : ∀ p ∈ new, p.2 ∉ (new ++ a).map Prod.fst) : (new ++ a).Ends r (new.resolve t) := by
  induction h with
  | @last r hnone =>
    cases hlookup : new.lookup r with
    | none =>
      rw [resolve, hlookup]
      exact .last (by rw [List.lookup_append, hlookup, hnone]; rfl)
    | some s =>
      rw [resolve_of_lookup hlookup]
      refine .next (s := s) (by rw [List.lookup_append, hlookup]; rfl) (.last ?_)
      exact lookup_eq_none_iff.mpr (settled _ (mem_of_lookup hlookup))
  | @next r s t hsome _ ih =>
    have hnew : new.lookup r = none := by
      refine lookup_eq_none_iff.mpr fun hmem => ?_
      have hnone := lookup_eq_none_iff.mpr (fresh r hmem)
      cases hnone.symm.trans hsome
    exact .next (by rw [List.lookup_append, hnew, hsome]; rfl) ih

/-- Aliases of different references may stand in any order. -/
theorem resolve_reverse (once : (a.map Prod.fst).Nodup) (r : Reference) :
    resolve a.reverse r = a.resolve r := by
  by_cases hmem : r ∈ a.map Prod.fst
  · obtain ⟨⟨_, t⟩, hp, rfl⟩ := List.mem_map.mp hmem
    have hreverse : (a.reverse.map Prod.fst).Nodup := by rwa [List.map_reverse, List.nodup_reverse]
    rw [resolve_of_lookup (lookup_of_mem once hp),
      resolve_of_lookup (lookup_of_mem hreverse (List.mem_reverse.mpr hp))]
  · rw [resolve_of_not_mem hmem, resolve_of_not_mem]
    rwa [List.map_reverse, List.mem_reverse]

end Aliases

/-! ### Passes -/

/-- The state of merging the blocks of a data unit. -/
structure Merger where
  /-- The buffer that the blocks of all data units share. -/
  buffer : Bytes
  /-- The blocks that are left. -/
  blocks : List StoredBlock
  /-- The blocks that have been merged, as they have been left behind. -/
  merged : List StoredBlock
  /-- What the merged blocks have been merged into, the latest first. -/
  aliases : Aliases

namespace Merger

/-- Lists whose elements agree in something have it in common. -/
theorem map_eq_of_forall₂ {α β γ : Type} {R : α → β → Prop} {f : α → γ} {g : β → γ} {l : List α} {l' : List β}
    (h : List.Forall₂ R l l') (same : ∀ a b, R a b → g b = f a) : l'.map g = l.map f := by
  induction h with
  | nil => rfl
  | cons hR _ ih => rw [List.map_cons, List.map_cons, same _ _ hR, ih]

/-- Splits blocks into those whose digest is new and those that repeat an earlier one, and tells what the latter have
been merged into.  `seen` holds the digests met so far. -/
def scan (buffer : Bytes) : List (Digest × Reference) → List StoredBlock →
    List StoredBlock × List StoredBlock × Aliases
  | _, [] => ([], [], [])
  | seen, b :: rest =>
    match seen.lookup (b.digest buffer) with
    | some first =>
      let (kept, gone, replaced) := scan buffer seen rest
      (kept, b :: gone, (b.reference, first) :: replaced)
    | none =>
      let (kept, gone, replaced) := scan buffer ((b.digest buffer, b.reference) :: seen) rest
      (b :: kept, gone, replaced)

/-- The blocks that the next pass keeps. -/
def kept (w : Merger) : List StoredBlock := (scan w.buffer [] w.blocks).1

/-- The blocks that the next pass merges. -/
def gone (w : Merger) : List StoredBlock := (scan w.buffer [] w.blocks).2.1

/-- What the next pass merges them into. -/
def replaced (w : Merger) : Aliases := (scan w.buffer [] w.blocks).2.2

/-- One pass over the blocks that are left; where it merges none the merging has come to its end. -/
def pass (e : Endian) (w : Merger) : Merger :=
  if w.replaced = [] then w
  else
    let (blocks, buffer) := StoredBlock.redirectBlocks e w.replaced w.kept w.buffer
    ⟨buffer, blocks, w.merged ++ w.gone, w.replaced.foldl (fun aliases p => p :: aliases) w.aliases⟩

/-- What holds of the blocks while they are merged. -/
structure Intact (e : Endian) (w : Merger) : Prop where
  blocks : ∀ b ∈ w.blocks ++ w.merged, b.Intact e w.buffer
  apart : (w.blocks ++ w.merged).Pairwise StoredBlock.Apart

/-- The sections of the blocks that are left. -/
def sections (w : Merger) : List Section := w.blocks.map (·.toSection w.buffer)

variable {e : Endian} {w : Merger} {buffer : Bytes} {seen : List (Digest × Reference)} {blocks : List StoredBlock}

/-- A scan in place splits the sections. -/
theorem split_sections (kept : ∀ b ∈ blocks, b.pointers.Kept) :
    Section.split seen (blocks.map (·.toSection buffer)) =
      ((scan buffer seen blocks).1.map (·.toSection buffer), (scan buffer seen blocks).2.2) := by
  induction blocks generalizing seen with
  | nil => rfl
  | cons b rest ih =>
    obtain ⟨hb, hrest⟩ := List.forall_mem_cons.mp kept
    rw [List.map_cons, Section.split, scan, ← StoredBlock.digest_eq hb buffer]
    cases seen.lookup (b.digest buffer) with
    | some first =>
      simp only [ih hrest]
      rfl
    | none =>
      simp only [ih hrest, List.map_cons]
      rfl

theorem scan_sublist (buffer : Bytes) (seen : List (Digest × Reference)) (blocks : List StoredBlock) :
    (scan buffer seen blocks).1.Sublist blocks := by
  induction blocks generalizing seen with
  | nil => exact .slnil
  | cons b rest ih =>
    rw [scan]
    split
    · exact (ih _).cons b
    · exact (ih _).cons_cons b

/-- Every block is kept or merged. -/
theorem scan_perm (buffer : Bytes) (seen : List (Digest × Reference)) (blocks : List StoredBlock) :
    ((scan buffer seen blocks).1 ++ (scan buffer seen blocks).2.1).Perm blocks := by
  induction blocks generalizing seen with
  | nil => exact .nil
  | cons b rest ih =>
    rw [scan]
    split
    · exact List.perm_middle.trans ((ih _).cons b)
    · exact (ih _).cons b

/-- What has been merged is what is replaced. -/
theorem scan_merged (buffer : Bytes) (seen : List (Digest × Reference)) (blocks : List StoredBlock) :
    (scan buffer seen blocks).2.2.map Prod.fst = (scan buffer seen blocks).2.1.map (·.reference) := by
  induction blocks generalizing seen with
  | nil => rfl
  | cons b rest ih =>
    rw [scan]
    split
    · exact congrArg (b.reference :: ·) (ih _)
    · exact ih _

/-! ### What a pass does -/

/-- What a pass makes of the blocks of a data unit. -/
structure Passed (e : Endian) (w w' : Merger) : Prop where
  intact : w'.Intact e
  sections : w'.sections = Section.afterPass e w.sections
  aliases : w'.aliases = (Section.merges w.sections).reverse ++ w.aliases
  merged : w'.merged.map (·.reference) = w.merged.map (·.reference) ++ (Section.merges w.sections).map Prod.fst
  stays : ∀ b' ∈ w'.blocks, ∃ b ∈ w.blocks, b.Stays b'
  /-- Nothing of the buffer changes but slots of the blocks that are left. -/
  buffer : Bytes.AgreeWhere (fun i => ∀ b ∈ w'.blocks, b.Outside i) w.buffer w'.buffer

theorem kept_append_gone (w : Merger) : (w.kept ++ (w.merged ++ w.gone)).Perm (w.blocks ++ w.merged) := by
  refine List.Perm.trans (List.perm_append_comm.append_left w.kept) ?_
  rw [← List.append_assoc]
  exact (scan_perm w.buffer [] w.blocks).append_right w.merged

theorem apart_symm {b c : StoredBlock} (h : b.Apart c) : c.Apart b := Or.symm h

theorem Intact.split_sections (h : w.Intact e) :
    Section.split [] w.sections = (w.kept.map (·.toSection w.buffer), w.replaced) :=
  Merger.split_sections fun b hb => (h.blocks b (List.mem_append_left _ hb)).kept

theorem Intact.pass_eq_self (h : w.Intact e) (none : Section.merges w.sections = []) : w.pass e = w :=
  if_pos ((congrArg Prod.snd h.split_sections).symm.trans none)

theorem Intact.kept_and_gone (h : w.Intact e) :
    (∀ b ∈ w.kept ++ (w.merged ++ w.gone), b.Intact e w.buffer) ∧
      (w.kept ++ (w.merged ++ w.gone)).Pairwise StoredBlock.Apart := by
  have hperm := w.kept_append_gone
  exact ⟨fun b hb => h.blocks b (hperm.mem_iff.mp hb), (hperm.pairwise_iff apart_symm).mpr h.apart⟩

/-- The references to the blocks that a pass merges are replaced in the blocks that it keeps. -/
theorem Intact.redirected (h : w.Intact e) (coherent : Section.Coherent w.sections) :
    ∃ blocks buffer, StoredBlock.redirectBlocks e w.replaced w.kept w.buffer = (blocks, buffer) ∧
      List.Forall₂ (StoredBlock.Redirected e w.replaced w.buffer buffer) w.kept blocks ∧
      Bytes.AgreeWhere (fun i => ∀ b ∈ w.kept, b.Outside i) w.buffer buffer := by
  obtain ⟨hintact, hapart⟩ := h.kept_and_gone
  have hmerges : Section.merges w.sections = w.replaced := congrArg Prod.snd h.split_sections
  have hsettled : ∀ p ∈ w.replaced, p.2 ∉ w.replaced.map Prod.fst := hmerges ▸ Section.merges_settled coherent
  exact ⟨_, _, rfl, StoredBlock.redirectBlocks_redirected hsettled (List.forall_mem_append.mp hintact).1
    (List.pairwise_append.mp hapart).1⟩

/-- A pass does to the blocks what it does to their sections. -/
theorem Intact.pass (h : w.Intact e) (coherent : Section.Coherent w.sections) : Passed e w (w.pass e) := by
  have hmerges : Section.merges w.sections = w.replaced := congrArg Prod.snd h.split_sections
  by_cases hnone : w.replaced = []
  · have hnothing := hmerges.trans hnone
    rw [Merger.pass, if_pos hnone]
    refine ⟨h, (Section.afterPass_eq_self hnothing e).symm, ?_, ?_, fun b hb => ⟨b, hb, b.stays_self⟩, .refl _ _⟩
    · rw [hnothing]
      rfl
    · rw [hnothing]
      exact (List.append_nil _).symm
  · obtain ⟨hall, hapart⟩ := h.kept_and_gone
    obtain ⟨hkept, hrest⟩ := List.forall_mem_append.mp hall
    obtain ⟨-, -, hcross⟩ := List.pairwise_append.mp hapart
    obtain ⟨blocks', buffer', hresult, hredirected, hagree⟩ := h.redirected coherent
    have hpass : w.pass e = ⟨buffer', blocks', w.merged ++ w.gone, w.replaced.reverse ++ w.aliases⟩ := by
      rw [Merger.pass, if_neg hnone, List.foldl_flip_cons_eq_append', hresult]
    have hpartner := fun b' (hb' : b' ∈ blocks') => exists_of_forall₂ hredirected.flip hb'
    have hextents : blocks'.map StoredBlock.extent = w.kept.map StoredBlock.extent :=
      map_eq_of_forall₂ hredirected fun _ _ h => Prod.ext h.start h.size
    rw [hpass]
    exact
      { intact :=
          { blocks := by
              refine List.forall_mem_append.mpr ⟨fun b' hb' => ?_, fun c hc => (hrest c hc).congr (hagree.mono ?_)⟩
              · obtain ⟨b, -, h⟩ := hpartner b' hb'
                exact h.intact
              · -- No slot of a block that is kept lies in a block that has been merged.
                exact fun i hi b hb => (hkept b hb).outside_of_apart (hcross b hb c hc) hi
            apart := StoredBlock.pairwise_apart_congr (by simp only [List.map_append, hextents]) hapart }
        sections := by
          rw [Section.afterPass, hmerges, h.split_sections, List.map_map]
          exact map_eq_of_forall₂ hredirected fun _ _ h => h.toSection
        aliases := by rw [hmerges]
        merged := by
          rw [hmerges, List.map_append]
          exact congrArg (_ ++ ·) (scan_merged w.buffer [] w.blocks).symm
        stays := fun b' hb' => by
          obtain ⟨b, hb, h⟩ := hpartner b' hb'
          exact ⟨b, (scan_sublist _ _ _).subset hb, h.stays⟩
        buffer := hagree.mono fun i hi b hb => by
          obtain ⟨b', hb', h⟩ := exists_of_forall₂ hredirected hb
          exact (h.stays.outside i).mp (hi b' hb') }

/-! ### What all passes keep -/

/-- What any number of passes has made of the blocks of a data unit.  `through` are the aliases with the later ones put
into the earlier ones. -/
structure Traced (e : Endian) (buffer : Bytes) (originals : List StoredBlock) (w : Merger) (through : Aliases) :
    Prop where
  intact : w.Intact e
  merging : Section.Merging (originals.map (·.toSection buffer)) w.sections through
  ends : ∀ r, w.aliases.Ends r (through.resolve r)
  /-- Every block is left or has been merged. -/
  parted : (w.blocks.map (·.reference) ++ w.aliases.map Prod.fst).Perm (originals.map (·.reference))
  merged : (w.merged.map (·.reference)).Perm (w.aliases.map Prod.fst)
  earlier : ∀ p ∈ w.aliases, [p.2, p.1].Sublist (originals.map (·.reference))
  stays : ∀ b ∈ w.blocks, ∃ o ∈ originals, o.Stays b
  agree : Bytes.AgreeWhere (fun i => ∀ o ∈ originals, o.Outside i) buffer w.buffer

variable {originals : List StoredBlock} {through : Aliases}

theorem references_sections (w : Merger) : w.sections.map (·.reference) = w.blocks.map (·.reference) := List.map_map

theorem references_toSection (originals : List StoredBlock) (buffer : Bytes) :
    (originals.map (·.toSection buffer)).map (·.reference) = originals.map (·.reference) := List.map_map

/-- Before the first pass. -/
theorem Traced.start (intact : Merger.Intact e ⟨buffer, originals, [], []⟩)
    (coherent : Section.Coherent (originals.map (·.toSection buffer))) :
    Traced e buffer originals ⟨buffer, originals, [], []⟩ [] where
  intact := intact
  merging := Section.merging_start coherent
  ends _ := .last rfl
  parted := .of_eq (List.append_nil _)
  merged := .nil
  earlier := List.forall_mem_nil _
  stays b hb := ⟨b, hb, b.stays_self⟩
  agree := .refl _ _

/-- Every block that was left before a pass is left or has been merged by it. -/
theorem Passed.parted {w' : Merger} (h : Passed e w w') :
    (w'.blocks.map (·.reference) ++ (Section.merges w.sections).map Prod.fst).Perm (w.blocks.map (·.reference)) := by
  have hkept : w'.blocks.map (·.reference) = (Section.split [] w.sections).1.map (·.reference) := by
    rw [← references_sections, h.sections]
    exact List.map_map
  rw [hkept, ← references_sections]
  exact Section.split_references [] w.sections

/-- What the next pass merges, and what it merges that into, has no alias. -/
theorem Traced.unaliased (h : Traced e buffer originals w through)
    (coherent : Section.Coherent (originals.map (·.toSection buffer))) {p : Reference × Reference}
    (hp : p ∈ Section.merges w.sections) : p.1 ∉ w.aliases.map Prod.fst ∧ p.2 ∉ w.aliases.map Prod.fst := by
  have honce : (w.blocks.map (·.reference) ++ w.aliases.map Prod.fst).Nodup :=
    h.parted.nodup_iff.mpr (references_toSection originals buffer ▸ coherent.referencesOnce)
  have hleft : ∀ r ∈ w.blocks.map (·.reference), r ∉ w.aliases.map Prod.fst := fun r hr hmem =>
    (List.nodup_append.mp honce).2.2 r hr r hmem rfl
  have hearlier := Section.merges_earlier hp
  rw [references_sections] at hearlier
  exact ⟨hleft p.1 (hearlier.subset (List.mem_cons_of_mem _ List.mem_cons_self)),
    hleft p.2 (hearlier.subset List.mem_cons_self)⟩

/-- Following the aliases after a pass leads to what stands in for the end that was led to before. -/
theorem Traced.ends_pass (h : Traced e buffer originals w through)
    (coherent : Section.Coherent (originals.map (·.toSection buffer))) (r : Reference) :
    Aliases.Ends ((Section.merges w.sections).reverse ++ w.aliases) r
      ((through.compose (Section.merges w.sections)).resolve r) := by
  have honce : ((Section.merges w.sections).map Prod.fst).Nodup :=
    (List.nodup_append.mp ((Section.split_references [] w.sections).nodup_iff.mpr h.merging.coherent.referencesOnce)).2.1
  rw [Aliases.resolve_compose, ← Aliases.resolve_reverse honce]
  refine (h.ends r).append (fun r hr => ?_) fun p hp => ?_
  · obtain ⟨p, hp, rfl⟩ := List.mem_map.mp hr
    exact (h.unaliased coherent (List.mem_reverse.mp hp)).1
  · rw [List.mem_reverse] at hp
    rw [List.map_append, List.map_reverse, List.mem_append, List.mem_reverse, not_or]
    exact ⟨Section.merges_settled h.merging.coherent p hp, (h.unaliased coherent hp).2⟩

theorem Traced.pass (h : Traced e buffer originals w through)
    (coherent : Section.Coherent (originals.map (·.toSection buffer))) :
    Traced e buffer originals (w.pass e) (through.compose (Section.merges w.sections)) := by
  have hpassed := h.intact.pass h.merging.coherent
  have hstays : ∀ b' ∈ (w.pass e).blocks, ∃ o ∈ originals, o.Stays b' := by
    intro b' hb'
    obtain ⟨b, hb, hlast⟩ := hpassed.stays b' hb'
    obtain ⟨o, ho, hfirst⟩ := h.stays b hb
    exact ⟨o, ho, hfirst.trans hlast⟩
  exact
    { intact := hpassed.intact
      merging := by
        rw [hpassed.sections]
        exact h.merging.afterPass e
      ends := by
        rw [hpassed.aliases]
        exact h.ends_pass coherent
      parted := by
        rw [hpassed.aliases, List.map_append, List.map_reverse, ← List.append_assoc]
        refine (List.Perm.append_right _ ?_).trans h.parted
        exact ((List.reverse_perm _).append_left _).trans hpassed.parted
      merged := by
        rw [hpassed.merged, hpassed.aliases, List.map_append, List.map_reverse]
        exact (h.merged.append (List.reverse_perm _).symm).trans List.perm_append_comm
      earlier := by
        rw [hpassed.aliases]
        refine List.forall_mem_append.mpr ⟨fun p hp => ?_, h.earlier⟩
        have horder := h.merging.order
        rw [references_toSection] at horder
        exact (Section.merges_earlier (List.mem_reverse.mp hp)).trans horder
      stays := hstays
      agree := by
        refine h.agree.trans (hpassed.buffer.mono fun i hi b hb => ?_)
        obtain ⟨o, ho, hstay⟩ := hstays b hb
        exact (hstay.outside i).mpr (hi o ho) }

/-- Passes in place do what passes over the sections do; where these come to their end nothing changes any more. -/
theorem Traced.passes (h : Traced e buffer originals w through)
    (coherent : Section.Coherent (originals.map (·.toSection buffer))) (passes : Nat) :
    ((Merger.pass e)^[passes] w).sections = (Section.mergePasses e passes w.sections through).1 ∧
      Traced e buffer originals ((Merger.pass e)^[passes] w) (Section.mergePasses e passes w.sections through).2 := by
  induction passes generalizing w through with
  | zero => exact ⟨rfl, h⟩
  | succ passes ih =>
    rw [Section.mergePasses_succ]
    split
    · rename_i hnone
      rw [Function.iterate_fixed (h.intact.pass_eq_self hnone)]
      exact ⟨rfl, h⟩
    · have hpassed := h.intact.pass h.merging.coherent
      have hrest := ih (h.pass coherent)
      rwa [hpassed.sections] at hrest

/-! ### Consistency -/

/-- How the state of merging agrees with the blocks of the start and with the buffer that they stood in. -/
structure Consistent (e : Endian) (buffer : Bytes) (originals : List StoredBlock) (w : Merger) : Prop where
  /-- Every block is left or has been merged, and none is both. -/
  parted : (w.blocks.map (·.reference) ++ w.merged.map (·.reference)).Perm (originals.map (·.reference))
  /-- The blocks that have been merged are those that have an alias, each of them one. -/
  once : (w.merged.map (·.reference)).Perm (w.aliases.map Prod.fst) ∧ (w.aliases.map Prod.fst).Nodup
  /-- What a block has been merged into is a block that has been registered before it. -/
  earlier : ∀ p ∈ w.aliases, [p.2, p.1].Sublist (originals.map (·.reference))
  acyclic : ∀ r, ¬ Relation.TransGen (fun r s => w.aliases.lookup r = some s) r r
  /-- Aliases of any block lead to one that is left. -/
  resolved : ∀ o ∈ originals, ∃ b ∈ w.blocks, w.aliases.Ends o.reference b.reference
  /-- No block that is left refers to a block that has been merged. -/
  targets : ∀ b ∈ w.blocks, ∀ s ∈ b.pointers.sites, s.target ∉ w.merged.map (·.reference)
  /-- A block that is left has the place, the alignment, the marks and the sites that it had at the start, the latter
  with the targets that aliases lead to. -/
  survivors : ∀ b ∈ w.blocks, ∃ o ∈ originals, o.Stays b ∧ List.Forall₂
    (fun s t => t.offset = s.offset ∧ t.encoding = s.encoding ∧ w.aliases.Ends s.target t.target)
    o.pointers.sorted b.pointers.sorted
  /-- The sites of a block have one list for each target, in the order of their offsets. -/
  lists : ∀ b ∈ w.blocks, b.pointers.Kept
  /-- The slot of every site holds the number of what is kept as its target. -/
  slots : ∀ b ∈ w.blocks ++ w.merged, ∀ s ∈ b.pointers.sites,
    Bytes.HasAt w.buffer (b.start + s.offset) (Section.placeholder e s.target)
  /-- Nothing of the buffer has changed but slots. -/
  untouched : Bytes.AgreeWhere (fun i => ∀ o ∈ originals, o.Outside i) buffer w.buffer

/-- Aliases that lead from later references to earlier ones never lead round in a circle. -/
theorem not_circular {references : List Reference} {aliases : Aliases} (once : references.Nodup)
    (earlier : ∀ p ∈ aliases, [p.2, p.1].Sublist references) (r : Reference) :
    ¬ Relation.TransGen (fun r s => aliases.lookup r = some s) r r := by
  have hstep : ∀ r s, aliases.lookup r = some s → references.idxOf s < references.idxOf r := fun r s h =>
    Section.idxOf_lt_of_sublist once (earlier (r, s) (mem_of_lookup h))
  have hall : ∀ s, Relation.TransGen (fun r s => aliases.lookup r = some s) r s →
      references.idxOf s < references.idxOf r := by
    intro s h
    induction h with
    | single h => exact hstep _ _ h
    | tail _ h ih => exact Nat.lt_trans (hstep _ _ h) ih
  exact fun h => Nat.lt_irrefl _ (hall r h)

/-- A block that is left is the one of the start with its reference, and its sites are those of the start with the
targets that stand in for theirs. -/
theorem Traced.exists_original (h : Traced e buffer originals w through)
    (once : (originals.map (·.reference)).Nodup) {b : StoredBlock} (hb : b ∈ w.blocks) :
    ∃ o ∈ originals, o.Stays b ∧
      b.pointers.sorted = o.pointers.sorted.map fun s => { s with target := through.resolve s.target } := by
  obtain ⟨o, ho, hstays⟩ := h.stays b hb
  obtain ⟨-, s, hs, hreference, hstands⟩ := h.merging.survivors _ (List.mem_map_of_mem hb)
  obtain ⟨o', ho', rfl⟩ := List.mem_map.mp hs
  obtain rfl : o' = o := List.inj_on_of_nodup_map once ho' ho (hreference.trans hstays.reference)
  exact ⟨o', ho, hstays, hstands.sites⟩

theorem Traced.consistent (h : Traced e buffer originals w through)
    (coherent : Section.Coherent (originals.map (·.toSection buffer))) : Consistent e buffer originals w := by
  have honce : (originals.map (·.reference)).Nodup := references_toSection originals buffer ▸ coherent.referencesOnce
  exact
    { parted := (h.merged.append_left _).trans h.parted
      once := ⟨h.merged, (List.nodup_append.mp (h.parted.nodup_iff.mpr honce)).2.1⟩
      earlier := h.earlier
      acyclic := not_circular honce h.earlier
      resolved := by
        intro o ho
        obtain ⟨k, hk, hreference⟩ := h.merging.resolved _ (List.mem_map_of_mem ho)
        obtain ⟨b, hb, rfl⟩ := List.mem_map.mp hk
        have hends : b.reference = through.resolve o.reference := hreference
        exact ⟨b, hb, hends ▸ h.ends o.reference⟩
      targets := by
        intro b hb s hs hmem
        obtain ⟨o, -, -, hsorted⟩ := h.exists_original honce hb
        have hsite := b.pointers.sorted_perm.mem_iff.mpr hs
        rw [hsorted] at hsite
        obtain ⟨t, -, rfl⟩ := List.mem_map.mp hsite
        exact (h.ends t.target).notMem (h.merged.subset hmem)
      survivors := by
        intro b hb
        obtain ⟨o, ho, hstays, hsorted⟩ := h.exists_original honce hb
        refine ⟨o, ho, hstays, ?_⟩
        rw [hsorted, List.forall₂_map_right_iff, List.forall₂_same]
        exact fun s _ => ⟨rfl, rfl, h.ends s.target⟩
      lists := fun b hb => (h.intact.blocks b (List.mem_append_left _ hb)).kept
      slots := fun b hb s hs => (h.intact.blocks b hb).slot hs
      untouched := h.agree }

end Merger

/-! ### Merging the data units of a draft -/

namespace Draft

open Relation

/-- The blocks of a data unit in the order of their registration. -/
def stored (d : Draft) (unit : Nat) : List StoredBlock :=
  d.blocks.filterMap fun block =>
    match block.body with
    | some body => if body.unit = unit then some (.of block body) else none
    | none => none

/-- The buffer when the merging of a data unit begins: the data units before it have been merged. -/
def bufferAt (d : Draft) : Nat → Bytes
  | 0 => d.buffer
  | unit + 1 =>
    ((Merger.pass d.endian)^[(d.stored unit).length] ⟨d.bufferAt unit, d.stored unit, [], []⟩).buffer

/-- The state after some passes over a data unit. -/
def mergerAt (d : Draft) (unit passes : Nat) : Merger :=
  (Merger.pass d.endian)^[passes] ⟨d.bufferAt unit, d.stored unit, [], []⟩

variable {d : Draft} {unit : Nat} {b c : StoredBlock}

theorem stored_of_block {block : Block} (h : (match block.body with
      | some body => if body.unit = unit then some (StoredBlock.of block body) else none
      | none => none) = some b) :
    ∃ body, block.body = some body ∧ body.unit = unit ∧ b = .of block body := by
  cases hbody : block.body with
  | none => simp [hbody] at h
  | some body =>
    simp only [hbody, Option.ite_none_right_eq_some, Option.some.injEq] at h
    exact ⟨body, rfl, h.1, h.2.symm⟩

theorem mem_stored (h : b ∈ d.stored unit) :
    ∃ block ∈ d.blocks, ∃ body, block.body = some body ∧ body.unit = unit ∧ b = .of block body := by
  obtain ⟨block, hblock, h⟩ := List.mem_filterMap.mp h
  exact ⟨block, hblock, stored_of_block h⟩

theorem BodyValid.offsets {body : Body} (h : d.BodyValid body) :
    body.sites.Pairwise fun a b => a.offset < b.offset :=
  h.slots.imp Site.offset_lt

theorem toSection_of {body : Body} (valid : d.BodyValid body) (block : Block) :
    (StoredBlock.of block body).toSection d.buffer = d.sectionOf block body := by
  have hsorted := Grouped.sorted_eq (Grouped.ofSites_kept valid.offsets).2 valid.offsets
  rw [StoredBlock.toSection, StoredBlock.of, hsorted]
  rfl

/-- The blocks of a data unit as they are kept while blocks are merged are its sections. -/
theorem sections_stored (valid : d.Valid) (unit : Nat) :
    (d.stored unit).map (·.toSection d.buffer) = d.sections unit := by
  rw [stored, List.map_filterMap, sections]
  refine List.filterMap_congr fun block hblock => ?_
  cases hbody : block.body with
  | none => rfl
  | some body =>
    simp only [Block.section?, hbody, Option.map_some]
    split
    · rw [Option.map_some, toSection_of (valid.bodies block hblock body hbody)]
      rfl
    · rfl

theorem stored_intact (valid : d.Valid) (numbered : d.Numbered) (h : b ∈ d.stored unit) :
    b.Intact d.endian d.buffer := by
  obtain ⟨block, hblock, body, hbody, hunit, rfl⟩ := mem_stored h
  have hvalid := valid.bodies block hblock body hbody
  have hmem := mem_sections.mpr ⟨block, hblock, body, hbody, hunit, rfl⟩
  exact
    { kept := (Grouped.ofSites_kept hvalid.offsets).1
      inside := hvalid.inside
      wellFormed := toSection_of hvalid block ▸ (valid.coherent unit).wellFormed _ hmem
      numbered := by
        rw [toSection_of hvalid]
        intro site hsite
        refine (StoredBlock.hasAt_content (b := .of block body) ?_).mpr (numbered block hblock body hbody site hsite)
        rw [Section.length_placeholder]
        exact hvalid.slotsInside site hsite }

theorem Reachable.tidy (h : d.Reachable) : d.Tidy := by
  obtain ⟨platform, encoding, supply, ops, run⟩ := h
  exact (blank_tidy platform encoding supply).moves (blank_valid platform encoding supply) run.moves

theorem stored_apart (tidy : d.Tidy) (unit : Nat) : (d.stored unit).Pairwise StoredBlock.Apart := by
  have hblocks : d.blocks.Pairwise fun x y => ∀ a, x.body = some a → ∀ b, y.body = some b →
      a.start + a.size ≤ b.start ∨ b.start + b.size ≤ a.start :=
    List.pairwise_iff_getElem.mpr fun i j hi hj hij a ha b hb =>
      tidy.apart i j a b (Nat.ne_of_lt hij) ⟨_, List.getElem?_eq_getElem hi, ha⟩ ⟨_, List.getElem?_eq_getElem hj, hb⟩
  refine List.pairwise_filterMap.mpr (hblocks.imp fun hapart b hb c hc => ?_)
  obtain ⟨bodyB, hbodyB, -, rfl⟩ := stored_of_block hb
  obtain ⟨bodyC, hbodyC, -, rfl⟩ := stored_of_block hc
  exact hapart bodyB hbodyB bodyC hbodyC

/-- Blocks of different data units have no byte in common either. -/
theorem apart_of_units (tidy : d.Tidy) {other : Nat} (ne : other ≠ unit) (hb : b ∈ d.stored other)
    (hc : c ∈ d.stored unit) : b.Apart c := by
  obtain ⟨blockB, hblockB, bodyB, hbodyB, hunitB, rfl⟩ := mem_stored hb
  obtain ⟨blockC, hblockC, bodyC, hbodyC, hunitC, rfl⟩ := mem_stored hc
  obtain ⟨i, hi⟩ := List.getElem?_of_mem hblockB
  obtain ⟨j, hj⟩ := List.getElem?_of_mem hblockC
  refine tidy.apart i j bodyB bodyC (fun heq => ne ?_) ⟨blockB, hi, hbodyB⟩ ⟨blockC, hj, hbodyC⟩
  subst heq
  cases hi.symm.trans hj
  cases hbodyB.symm.trans hbodyC
  exact hunitB.symm.trans hunitC

/-- Where the merging of a data unit begins its blocks are as they have been written. -/
theorem Reachable.traced_start (h : d.Reachable) {buffer : Bytes} (agree : Bytes.AgreeWhere
      (fun i => ∀ other < unit, ∀ b ∈ d.stored other, b.Outside i) d.buffer buffer) :
    (d.stored unit).map (·.toSection buffer) = d.sections unit ∧
      Merger.Traced d.endian buffer (d.stored unit) ⟨buffer, d.stored unit, [], []⟩ [] := by
  have hvalid := h.valid
  have hinside : ∀ b ∈ d.stored unit, Bytes.AgreeWhere b.Inside d.buffer buffer := fun b hb =>
    agree.mono fun i hi other hother c hc => (stored_intact hvalid h.numbered hc).outside_of_apart
      (apart_of_units h.tidy (Nat.ne_of_lt hother) hc hb) hi
  have hsections : (d.stored unit).map (·.toSection buffer) = d.sections unit := by
    rw [← sections_stored hvalid]
    exact List.map_congr_left fun b hb => StoredBlock.toSection_congr (hinside b hb)
  refine ⟨hsections, .start ⟨fun b hb => ?_, ?_⟩ (hsections ▸ hvalid.coherent unit)⟩
  · rw [List.append_nil] at hb
    exact (stored_intact hvalid h.numbered hb).congr (hinside b hb)
  · rw [List.append_nil]
    exact stored_apart h.tidy unit

/-- What merging the data units before one leaves of the buffer. -/
theorem Reachable.bufferAt_agree (h : d.Reachable) (unit : Nat) : Bytes.AgreeWhere
    (fun i => ∀ other < unit, ∀ b ∈ d.stored other, b.Outside i) d.buffer (d.bufferAt unit) := by
  induction unit with
  | zero => exact .refl _ _
  | succ unit ih =>
    obtain ⟨hsections, htraced⟩ := h.traced_start ih
    obtain ⟨-, hpassed⟩ := htraced.passes (hsections ▸ h.valid.coherent unit) (d.stored unit).length
    refine (ih.mono fun i hi other hother => hi other (Nat.lt_succ_of_lt hother)).trans (hpassed.agree.mono ?_)
    exact fun i hi => hi unit (Nat.lt_succ_self unit)

/-- Passes in place are passes over the sections of the data unit. -/
theorem Reachable.traced (h : d.Reachable) (unit passes : Nat) :
    (d.mergerAt unit passes).sections = (Section.mergePasses d.endian passes (d.sections unit) []).1 ∧
    Merger.Traced d.endian (d.bufferAt unit) (d.stored unit) (d.mergerAt unit passes)
      (Section.mergePasses d.endian passes (d.sections unit) []).2 := by
  obtain ⟨hsections, hstart⟩ := h.traced_start (h.bufferAt_agree unit)
  have hpassed := hstart.passes (hsections ▸ h.valid.coherent unit) passes
  rwa [show Merger.sections ⟨d.bufferAt unit, d.stored unit, [], []⟩ = d.sections unit from hsections] at hpassed

/-- The state of merging is consistent after any number of passes over any data unit, and it is that of the passes over
the sections.  The buffer is as it has been written but for slots of this data unit and of those before it. -/
theorem Reachable.merging_consistent (h : d.Reachable) (unit passes : Nat) :
    Merger.Consistent d.endian (d.bufferAt unit) (d.stored unit) (d.mergerAt unit passes) ∧
    (d.mergerAt unit passes).sections = (Section.mergePasses d.endian passes (d.sections unit) []).1 ∧
    (∀ r t, (d.mergerAt unit passes).aliases.Ends r t ↔
      (Section.mergePasses d.endian passes (d.sections unit) []).2.resolve r = t) ∧
    Bytes.AgreeWhere (fun i => ∀ other ≤ unit, ∀ b ∈ d.stored other, b.Outside i) d.buffer
      (d.mergerAt unit passes).buffer := by
  have hbefore := h.bufferAt_agree unit
  obtain ⟨hsections, -⟩ := h.traced_start hbefore
  obtain ⟨hsame, htraced⟩ := h.traced unit passes
  refine ⟨htraced.consistent (hsections ▸ h.valid.coherent unit), hsame,
    fun r t => ⟨(htraced.ends r).unique, fun ht => ht ▸ htraced.ends r⟩, ?_⟩
  refine (hbefore.mono fun i hi other hother => hi other (Nat.le_of_lt hother)).trans (htraced.agree.mono ?_)
  exact fun i hi => hi unit (Nat.le_refl unit)

/-- After one pass over the first data unit of the draft with equal blocks. -/
theorem consistent_mixed : ∃ d, mixed = some d ∧ (d.mergerAt 0 1).aliases = [(⟨2⟩, ⟨1⟩)] ∧
    (d.mergerAt 0 1).blocks.map (·.reference) = [⟨1⟩, ⟨3⟩, ⟨4⟩] ∧
    Merger.Consistent d.endian (d.bufferAt 0) (d.stored 0) (d.mergerAt 0 1) := by
  have hcheck : mixed.any (fun d => (d.mergerAt 0 1).aliases = [(⟨2⟩, ⟨1⟩)] &&
      (d.mergerAt 0 1).blocks.map (·.reference) = [⟨1⟩, ⟨3⟩, ⟨4⟩]) = true := by decide +kernel
  simp only [Option.any_eq_true, Bool.and_eq_true, decide_eq_true_eq] at hcheck
  obtain ⟨d, hd, haliases, hblocks⟩ := hcheck
  exact ⟨d, hd, haliases, hblocks, (Reachable.merging_consistent (reachable_of_after? hd) 0 1).1⟩

/-- With so many passes as there are blocks merging comes to its end: what is left are the merged sections, and nothing
changes any more. -/
theorem Reachable.merging_ends (h : d.Reachable) (unit more : Nat) :
    (d.mergerAt unit (d.stored unit).length).sections = (Section.merge d.endian (d.sections unit)).1 ∧
      d.mergerAt unit (more + (d.stored unit).length) = d.mergerAt unit (d.stored unit).length := by
  have hlength : (d.stored unit).length = (d.sections unit).length := by
    rw [← sections_stored h.valid, List.length_map]
  obtain ⟨hsame, htraced⟩ := h.traced unit (d.stored unit).length
  rw [hlength] at hsame
  obtain ⟨-, -, -, -, hend⟩ := Section.merge_passes d.endian (d.sections unit)
  rw [Section.merge, ← hsame, ← hlength] at hend
  refine ⟨hlength ▸ hsame, ?_⟩
  rw [mergerAt, Function.iterate_add_apply]
  exact Function.iterate_fixed (htraced.intact.pass_eq_self hend) more

end Draft

end ObjectPack
