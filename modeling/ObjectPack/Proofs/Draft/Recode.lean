import ObjectPack.Proofs.Draft.Transcript
import ObjectPack.Proofs.Section.Recode

/-!
# Scripts in another encoding

A script that leaves it to the draft how references are written can be run with any encoding.  Its transcript
then names the other encoding in its references and is the same apart from that (`Transcript.of_recode`).  So
the drafts hold the same contents, with their sites in the two encodings (`Transcript.sections_recode`).
-/

namespace ObjectPack

variable {m : PointerEncoding} {d d' : Draft} {platform : Platform} {supply : Supply}

/-- An entry whose reference is written in another encoding. -/
def Entry.recode (m : PointerEncoding) : Entry → Entry
  | .reference target _ => .reference target m
  | entry => entry

/-- A filling with all its sites in another encoding. -/
def Filling.recode (m : PointerEncoding) (f : Filling) : Filling :=
  { f with sites := f.sites.map (·.recode m) }

/-- A chapter with all its references in another encoding. -/
def Chapter.recode (m : PointerEncoding) (c : Chapter) : Chapter :=
  { c with entries := c.entries.map (·.recode m) }

/-- The encoding shows in the sites only. -/
theorem Filling.add_recode (e : Endian) (f : Filling) (entry : Entry) :
    (f.recode m).add e (entry.recode m) = (f.add e entry).recode m := by
  unfold Filling.add Filling.recode
  cases entry <;> simp [Entry.recode, Entry.bytesAt, Entry.sitesAt, Entry.marksAt, Site.recode]

theorem Filling.of_recode (e : Endian) (entries : List Entry) :
    Filling.of e (entries.map (·.recode m)) = (Filling.of e entries).recode m := by
  have hfold : ∀ f : Filling, (entries.map (·.recode m)).foldl (Filling.add e) (f.recode m)
      = (entries.foldl (Filling.add e) f).recode m := by
    induction entries with
    | nil => exact fun _ => rfl
    | cons entry entries ih =>
      intro f
      rw [List.map_cons, List.foldl_cons, List.foldl_cons, Filling.add_recode]
      exact ih _
  exact hfold .empty

/-- The entries of an operation that leaves the encoding to the draft. -/
theorem Operation.Plain.entries_recode {op : Operation} (h : op.Plain) (n : PointerEncoding) :
    (op.entries n).map (·.recode m) = op.entries m := by
  cases op with
  | writeReferenceAs => cases h
  | _ => rfl

namespace Transcript

/-- A transcript with all references in another encoding. -/
def recode (m : PointerEncoding) (t : Transcript) : Transcript :=
  { t with
    encoding := m
    opened := t.opened.map (·.recode m)
    closed := t.closed.map (·.recode m) }

/-- Whether an operation leaves the encoding to the draft shows in what is noted of it. -/
theorem note_recode (t : Transcript) {op : Operation} (h : op.Plain) :
    (t.recode m).note op = (t.note op).recode m := by
  have hwrites : ∀ entries entries' : List Entry, entries.map (·.recode m) = entries' →
      (t.opened.map (·.recode m)).map (fun c : Chapter => { c with entries := c.entries ++ entries' })
        = (t.opened.map fun c : Chapter => { c with entries := c.entries ++ entries }).map (·.recode m) := by
    rintro entries _ rfl
    cases t.opened with
    | none => rfl
    | some c => simp [Chapter.recode]
  have hentries := h.entries_recode (m := m) t.encoding
  cases op with
  | setEncoding => cases h
  | writeReferenceAs => cases h
  | openBlock reference =>
    unfold recode note
    cases t.unit <;> rfl
  | closeBlock =>
    unfold recode note
    cases t.opened <;> simp
  | write step => exact congrArg (Transcript.mk _ _ _ _ · _) (hwrites _ _ hentries)
  | writeReference target => exact congrArg (Transcript.mk _ _ _ _ · _) (hwrites _ _ hentries)
  | writeText target byteCount charCount =>
    exact congrArg (Transcript.mk _ _ _ _ · _) (hwrites _ _ hentries)
  | mark target => exact congrArg (Transcript.mk _ _ _ _ · _) (hwrites _ _ hentries)
  | _ => rfl

/-- The transcript of a script in another encoding. -/
theorem of_recode {n : PointerEncoding} {ops : List Operation} (plain : ∀ op ∈ ops, op.Plain) :
    of m ops = (of n ops).recode m := by
  have hfold : ∀ t : Transcript, ops.foldl note (t.recode m) = (ops.foldl note t).recode m := by
    induction ops with
    | nil => exact fun _ => rfl
    | cons op ops ih =>
      intro t
      rw [List.foldl_cons, List.foldl_cons, note_recode t (plain op List.mem_cons_self)]
      exact ih (fun op hop => plain op (List.mem_cons_of_mem _ hop)) _
  exact hfold (empty n)

theorem chapters_recode (t : Transcript) (m : PointerEncoding) :
    (t.recode m).chapters = t.chapters.map (·.recode m) := by
  unfold chapters recode
  rw [List.map_append]
  cases t.opened <;> rfl

theorem fillingOf_recode (t : Transcript) (m : PointerEncoding) (e : Endian) (block : Reference) :
    (t.recode m).fillingOf e block = (t.fillingOf e block).map fun f => (f.1, f.2.recode m) := by
  unfold fillingOf
  rw [chapters_recode, List.find?_map, Option.map_map, Option.map_map]
  have hsame : ((fun c : Chapter => decide (c.block = block)) ∘ fun c : Chapter => c.recode m)
      = fun c : Chapter => decide (c.block = block) := rfl
  rw [hsame]
  refine congrArg (Option.map · _) (funext fun c => ?_)
  exact congrArg (Prod.mk c.unit) (Filling.of_recode e c.entries)

variable {t : Transcript}

/-- In another encoding a script registers the same. -/
theorem Tells.bare_recode (h : t.Tells platform supply d) (h' : (t.recode m).Tells platform supply d') :
    d'.bare = d.bare :=
  Option.some.inj (h'.bare.symm.trans h.bare)

theorem Tells.endian_recode (h : t.Tells platform supply d) (h' : (t.recode m).Tells platform supply d') :
    d'.endian = d.endian :=
  congrArg (·.platform.endian) (h.bare_recode h')

/-- In another encoding a draft holds the same, with its sites in that encoding. -/
theorem Tells.contents_recode (h : t.Tells platform supply d) (h' : (t.recode m).Tells platform supply d')
    (valid : d.Valid) (valid' : d'.Valid) :
    d'.contents = d.contents.map fun c => (c.1, c.2.map fun f => (f.1, f.2.recode m)) := by
  have hregistered : d'.registered = d.registered := congrArg Draft.blocks (h.bare_recode h')
  rw [h'.contents valid' (.refl _), h.contents valid (.refl _), hregistered, h.endian_recode h', List.map_map]
  refine List.map_congr_left fun block _ => ?_
  rw [fillingOf_recode]
  rfl

/-- The sections of a data unit are the same, with their sites in the other encoding. -/
theorem Tells.sections_recode (h : t.Tells platform supply d) (h' : (t.recode m).Tells platform supply d')
    (valid : d.Valid) (valid' : d'.Valid) (unit : Nat) :
    d'.sections unit = (d.sections unit).map (·.recode m) := by
  rw [Draft.sections_eq, Draft.sections_eq, h.contents_recode h' valid valid', List.filterMap_map,
    List.map_filterMap]
  refine List.filterMap_congr fun c _ => ?_
  obtain ⟨block, f⟩ := c
  cases f with
  | none => rfl
  | some f =>
    show (if f.1 = unit then _ else none) = Option.map _ (if f.1 = unit then _ else none)
    split <;> rfl

end Transcript

namespace Draft

/-- A script that leaves the encoding to the draft writes all sites in that of the draft. -/
theorem Run.sections_encoded {encoding : PointerEncoding} {ops : List Operation}
    (run : Run (blank platform encoding supply) ops d) (plain : ∀ op ∈ ops, op.Plain) (unit : Nat) :
    ∀ s ∈ d.sections unit, s.EncodedIn encoding := by
  have hencoded : d.EncodedIn (· = encoding) :=
    (run.moves_of_plain plain).encodedIn fun _ hblock => absurd hblock List.not_mem_nil
  intro s hs site hsite
  obtain ⟨block, hblock, body, hbody, -, rfl⟩ := mem_sections.mp hs
  exact hencoded block hblock body hbody site hsite

end Draft

end ObjectPack
