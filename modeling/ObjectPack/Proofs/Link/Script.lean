import ObjectPack.Proofs.Draft.Link
import ObjectPack.Proofs.Draft.Shift
import ObjectPack.Proofs.Packing.Pool
import ObjectPack.Proofs.Packing.Text

/-!
# Scripts

A session is a draft together with the pools of texts that take their references from its supply; a
script is a list of steps on a session.  A script calls references by the order in which they are taken,
so the same script can be run with any supply (`Session.play`).

Where a script is played from a supply that begins later, all steps succeed that succeed from the
earlier one, and the sessions are shifted throughout (`Session.Shifted.after?`).  So both drafts are
linked to the same container (`Session.Shifted.link`).
-/

namespace ObjectPack

open Outcome

/-- A draft and the pools of texts that share its supply. -/
structure Session where
  draft : Draft
  pools : List TextPool

namespace Session

/-- One step of a script. -/
inductive Step where
  /-- An operation on the draft. -/
  | draft (op : Operation)
  | newPool
  /-- A text is added to a pool. -/
  | addText (pool : Nat) (text : String)
  /-- Texts of a pool are written into a block. -/
  | fillTexts (pool : Nat) (block : Reference) (indices : List Nat)
  deriving Repr

/-- Whether what a step names has been taken from the supply of a draft. -/
def Step.KnownIn (step : Step) (d : Draft) : Prop :=
  match step with
  | .draft op => op.KnownIn d
  | .fillTexts _ block _ => block.id < d.supply.next
  | _ => True

instance (step : Step) (d : Draft) : Decidable (step.KnownIn d) := by
  unfold Step.KnownIn
  split <;> infer_instance

/-- A step that names the renamed reference. -/
def Step.rename (f : Reference → Reference) : Step → Step
  | .draft op => .draft (op.rename f)
  | .fillTexts pool block indices => .fillTexts pool (f block) indices
  | step => step

/-- The session after a step. -/
def apply (s : Session) : Step → Except Fault Session
  | .draft op => do return { s with draft := ← s.draft.apply op }
  | .newPool => .ok { s with pools := s.pools ++ [.empty] }
  | .addText pool text => do
    let texts ← indexed s.pools[pool]?
    let (_, texts, supply) := texts.add s.draft.supply text
    return ⟨{ s.draft with supply := supply }, s.pools.set pool texts⟩
  | .fillTexts pool block indices => do
    let texts ← indexed s.pools[pool]?
    return { s with draft := ← texts.fillBlock s.draft block indices }

/-- The session after some steps; none if one of them fails or names an unknown reference. -/
def after? (s : Session) : List Step → Option Session
  | [] => some s
  | step :: steps =>
    if step.KnownIn s.draft then
      match s.apply step with
      | .ok s' => s'.after? steps
      | .error _ => none
    else none

/-- The session that a script leads to.  The script calls the first reference that is taken from the
supply number 1, and so on. -/
def play (platform : Platform) (encoding : PointerEncoding) (supply : Supply) (script : List Step) :
    Option Session :=
  after? ⟨.blank platform encoding supply, []⟩ (script.map (·.rename (.shift (supply.next - 1))))

variable {t : Nat} {s s' w w' : Session}

/-! ### Soundness -/

/-- What holds of the sessions that scripts lead to. -/
structure Sound (s : Session) : Prop where
  valid : s.draft.Valid
  numbered : s.draft.Numbered
  known : ∀ texts ∈ s.pools, ∀ entry ∈ texts.entries, entry.reference.id < s.draft.supply.next

/-- Moves of the draft keep a session sound. -/
theorem Sound.moves (h : s.Sound) {allowed : PointerEncoding → Prop} {d : Draft}
    (moves : Draft.Moves allowed s.draft d) : Sound { s with draft := d } where
  valid := h.valid.moves moves
  numbered := moves.numbered h.valid h.numbered
  known texts htexts entry hentry :=
    Nat.lt_of_lt_of_le (h.known texts htexts entry hentry) moves.supply_le

theorem Sound.addText (h : s.Sound) {pool : Nat} {texts : TextPool} (found : s.pools[pool]? = some texts)
    (text : String) : Sound ⟨{ s.draft with supply := (texts.add s.draft.supply text).2.2 },
      s.pools.set pool (texts.add s.draft.supply text).2.1⟩ := by
  unfold TextPool.add
  split
  · refine ⟨h.valid, h.numbered, fun p hp => ?_⟩
    rcases List.mem_or_eq_of_mem_set hp with hold | rfl
    · exact h.known p hold
    · exact h.known _ (List.mem_of_getElem? found)
  · have htake : Draft.Moves (fun _ => True) s.draft s.draft.takeReference.2 :=
      .single (.takeReference s.draft)
    have hmove := h.moves htake
    refine ⟨hmove.valid, hmove.numbered, fun p hp => ?_⟩
    rcases List.mem_or_eq_of_mem_set hp with hold | rfl
    · exact hmove.known p hold
    · intro entry hentry
      rcases List.mem_append.mp hentry with hold | hnew
      · exact hmove.known _ (List.mem_of_getElem? found) entry hold
      · rw [List.mem_singleton.mp hnew]
        exact Nat.lt_succ_self _

/-- What a step does to a sound session: the draft moves, a pool is new, or a text is added to a pool. -/
theorem Sound.apply_cases (h : s.Sound) {step : Step} (known : step.KnownIn s.draft)
    (applied : s.apply step = .ok s') :
    (∃ allowed d, Draft.Moves allowed s.draft d ∧ s' = { s with draft := d }) ∨
    s' = { s with pools := s.pools ++ [.empty] } ∨
    ∃ pool texts text, s.pools[pool]? = some texts ∧
      s' = ⟨{ s.draft with supply := (texts.add s.draft.supply text).2.2 },
        s.pools.set pool (texts.add s.draft.supply text).2.1⟩ := by
  cases step with
  | draft op =>
    simp only [Session.apply, bind_eq_ok, pure_eq_ok] at applied
    obtain ⟨d, happlied, rfl⟩ := applied
    exact .inl ⟨_, d, Draft.apply_moves known (op.encodesIn_any s.draft) happlied, rfl⟩
  | newPool => exact .inr (.inl (Except.ok.inj applied).symm)
  | addText pool text =>
    simp only [Session.apply, bind_eq_ok, indexed_eq_ok, pure_eq_ok] at applied
    obtain ⟨texts, htexts, rfl⟩ := applied
    exact .inr (.inr ⟨pool, texts, text, htexts, rfl⟩)
  | fillTexts pool block indices =>
    simp only [Session.apply, bind_eq_ok, indexed_eq_ok, pure_eq_ok] at applied
    obtain ⟨texts, htexts, d, hfill, rfl⟩ := applied
    have hopened := hfill
    simp only [TextPool.fillBlock, bind_eq_ok] at hopened
    obtain ⟨-, -, d₁, hopened, -⟩ := hopened
    obtain ⟨-, unit, -, -, hunit, -⟩ := Draft.openBlock_eq_ok.mp hopened
    exact .inl ⟨_, d, (TextPool.fillBlock_marked h.valid hunit (h.known texts (List.mem_of_getElem? htexts))
      hfill).1.moves, rfl⟩

theorem Sound.apply (h : s.Sound) {step : Step} (known : step.KnownIn s.draft)
    (applied : s.apply step = .ok s') : s'.Sound := by
  rcases h.apply_cases known applied with ⟨_, d, hmoves, rfl⟩ | rfl | ⟨pool, texts, text, hfound, rfl⟩
  · exact h.moves hmoves
  · refine ⟨h.valid, h.numbered, fun texts htexts => ?_⟩
    rcases List.mem_append.mp htexts with hold | hnew
    · exact h.known texts hold
    · rw [List.mem_singleton.mp hnew]
      exact fun entry hentry => absurd hentry List.not_mem_nil
  · exact h.addText hfound text

/-- What every step keeps holds of the sessions that come about by steps. -/
theorem after?_keeps {P : Session → Prop}
    (keeps : ∀ s step s', P s → step.KnownIn s.draft → s.apply step = .ok s' → P s') (h : P s) {steps : List Step}
    (run : s.after? steps = some w) : P w := by
  induction steps generalizing s with
  | nil => exact Option.some.inj run ▸ h
  | cons step steps ih =>
    unfold Session.after? at run
    split at run
    · rename_i known
      split at run
      · rename_i s' applied
        exact ih (keeps s step s' h known applied) run
      · cases run
    · cases run

theorem Sound.after? (h : s.Sound) {steps : List Step} (run : s.after? steps = some w) : w.Sound :=
  after?_keeps (fun _ _ _ hsound known applied => hsound.apply known applied) h run

theorem sound_blank (platform : Platform) (encoding : PointerEncoding) (supply : Supply) :
    Sound ⟨.blank platform encoding supply, []⟩ where
  valid := Draft.blank_valid platform encoding supply
  numbered := Draft.blank_numbered platform encoding supply
  known _ htexts := absurd htexts List.not_mem_nil

/-! ### Shifted sessions -/

/-- Whether a session is another one from a supply that began `t` references later. -/
structure Shifted (t : Nat) (s s' : Session) : Prop where
  draft : s.draft.Shifted t s'.draft
  pools : s'.pools = s.pools.map (·.rename (.shift t))

theorem Shifted.knownIn (h : Shifted t s s') {step : Step} (known : step.KnownIn s.draft) :
    (step.rename (.shift t)).KnownIn s'.draft := by
  cases step with
  | draft op => exact h.draft.knownIn known
  | fillTexts pool block indices => exact h.draft.shift_lt known
  | newPool => trivial
  | addText pool text => trivial

theorem Shifted.pool (h : Shifted t s s') (pool : Nat) :
    Follows (fun a b => b = a.rename (.shift t)) (indexed s.pools[pool]?) (indexed s'.pools[pool]?) := by
  intro texts hfound
  rw [indexed_eq_ok] at hfound
  refine ⟨_, ?_, rfl⟩
  rw [indexed_eq_ok, h.pools, List.getElem?_map, hfound]
  rfl

/-- A step on a session succeeds on the shifted one. -/
theorem Shifted.apply (h : Shifted t s s') (step : Step) :
    Follows (Shifted t) (s.apply step) (s'.apply (step.rename (.shift t))) := by
  cases step with
  | draft op => exact (h.draft.apply op).bind fun _ _ hd => .ok ⟨hd, h.pools⟩
  | newPool =>
    refine .ok ⟨h.draft, ?_⟩
    rw [h.pools, List.map_append]
    rfl
  | addText pool text =>
    refine (h.pool pool).bind ?_
    rintro texts _ rfl
    rw [h.draft.supply, texts.add_rename (h.draft.fresh _ (Nat.le_refl _))]
    have hpools : s'.pools.set pool ((texts.add s.draft.supply text).2.1.rename (.shift t))
        = (s.pools.set pool (texts.add s.draft.supply text).2.1).map (·.rename (.shift t)) := by
      rw [h.pools, List.map_set]
    exact .ok ⟨h.draft.withSupply (texts.le_add _ text), hpools⟩
  | fillTexts pool block indices =>
    refine (h.pool pool).bind ?_
    rintro texts _ rfl
    exact (TextPool.fillBlock_renamed h.draft texts block indices).bind fun _ _ hd => .ok ⟨hd, h.pools⟩

/-- Some steps on a session succeed on the shifted one. -/
theorem Shifted.after? (h : Shifted t s s') {steps : List Step} (run : s.after? steps = some w) :
    ∃ w', s'.after? (steps.map (·.rename (.shift t))) = some w' ∧ Shifted t w w' := by
  induction steps generalizing s s' with
  | nil =>
    obtain rfl := Option.some.inj run
    exact ⟨s', rfl, h⟩
  | cons step steps ih =>
    unfold Session.after? at run
    split at run
    · rename_i known
      split at run
      · rename_i s₁ applied
        obtain ⟨s₁', applied', h₁⟩ := h.apply step s₁ applied
        obtain ⟨w', run', hw⟩ := ih h₁ run
        refine ⟨w', ?_, hw⟩
        rw [List.map_cons]
        unfold Session.after?
        rw [if_pos (h.knownIn known), applied']
        exact run'
      · cases run
    · cases run

/-- Shifted sessions are linked to one container. -/
theorem Shifted.link (h : Shifted t w w') (sound : w.Sound) (sound' : w'.Sound)
    (suffice : w.draft.DigestsSuffice) (suffice' : w'.draft.DigestsSuffice) :
    Follows Eq w.draft.link w'.draft.link :=
  h.draft.link sound.valid sound'.valid sound.numbered sound'.numbered suffice suffice'

/-! ### Scripts from two supplies -/

theorem Step.rename_rename (f g : Reference → Reference) (step : Step) :
    (step.rename f).rename g = step.rename (g ∘ f) := by
  cases step with
  | draft op => cases op <;> rfl
  | _ => rfl

/-- What a script leads to is sound. -/
theorem play_sound {platform : Platform} {encoding : PointerEncoding} {supply : Supply}
    {script : List Step} (run : play platform encoding supply script = some w) : w.Sound :=
  (sound_blank platform encoding supply).after? run

/-- From a later supply a script leads to a shifted session. -/
theorem play_shifted {platform : Platform} {encoding : PointerEncoding} {n : Nat} {script : List Step}
    (positive : 0 < n) (run : play platform encoding ⟨n⟩ script = some w) :
    ∃ w', play platform encoding ⟨n + t⟩ script = some w' ∧ Shifted t w w' := by
  have hblank : Shifted t ⟨.blank platform encoding ⟨n⟩, []⟩ ⟨.blank platform encoding ⟨n + t⟩, []⟩ :=
    ⟨Draft.blank_shifted positive platform encoding, rfl⟩
  obtain ⟨w', run', h⟩ := hblank.after? run
  refine ⟨w', ?_, h⟩
  have hsteps : (script.map (·.rename (.shift (n - 1)))).map (·.rename (.shift t))
      = script.map (·.rename (.shift (n + t - 1))) := by
    rw [List.map_map]
    refine List.map_congr_left fun step _ => ?_
    rw [Function.comp_apply, Step.rename_rename, Reference.shift_comp_shift]
    exact congrArg (fun k => step.rename (.shift k)) (by omega)
  rw [hsteps] at run'
  exact run'

end Session

end ObjectPack
