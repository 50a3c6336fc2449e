import ObjectPack.Draft.Perform

/-!
# Runs of drafts

Everything that can be done with a draft, as data, and the drafts that come about in this way.  A
reference is a handle: nothing but a supply hands them out, so an operation only names references
that have been taken before (`Operation.KnownIn`).  References can be taken without registering a
block (`takeReference`), which is also how those come about that other drafts and pools of texts
take from the same supply.
-/

namespace ObjectPack

/-- One operation on a draft. -/
inductive Operation where
  /-- A reference is taken from the supply. -/
  | takeReference
  /-- The data unit of a signature is looked up, and registered if it is new. -/
  | registerUnit (signature : Digest)
  | openUnit (index : Nat)
  | closeUnit
  | setRoot (reference : Reference)
  /-- From here on references are written in another encoding where none is named. -/
  | setEncoding (encoding : PointerEncoding)
  | newBlock (alignment : UInt32) (limit : Option UInt32)
  | openBlock (reference : Reference)
  | closeBlock
  /-- A write that is no reference. -/
  | write (step : WriteStep)
  /-- A reference in the encoding of the draft. -/
  | writeReference (reference : Reference)
  /-- A reference in an encoding of its own. -/
  | writeReferenceAs (reference : Reference) (encoding : PointerEncoding)
  | writeText (reference : Reference) (byteCount charCount : UInt32)
  | mark (reference : Reference)
  deriving Repr

namespace Operation

/-- The reference that an operation names. -/
def reference? : Operation → Option Reference
  | .setRoot reference | .openBlock reference | .writeReference reference
  | .writeReferenceAs reference _ | .writeText reference _ _ | .mark reference => some reference
  | _ => none

/-- Whether what an operation names has been taken from the supply of a draft. -/
def KnownIn (op : Operation) (d : Draft) : Prop :=
  ∀ reference ∈ op.reference?, reference.id < d.supply.next

instance (op : Operation) (d : Draft) : Decidable (op.KnownIn d) := by
  unfold KnownIn
  infer_instance

/-- Whether an operation on a draft writes allowed encodings only, and makes only such an encoding that
of the draft. -/
def EncodesIn (op : Operation) (allowed : PointerEncoding → Prop) (d : Draft) : Prop :=
  match op with
  | .setEncoding encoding | .writeReferenceAs _ encoding => allowed encoding
  | .writeReference _ | .writeText .. => allowed d.encoding
  | _ => True

/-- Whether an operation leaves it to the draft how references are written. -/
def Plain : Operation → Prop
  | .setEncoding _ | .writeReferenceAs .. => False
  | _ => True

instance (op : Operation) : Decidable op.Plain := by
  unfold Plain
  split <;> infer_instance

theorem Plain.encodesIn {op : Operation} (h : op.Plain) (d : Draft) :
    op.EncodesIn (· = d.encoding) d := by
  cases op with
  | setEncoding => cases h
  | writeReferenceAs => cases h
  | writeReference => rfl
  | writeText => rfl
  | _ => trivial

/-- Where all encodings are allowed every operation is. -/
theorem encodesIn_any (op : Operation) (d : Draft) : op.EncodesIn (fun _ => True) d := by
  unfold EncodesIn
  split <;> trivial

end Operation

namespace Draft

/-- The draft after an operation. -/
def apply (d : Draft) : Operation → Except Fault Draft
  | .takeReference => .ok d.takeReference.2
  | .registerUnit signature => .ok (d.unitIndex signature).2
  | .openUnit index => d.openUnit index
  | .closeUnit => d.closeUnit
  | .setRoot reference => d.setRoot reference
  | .setEncoding encoding => .ok { d with encoding := encoding }
  | .newBlock alignment limit =>
    (d.newBlock alignment.toNat (limit.map (·.toNat))).map (·.2)
  | .openBlock reference => d.openBlock reference
  | .closeBlock => d.closeBlock
  | .write step => d.perform step
  | .writeReference reference => d.writeReference reference
  | .writeReferenceAs reference encoding => d.writeReferenceAs reference encoding
  | .writeText reference byteCount charCount => d.writeText reference byteCount charCount
  | .mark reference => d.mark reference

/-- The draft after some operations, each of which names known references only. -/
inductive Run : Draft → List Operation → Draft → Prop
  | done (d : Draft) : Run d [] d
  | step {d d' d'' : Draft} {op : Operation} {ops : List Operation} (known : op.KnownIn d)
      (applied : d.apply op = .ok d') (rest : Run d' ops d'') : Run d (op :: ops) d''

/-- Whether a draft comes about by operations on a blank one. -/
def Reachable (d : Draft) : Prop :=
  ∃ platform encoding supply ops, Run (.blank platform encoding supply) ops d

/-- The draft after some operations; none if one of them fails or names an unknown reference. -/
def after? (d : Draft) : List Operation → Option Draft
  | [] => some d
  | op :: ops =>
    if op.KnownIn d then
      match d.apply op with
      | .ok d' => d'.after? ops
      | .error _ => none
    else none

theorem after?_append (d : Draft) (ops later : List Operation) :
    d.after? (ops ++ later) = (d.after? ops).bind (·.after? later) := by
  induction ops generalizing d with
  | nil => rfl
  | cons op ops ih =>
    rw [List.cons_append, after?, after?]
    split
    · split
      · exact ih _
      · rfl
    · rfl

theorem run_of_after? {d d' : Draft} {ops : List Operation} (h : d.after? ops = some d') :
    Run d ops d' := by
  induction ops generalizing d with
  | nil =>
    cases h
    exact .done _
  | cons op ops ih =>
    unfold after? at h
    split at h
    · rename_i known
      split at h
      · rename_i next applied
        exact .step known applied (ih h)
      · cases h
    · cases h

theorem reachable_of_after? {platform : Platform} {encoding : PointerEncoding} {supply : Supply}
    {ops : List Operation} {d : Draft}
    (h : (blank platform encoding supply).after? ops = some d) : d.Reachable :=
  ⟨platform, encoding, supply, ops, run_of_after? h⟩

/-- Two equal blocks, and a third one that refers to both and holds a null reference. -/
def twinOperations : List Operation :=
  [.registerUnit .empty, .openUnit 0, .newBlock 4 none, .newBlock 4 none, .newBlock 8 none,
    .openBlock ⟨1⟩, .write (.scalar (.u32 7)), .closeBlock,
    .openBlock ⟨2⟩, .write (.scalar (.u32 7)), .closeBlock,
    .openBlock ⟨3⟩, .writeReference ⟨1⟩, .write .nullReference, .writeReference ⟨2⟩, .mark ⟨0⟩,
    .closeBlock, .setRoot ⟨3⟩, .closeUnit]

/-- The draft of these operations. -/
def twins (encoding : PointerEncoding) : Option Draft :=
  (blank .win64 encoding .full).after? twinOperations

/-- Two data units: one with two equal blocks and two others that refer to them and to each other in
all encodings, and one with an empty block at a greater alignment. -/
def mixedOperations : List Operation :=
  [.registerUnit .empty, .openUnit 0, .newBlock 4 none, .newBlock 4 none, .newBlock 8 none,
    .newBlock 32 none,
    .openBlock ⟨1⟩, .write (.scalar (.u32 7)), .closeBlock,
    .openBlock ⟨2⟩, .write (.scalar (.u32 7)), .closeBlock,
    .openBlock ⟨3⟩, .writeReferenceAs ⟨1⟩ .absolute, .writeReferenceAs ⟨2⟩ .chained,
    .writeReferenceAs ⟨4⟩ .chained, .closeBlock,
    .openBlock ⟨4⟩, .writeReferenceAs ⟨3⟩ .relative, .writeReferenceAs ⟨1⟩ .chained, .closeBlock,
    .setRoot ⟨3⟩, .closeUnit,
    .registerUnit ⟨1⟩, .openUnit 1, .newBlock 64 none, .openBlock ⟨5⟩, .closeBlock, .closeUnit]

/-- The draft of these operations. -/
def mixed : Option Draft := (blank .win64 .chained .full).after? mixedOperations

end Draft

end ObjectPack
