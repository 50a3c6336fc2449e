import ObjectPack.Interface.Declaration

/-!
# Order of definitions

A definition stands behind those that it needs.  It needs the structs that it holds by value and,
where names are not declared in advance, those that it points at.  Definitions become ready in
waves: whenever one is set, those that wait for nothing else follow, in the order in which they
were first seen.  What is never ready lies on a cycle or depends on one.
-/

namespace ObjectPack

/-- The names of definitions that cannot be ordered. -/
structure OrderError where
  names : List String
  deriving DecidableEq, Repr

/-- The explanation of an error. -/
def OrderError.message (e : OrderError) : String :=
  "no valid ordering exists for types: " ++ String.intercalate ", " e.names

open Interface

namespace Model

/-- The names that row `i` needs defined as a field, looking at most `depth` collections deep. -/
def rowDependencies (m : Model) (forward : Bool) : Nat → Nat → Except Fault (List String)
  | 0, _ => .error .outOfRange
  | depth + 1, i => do
    let row ← m.row i
    match row.kind with
    | .struct => return [← m.requireTypeName i]
    | .object | .dataUnit => if forward then return [] else return [← m.requireTypeName i]
    | .array | .dictionary =>
      let base := if forward then [] else row.typeName.toList
      let (first, second) ← row.firstElements
      let firstNames ← match first with
        | some j => rowDependencies m forward depth j
        | none => pure []
      let secondNames ← match second with
        | some j => rowDependencies m forward depth j
        | none => pure []
      return base ++ firstNames ++ secondNames
    | _ => return []

/-- The names that a definition needs defined. -/
def dependencies (m : Model) (forward : Bool) : Definition → Except Fault (List String)
  | .custom c => .ok c.dependencies
  | .object row => do
    let names ← (← m.members row).mapM (m.rowDependencies forward (m.size + 1))
    return names.flatten

end Model

namespace Interface

/-- Definitions that are not set, each with the names that it waits for. -/
abbrev Waiting := List (String × List String)

/-- Waits no longer for a name: the definitions that are ready now, and those that go on waiting. -/
def Waiting.release (w : Waiting) (name : String) : List String × Waiting :=
  let next := w.map fun (n, needs) => (n, needs.filter (· ≠ name))
  ((next.filter (·.2.isEmpty)).map (·.1), next.filter (! ·.2.isEmpty))

/-- Sets at most `steps` definitions, those that are ready first.  The result holds them in order
and what is left waiting. -/
def arrange : Nat → List String → Waiting → List String × Waiting
  | 0, ready, w => (ready, w)
  | _ + 1, [], w => ([], w)
  | steps + 1, name :: ready, w =>
    let (now, w) := w.release name
    let (order, left) := arrange steps (ready ++ now) w
    (name :: order, left)

/-- Orders names so that each stands behind those it needs. -/
def orderNames (needs : Waiting) : Except OrderError (List String) :=
  let ready := (needs.filter (·.2.isEmpty)).map (·.1)
  match arrange needs.length ready (needs.filter (! ·.2.isEmpty)) with
  | (order, []) => .ok order
  | (_, left) => .error ⟨left.map (·.1)⟩

end Interface

/-- The definitions of a model in an order in which each stands behind those it needs. -/
def Model.orderedDefinitions (m : Model) (forward : Bool) (ds : Definitions) :
    Except (Failure OrderError) (List String) := do
  -- Names that nothing defines, and a definition's own name, need no place in the order.
  let needs ← ds.mapM fun (name, d) => do
    let names ← m.dependencies forward d
    return (name, names.filter fun n => n ≠ name && ds.defines n)
  (orderNames needs).mapError .error

end ObjectPack
