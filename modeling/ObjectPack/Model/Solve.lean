import ObjectPack.Model.Layout

/-!
# Solving the layout

Two steps make the objects of a model compact.  First the booleans of every object are folded into
words of 32 bits.  Then the rows of every object are sorted by descending alignment, by kind and by
name, which leaves no gaps between them.

Sorting moves rows, those of other objects among them, so passes over all objects are repeated
until one moves nothing.  Every exchange takes an adjacent pair that is out of order and puts it
in order, so there are at most as many as there are pairs of rows.
-/

namespace ObjectPack

namespace Model

/-! ### Folding booleans -/

/-- How many booleans a word holds. -/
def boolsPerWord : Nat := 32

/-- The word whose bit `k` tells whether the `k`-th row holds true. -/
def bitsOf : List Row → Nat
  | [] => 0
  | r :: rest => (if r.value = .bool true then 1 else 0) + 2 * bitsOf rest

/-- The row of a word of booleans: it bears the name of the first and owns copies of all from
`start` on. -/
def bitSetRow (start : Nat) (bools : List Row) : Row :=
  ⟨.bitSet, (bools.head?.map (·.name)).getD "", none, some start, bools.length,
    .bitSet (UInt32.ofNat (bitsOf bools))⟩

/-- The rows of `groups` words of booleans, whose copies stand one after another from `start` on. -/
def bitSetRows : Nat → Nat → List Row → List Row
  | 0, _, _ => []
  | groups + 1, start, bools =>
    bitSetRow start (bools.take boolsPerWord)
      :: bitSetRows groups (start + boolsPerWord) (bools.drop boolsPerWord)

/-- How many words `n` booleans take. -/
def bitSetCount (n : Nat) : Nat := (n + (boolsPerWord - 1)) / boolsPerWord

/-- Folds the boolean fields of an object.  The other fields move to the front in their order and
are followed by the words; the booleans themselves are copied to the end of the table.  The rows
left over at the end of the former range belong to nothing any more. -/
def foldBooleans (m : Model) (i : Nat) : Except Fault Model := do
  let members ← m.members i
  let fields ← members.mapM m.row
  let others := fields.filter (·.kind ≠ .bool)
  let bools := fields.filter (·.kind = .bool)
  if bools.isEmpty then return m
  let groups := bitSetCount bools.length
  -- The range keeps its length: one word takes the place of up to 32 booleans.
  let folded := others ++ bitSetRows groups m.size bools ++ bools.drop groups
  let rows := m.rows.extract 0 members.start ++ folded.toArray
    ++ m.rows.extract members.stop m.size ++ bools.toArray
  return { m with rows := rows }.setCount i (others.length + groups)

/-! ### Sorting -/

/-- The order of fields: descending alignment, then kind, then name. -/
def compareRows (m : Model) (i j : Nat) : Except Fault Ordering := do
  -- The greater alignment comes first.
  let second ← m.alignment j
  let first ← m.alignment i
  let a ← m.row i
  let b ← m.row j
  return (compare second first).then
    ((compare a.kind.index b.kind.index).then (compare a.name b.name))

/-- Runs once through `pairs` adjacent pairs of rows from row `i` on and exchanges those that are
out of order; `moved` tells whether there were any. -/
def sortPass : Nat → Nat → Model → Bool → Except Fault (Model × Bool)
  | 0, _, m, moved => .ok (m, moved)
  | pairs + 1, i, m, moved => do
    match ← m.compareRows i (i + 1) with
    | .gt => sortPass pairs (i + 1) (← m.swap i (i + 1)) true
    | _ => sortPass pairs (i + 1) m moved

/-- Repeats passes over a range until one exchanges nothing, at most `passes` of them. -/
def sortPasses (s : Span) : Nat → Model → Bool → Except Fault (Model × Bool)
  | 0, m, moved => .ok (m, moved)
  | passes + 1, m, moved => do
    match ← sortPass (s.length - 1) s.start m false with
    | (m, true) => sortPasses s passes m true
    | (m, false) => return (m, moved)

/-- Sorts the fields of an object; also tells whether any row moved. -/
def sortFields (m : Model) (i : Nat) : Except Fault (Model × Bool) := do
  let members ← m.members i
  if members.length < 2 then return (m, false)
  sortPasses members members.length m false

/-! ### Solving -/

/-- Folds the booleans of all objects.  Folding only appends rows of booleans, so the rows that are
there at the start are all that have to be looked at. -/
def foldAll (m : Model) : Except Fault Model :=
  (List.range m.size).foldlM (fun m i => if m.isObject i then m.foldBooleans i else pure m) m

/-- Sorts the fields of all objects once; also tells whether any row moved. -/
def sortAll (m : Model) : Except Fault (Model × Bool) :=
  (List.range m.size).foldlM
    (fun (m, moved) i => do
      if m.isObject i then
        let (m, now) ← m.sortFields i
        return (m, moved || now)
      else return (m, moved))
    (m, false)

/-- Repeats sorting until nothing moves, at most `limit` times; also counts the passes. -/
def sortUntilStable : Nat → Model → Nat → Except Fault (Model × Nat)
  | 0, m, passes => .ok (m, passes)
  | limit + 1, m, passes => do
    match ← m.sortAll with
    | (m, true) => sortUntilStable limit m (passes + 1)
    | (m, false) => return (m, passes + 1)

/-- Folds booleans and sorts fields; also tells how many sorting passes it took. -/
def solve (m : Model) : Except Fault (Model × Nat) := do
  let m ← m.foldAll
  sortUntilStable (m.size * m.size + 1) m 0

end Model

end ObjectPack
