/-!
# Sorting by natural runs

A stable sort that fixes which pairs it compares, and in which order. Under a
comparison that always answers and is an order, every stable sort gives the same
list, and which pairs are compared does not matter. A comparison may also fail,
or be no order at all, as with a not-a-number among the keys; then the procedure
decides what comes out, or which pair is reported.

The list is cut into runs, each as long as the items already rise (or strictly
fall, and are turned round), and each brought to a least length by inserting
further items by halving. Neighbouring runs are merged as soon as the midpoints
of the two latest runs lie closer together, on the scale of halvings of the
whole list, than those of the two before. A merge goes item by item until one
side has won several times in a row, and then gallops: it looks for the end of
that side's next stretch in steps that double, then halves.
-/

namespace CodeGraph.Runs

variable {ε β : Type} (less : β → β → Except ε Bool)

/-! ## Runs -/

/-- The items that follow `last` in the same run, and the others. -/
def follow (falling : Bool) (last : β) : List β → Except ε (List β × List β)
  | [] => .ok ([], [])
  | b :: rest => do
    if (← less b last) == falling then
      let (run, others) ← follow falling b rest
      return (b :: run, others)
    else return ([], b :: rest)

/-- The opening run in rising order, and the items behind it. -/
def opening : List β → Except ε (List β × List β)
  | [] => .ok ([], [])
  | [a] => .ok ([a], [])
  | a :: b :: rest => do
    let falling ← less b a
    let (run, others) ← follow less falling b rest
    let run := a :: b :: run
    return (if falling then run.reverse else run, others)

/-- The first position of `lo ≤ p ≤ hi` from which the search does not go on, by halving. -/
def halve (goesOn : Nat → Except ε Bool) (lo hi : Nat) : Except ε Nat :=
  if lo < hi then do
    let mid := (lo + hi) / 2
    if ← goesOn mid then halve goesOn (mid + 1) hi else halve goesOn lo mid
  else .ok lo
termination_by hi - lo

def ask (items : Array β) (position : Nat) (question : β → Except ε Bool) : Except ε Bool :=
  match items[position]? with
  | some item => question item
  | none => .ok false

/-- Put an item into a sorted run, behind its equals. -/
def place (run : Array β) (item : β) : Except ε (Array β) := do
  let position ← halve (fun p => ask run p fun b => return !(← less item b)) 0 run.size
  return run.extract 0 position ++ #[item] ++ run.extract position run.size

/-- Half-lengths of a list below this many items are sorted as one run. -/
def shortRun : Nat := 64

/-- The least length of a run: a list of `n` items halved, rounding up at the end, until it
is short. -/
def leastRun (n : Nat) : Nat :=
  if n < shortRun then n
  else go n n false
where
  go : Nat → Nat → Bool → Nat
  | 0, n, _ => n
  | fuel + 1, n, odd =>
    if n < shortRun then (if odd then n + 1 else n) else go fuel (n / 2) (odd || n % 2 == 1)

/-! ## Galloping -/

/-- Steps `1, 3, 7, …` as long as the question is answered by yes, at most to `limit`: the
last step with a yes and the one after it. -/
def stride (goesOn : Nat → Except ε Bool) (limit last step : Nat) : Except ε (Nat × Nat) :=
  if step < limit then do
    if ← goesOn step then stride goesOn limit step (2 * step + 1) else return (last, step)
  else .ok (last, min step limit)
termination_by limit - step

/-- The number of items below `key`, sought from the position `hint` on. -/
def countBelow (key : β) (items : Array β) (hint : Nat) : Except ε Nat := do
  let below p := ask items p fun b => less b key
  if ← below hint then
    let (last, step) ← stride (fun o => below (hint + o)) (items.size - hint) 0 1
    halve below (hint + last + 1) (hint + step)
  else
    let (last, step) ← stride (fun o => return !(← below (hint - o))) (hint + 1) 0 1
    halve below (hint + 1 - step) (hint - last)

/-- The number of items not above `key`, sought from the position `hint` on. -/
def countUpTo (key : β) (items : Array β) (hint : Nat) : Except ε Nat := do
  let above p := ask items p fun b => less key b
  let upTo p := return !(← above p)
  if ← above hint then
    let (last, step) ← stride (fun o => above (hint - o)) (hint + 1) 0 1
    halve upTo (hint + 1 - step) (hint - last)
  else
    let (last, step) ← stride (fun o => upTo (hint + o)) (items.size - hint) 0 1
    halve upTo (hint + last + 1) (hint + step)

/-! ## Merging -/

/-- Stretches from this length on keep a merge galloping. -/
def longStretch : Nat := 7

/-- How a merge proceeds: item by item, counting the latest wins of either side, or by
stretches. -/
inductive Pace where
  | stepping (left right : Nat)
  | galloping

/-- After a round of galloping with stretches of these lengths: the next pace, and the number
of wins in a row that starts the next gallop. -/
def Pace.next (patience left right : Nat) : Pace × Nat :=
  if longStretch ≤ left || longStretch ≤ right then (.galloping, max 1 (patience - 1))
  else (.stepping 0 0, patience + 1)

/-- Merge two runs from their fronts; `merged` has the newest item first. The last item of the
left run is known to come last. The answer carries the patience for the next merge. -/
def mergeFront : Nat → Pace → Nat → List β → List β → List β → Except ε (List β × Nat)
  | 0, _, patience, left, right, merged => .ok (merged.reverse ++ left ++ right, patience)
  | _, _, patience, [], right, merged => .ok (merged.reverse ++ right, patience)
  | _, _, patience, left, [], merged => .ok (merged.reverse ++ left, patience)
  | _, _, patience, [a], right, merged => .ok (merged.reverse ++ right ++ [a], patience)
  | fuel + 1, .stepping l r, patience, a :: left, b :: right, merged => do
    if ← less b a then
      let pace := if patience ≤ r + 1 then .galloping else .stepping 0 (r + 1)
      mergeFront fuel pace patience (a :: left) right (b :: merged)
    else
      let pace := if patience ≤ l + 1 then .galloping else .stepping (l + 1) 0
      mergeFront fuel pace patience left (b :: right) (a :: merged)
  | fuel + 1, .galloping, patience, left, b :: right, merged => do
    let l ← countUpTo less b left.toArray 0
    let merged := (left.take l).reverse ++ merged
    match left.drop l, right with
    | [], right => return (merged.reverse ++ b :: right, patience)
    | [a], right => return (merged.reverse ++ b :: right ++ [a], patience)
    | left, [] => return (merged.reverse ++ b :: left, patience)
    | a :: left, right =>
      let r ← countBelow less a right.toArray 0
      let merged := (right.take r).reverse ++ b :: merged
      match left, right.drop r with
      | left, [] => return (merged.reverse ++ a :: left, patience)
      | [last], right => return (merged.reverse ++ a :: right ++ [last], patience)
      | left, right =>
        let (pace, patience) := Pace.next patience l r
        mergeFront fuel pace patience left right (a :: merged)

/-- Merge two runs from their backs: both have their last item first, `merged` its first one.
The first item of the right run is known to come first. -/
def mergeBack : Nat → Pace → Nat → List β → List β → List β → Except ε (List β × Nat)
  | 0, _, patience, left, right, merged => .ok (left.reverse ++ right.reverse ++ merged, patience)
  | _, _, patience, [], right, merged => .ok (right.reverse ++ merged, patience)
  | _, _, patience, left, [], merged => .ok (left.reverse ++ merged, patience)
  | _, _, patience, left, [b], merged => .ok (b :: left.reverse ++ merged, patience)
  | fuel + 1, .stepping l r, patience, a :: left, b :: right, merged => do
    if ← less b a then
      let pace := if patience ≤ l + 1 then .galloping else .stepping (l + 1) 0
      mergeBack fuel pace patience left (b :: right) (a :: merged)
    else
      let pace := if patience ≤ r + 1 then .galloping else .stepping 0 (r + 1)
      mergeBack fuel pace patience (a :: left) right (b :: merged)
  | fuel + 1, .galloping, patience, left, b :: right, merged => do
    let l := left.length - (← countUpTo less b left.reverse.toArray (left.length - 1))
    let merged := b :: (left.take l).reverse ++ merged
    match left.drop l, right with
    | [], right => return (right.reverse ++ merged, patience)
    | left, [first] => return (first :: left.reverse ++ merged, patience)
    | left, [] => return (left.reverse ++ merged, patience)
    | a :: left, right =>
      let r := right.length - (← countBelow less a right.reverse.toArray (right.length - 1))
      let merged := (right.take r).reverse ++ merged
      match left, right.drop r with
      | left, [] => return (left.reverse ++ a :: merged, patience)
      | left, [first] => return (first :: left.reverse ++ a :: merged, patience)
      | [], right => return (right.reverse ++ a :: merged, patience)
      | left, right =>
        let (pace, patience) := Pace.next patience l r
        mergeBack fuel pace patience left right (a :: merged)

/-- Merge two neighbouring runs, of which only the overlapping parts take part. -/
def merge (patience : Nat) (left right : List β) : Except ε (List β × Nat) :=
  match right with
  | [] => .ok (left, patience)
  | b :: _ => do
    let kept ← countUpTo less b left.toArray 0
    let front := left.take kept
    match (left.drop kept).reverse with
    | [] => return (left ++ right, patience)
    | a :: overlap =>
      let count ← countBelow less a right.toArray (right.length - 1)
      let left := (a :: overlap).reverse
      let back := right.drop count
      let start := Pace.stepping 0 0
      let fuel := left.length + count + 1
      match right.take count, (right.take count).reverse with
      | b :: rest, last :: others =>
        let (middle, patience) ←
          if left.length ≤ count then mergeFront less fuel start patience left rest [b]
          else mergeBack less fuel start patience overlap (last :: others) [a]
        return (front ++ middle ++ back, patience)
      | _, _ => return (front ++ left ++ back, patience)

/-! ## The whole list -/

/-- A sorted stretch of the list; `level` tells how near its midpoint is to the next one's. -/
structure Run (β : Type) where
  start : Nat
  items : List β
  level : Nat

/-- The number of halvings of a list of `n` items that part two midpoints, given doubled. -/
def level (n : Nat) : Nat → Nat → Nat → Nat
  | 0, _, _ => 0
  | fuel + 1, a, b =>
    if n ≤ a then level n fuel (2 * (a - n)) (2 * (b - n)) + 1
    else if n ≤ b then 1
    else level n fuel (2 * a) (2 * b) + 1

/-- Runs that await merging, the newest first, and the patience of the next merge. -/
structure Pending (β : Type) where
  runs : List (Run β)
  patience : Nat

/-- Merge the two newest runs while those before them are farther apart than the newest is
from the next. -/
def settle (newLevel : Nat) : List (Run β) → Nat → Except ε (Pending β)
  | z :: y :: rest, patience =>
    if newLevel < y.level then do
      let (items, patience) ← merge less patience y.items z.items
      settle newLevel ({ y with items := items } :: rest) patience
    else .ok ⟨{ z with level := newLevel } :: y :: rest, patience⟩
  | [z], patience => .ok ⟨[{ z with level := newLevel }], patience⟩
  | [], patience => .ok ⟨[], patience⟩
termination_by runs => runs.length

/-- Merge all that is left, a short run before its longer neighbours. -/
def collapse : List (Run β) → Nat → Except ε (List β)
  | z :: y :: x :: rest, patience => do
    if x.items.length < z.items.length then
      let (items, patience) ← merge less patience x.items y.items
      collapse (z :: { x with items := items } :: rest) patience
    else
      let (items, patience) ← merge less patience y.items z.items
      collapse ({ y with items := items } :: x :: rest) patience
  | [z, y], patience => do return (← merge less patience y.items z.items).1
  | [z], _ => .ok z.items
  | [], _ => .ok []
termination_by runs => runs.length

/-- Cut a list of `n` items into runs, merging as it goes. -/
def gather (n least : Nat) : Nat → Nat → List β → Pending β → Except ε (Pending β)
  | 0, _, _, pending => .ok pending
  | _, _, [], pending => .ok pending
  | fuel + 1, start, items, pending => do
    let (run, others) ← opening less items
    let missing := least - run.length
    let run := (← (others.take missing).foldlM (place less) run.toArray).toList
    let pending ←
      match pending.runs with
      | [] => pure pending
      | last :: _ =>
        let a := 2 * last.start + last.items.length
        let b := a + last.items.length + run.length
        settle less (level n (2 * n + 2) a b) pending.runs pending.patience
    gather n least fuel (start + run.length) (others.drop missing)
      { pending with runs := ⟨start, run, 0⟩ :: pending.runs }

def sort (items : List β) : Except ε (List β) := do
  let n := items.length
  let pending ← gather less n (leastRun n) n 0 items ⟨[], longStretch⟩
  collapse less pending.runs pending.patience

end CodeGraph.Runs
