/-!
Where two searches for a shortest edit script meet. One search starts at the beginning of both lists and the
other at their end; both take one edit a round, on every diagonal, and follow common items for free. The point
where they meet splits the lists into two smaller problems.
-/

set_option autoImplicit false

namespace VimScript.LineDiff

/-- How many items of the first list were passed on each diagonal after `d` edits, from diagonal `d` down to
diagonal `-d` in steps of two. A diagonal is the number of items passed in the first list less that in the
second. Before the first round there is no diagonal. -/
abbrev Frontier := List Nat

namespace Frontier

def lower (above : Nat) : Frontier → List Nat
  | [] => [above]
  | x :: xs => max above (x + 1) :: lower x xs

/-- Where the next round starts on its diagonals: an item of the first list is dropped on the diagonal below,
or one of the second list is added on the diagonal above, whichever leads further. -/
def starts : Frontier → List Nat
  | [] => [0]
  | x :: xs => (x + 1) :: lower x xs

/-- The starts of the next round as pairs of places in the two lists. -/
def points (f : Frontier) : List (Nat × Nat) :=
  f.starts.mapIdx fun t x => (x, x + 2 * t - f.length)

def at? (f : Frontier) (diagonal : Int) : Option Nat :=
  if diagonal.natAbs < f.length then f[((f.length - 1 - diagonal) / 2).toNat]? else none

end Frontier

/-- How many items are the same from two places on, up to a bound. -/
def sameFrom (xs ys : Array String) : Nat → Nat → Nat → Nat
  | 0, _, _ => 0
  | bound + 1, i, j =>
    match xs[i]?, ys[j]? with
    | some x, some y => if x == y then sameFrom xs ys bound (i + 1) (j + 1) + 1 else 0
    | _, _ => 0

/-- One round: every start, and the place in both lists that is reached from it. -/
def round (xs ys : Array String) (f : Frontier) : List ((Nat × Nat) × (Nat × Nat)) :=
  f.points.map fun (x, y) =>
    let n := sameFrom xs ys xs.size x y
    ((x, y), (x + n, y + n))

/-- The first diagonal of a round that overlaps the other search. Diagonal `k` of one search is diagonal
`n - m - k` of the other. -/
def overlap? (n m : Nat) (other : Frontier) (found : List ((Nat × Nat) × (Nat × Nat))) :
    Option ((Nat × Nat) × (Nat × Nat)) :=
  found.find? fun ((x, y), (reached, _)) =>
    (other.at? ((n : Int) - m - (x - y))).any fun r => n ≤ reached + r

/-- Rounds of both searches in turn. The forward search can only meet the other one if the lengths differ by
an odd number, the backward search if they differ by an even number. -/
def meetingFrom (xs ys backXs backYs : Array String) : Nat → Frontier → Frontier → Option (Nat × Nat)
  | 0, _, _ => none
  | rounds + 1, forward, backward =>
    let n := xs.size
    let m := ys.size
    let isOdd := (n + m) % 2 == 1
    let found := round xs ys forward
    match if isOdd then overlap? n m backward found else none with
    | some (start, _) => some start
    | none =>
      let forward := found.map (·.2.1)
      let found := round backXs backYs backward
      match if isOdd then none else overlap? n m forward found with
      | some (_, (x, y)) => some (n - x, m - y)
      | none => meetingFrom xs ys backXs backYs rounds forward (found.map (·.2.1))

/-- The point at which two lists are split: how many items of each belong to the first part. -/
def meeting? (xs ys : List String) : Option (Nat × Nat) :=
  meetingFrom xs.toArray ys.toArray xs.reverse.toArray ys.reverse.toArray
    ((xs.length + ys.length + 1) / 2 + 1) [] []

end VimScript.LineDiff
