import VimScript.Proofs.Overlap.Line
import VimScript.Proofs.Tree.Fold
import VimScript.Proofs.Tree.Occurs

/-!
A buffer beside itself, seen on one side through a change of positions. Where the change leaves the positions of the
buffer as they are, a scan whose two sides look the same has only such positions to show.
-/

set_option autoImplicit false

namespace VimScript

/-- The position is the one of its cursor in the buffer. -/
structure Position.IsOf (s : Source) (p : Position) : Prop where
  bound : p.cursor ≤ s.size
  place : p = s.position p.cursor

theorem Source.position_isOf {s : Source} {i : Nat} (bound : i ≤ s.size) : (s.position i).IsOf s :=
  ⟨bound, rfl⟩

/-- The position of the buffer that is nearest to a given one. -/
def Source.settle (s : Source) (p : Position) : Position :=
  s.position (min p.cursor s.size)

theorem Source.settle_position {s : Source} {i : Nat} (bound : i ≤ s.size) :
    s.settle (s.position i) = s.position i := by
  rw [settle, cursor_position, Nat.min_eq_left bound]

theorem Position.isOf_of_settle {s : Source} {p : Position} (settled : s.settle p = p) : p.IsOf s := by
  have cursor : min p.cursor s.size = p.cursor := congrArg Position.cursor settled
  refine ⟨by omega, ?_⟩
  rw [Source.settle, cursor] at settled
  exact settled.symm

/-- What is seen of positions through a change of them. -/
def Sight.through (f : Position → Position) : Sight where
  position := f
  invocation := .placed f

namespace Overlap

variable {s : Source} {f : Position → Position}

theorem mirror_places (fixed : ∀ p ≤ s.size, f (s.position p) = s.position p) (p : Nat) (inside : (whole s).Inside p) :
    s.position ((whole s).left + p) = f (s.position ((whole s).right + p)) := by
  have within : p ≤ s.size := length_whole s ▸ inside.le
  have here : (whole s).left + p = p := Nat.zero_add p
  have there : (whole s).right + p = p := Nat.zero_add p
  rw [here, there, fixed p within]

def mirror (s : Source) (f : Position → Position) (fixed : ∀ p ≤ s.size, f (s.position p) = s.position p) :
    Overlap s s :=
  (whole s).toSharedText.seen ⟨id, id⟩ (.through f) (mirror_places fixed) fun _ _ same => same

theorem inside_mirror {fixed : ∀ p ≤ s.size, f (s.position p) = s.position p} {i : Nat} (bound : i ≤ s.size) :
    (mirror s f fixed).Inside i :=
  inside_whole bound

end Overlap

namespace Kind

/-- A content that is seen as it is has only parts that are seen as they are. -/
theorem seen_children {v : Sight} {kind : Kind Node}
    (same : (kind.map (Node.seen v)).mapInvocation v.invocation = kind) :
    ∀ c ∈ kind.children, c.seen v = c := by
  have parts := congrArg Kind.children same
  rw [children_mapInvocation, children_map] at parts
  exact List.map_inj_left.mp (parts.trans (List.map_id _).symm)

end Kind

namespace Node

variable {v : Sight} {n root : Node} {above : List Node}

theorem kind_of_seen (same : n.seen v = n) : (n.kind.map (seen v)).mapInvocation v.invocation = n.kind := by
  obtain ⟨position, kind⟩ := n
  simpa using congrArg Node.kind same

theorem Occurs.seen (place : root.Occurs above n) (below : ∀ c ∈ root.children, c.seen v = c) (inner : above ≠ []) :
    n.seen v = n := by
  -- From the root down: the parts of a node that is seen as it is are seen as they are.
  induction place with
  | root => exact absurd rfl inner
  | @child above parent c place inside ih =>
    cases place with
    | root => exact below c inside
    | child place inside' => exact Kind.seen_children (kind_of_seen (ih (by simp))) c inside

theorem placed_of_seen {f : Position → Position} (same : n.seen (.through f) = n) {inv : Invocation}
    (known : n.invocation? = some inv) : inv.placed f = inv := by
  have found := congrArg Kind.invocation? (kind_of_seen same)
  have known' : n.kind.invocation? = some inv := known
  rw [Kind.invocation?_mapInvocation, Kind.invocation?_map, known'] at found
  exact Option.some.inj found

end Node

end VimScript
