import VimScript.Walk.Field

/-!
Walking a tree depth first. A visitor carries a state through the walk; it is told of every node before and
after the nodes below it, and may keep the walk from going below. Which fields a type has is looked up, and a
type that is not found ends the walk.
-/

set_option autoImplicit false

namespace VimScript

namespace Walk

inductive Action where
  | descend | skip
deriving DecidableEq, Repr

structure Visitor (σ : Type) where
  enter : Node → σ → Action × σ
  leave : Node → σ → σ

/-- How a walk ended: with the type that was not found, if there was one, and the state at the end. -/
structure Outcome (σ : Type) where
  unknown : Option NodeType := none
  state : σ

abbrev Lookup := NodeType → Option (List Field)

def allFields : Lookup := fun t => some t.fields

def run {σ : Type} (look : Lookup) (v : Visitor σ) (n : Node) (state : σ) : Outcome σ :=
  match look n.type with
  | none => { unknown := some n.type, state }
  | some fields =>
    match v.enter n state with
    | (.skip, state) => { state := v.leave n state }
    | (.descend, state) =>
      let below := (n.along fields).attach.foldl
        (fun found c =>
          match found.unknown with
          | none => run look v c.1 found.state
          | some _ => found)
        ({ state } : Outcome σ)
      match below.unknown with
      | none => { state := v.leave n below.state }
      | some _ => below
termination_by sizeOf n
decreasing_by exact Node.sizeOf_lt_of_mem_along c.2

/-- How a walk that met an unknown type is reported. -/
def message (t : NodeType) : String :=
  "Unknown node type: `" ++ t.name ++ "`"

/-! ### Events -/

inductive Phase where
  | enter | leave
deriving DecidableEq, Repr

structure Event where
  phase : Phase
  node : Node

/-- Records every event, the last one first, and goes below all nodes but those of the given types. -/
def recorder (skips : NodeType → Bool) : Visitor (List Event) where
  enter n log := (if skips n.type then .skip else .descend, ⟨.enter, n⟩ :: log)
  leave n log := ⟨.leave, n⟩ :: log

/-- The events of a walk in order, and the type it ended at. -/
def events (look : Lookup) (skips : NodeType → Bool) (n : Node) : List Event × Option NodeType :=
  let outcome := run look (recorder skips) n []
  (outcome.state.reverse, outcome.unknown)

end Walk

/-! ### Dispatching -/

/-- A callback for one phase and one type of node. -/
structure Handler (σ : Type) where
  phase : Walk.Phase
  type : NodeType
  call : Node → σ → σ

/-- The callbacks of each type of node, in the order in which they were registered. -/
abbrev Callbacks (σ : Type) := NodeType → List (Node → σ → σ)

namespace Callbacks

variable {σ : Type}

def add (cs : Callbacks σ) (type : NodeType) (call : Node → σ → σ) : Callbacks σ :=
  fun t => if t = type then cs t ++ [call] else cs t

/-- Calls the callbacks of a node's type. -/
def callAll (cs : Callbacks σ) (n : Node) (state : σ) : σ :=
  (cs n.type).foldl (fun state call => call n state) state

end Callbacks

/-- The callbacks for each phase of a walk. -/
structure Dispatcher (σ : Type) where
  enter : Callbacks σ := fun _ => []
  leave : Callbacks σ := fun _ => []

namespace Dispatcher

variable {σ : Type}

def register (d : Dispatcher σ) (h : Handler σ) : Dispatcher σ :=
  match h.phase with
  | .enter => { d with enter := d.enter.add h.type h.call }
  | .leave => { d with leave := d.leave.add h.type h.call }

/-- No callback keeps the walk from going below a node. -/
def visitor (d : Dispatcher σ) : Walk.Visitor σ where
  enter n state := (.descend, d.enter.callAll n state)
  leave n state := d.leave.callAll n state

def run (d : Dispatcher σ) (n : Node) (state : σ) : Walk.Outcome σ :=
  Walk.run Walk.allFields d.visitor n state

end Dispatcher

end VimScript
