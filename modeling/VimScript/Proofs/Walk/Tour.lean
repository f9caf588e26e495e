import VimScript.Walk

/-!
What a walk visits. A tour of a tree enters a node, tours the nodes directly below it in some order, each once, and
leaves the node. A walk that goes below every node tells its visitor of the events of one tour, the same for all
visitors, and it ends without an unknown type.
-/

set_option autoImplicit false

namespace VimScript

/-! ### The nodes of a tree -/

namespace Kind

variable {α : Type}

/-- The fields of a type lead to all nodes below, each once, though not always in the order of the content. -/
theorem flatMap_part_perm (kind : Kind α) :
    (kind.nodeType.fields.flatMap fun f => kind.part f.part).Perm kind.children := by
  -- The parts are joined from the left, as the content joins them.
  rw [List.flatMap_eq_foldl]
  cases kind
  case forLoop inv single items rest values body close =>
    -- A loop's body is visited first.
    have front : (body ++ (single.toList ++ (items ++ (rest.toList ++ [values])))).Perm
        (single.toList ++ (items ++ (rest.toList ++ [values])) ++ body) := List.perm_append_comm
    have whole := front.append_right close.toList
    simp only [← List.append_assoc] at whole
    exact whole
  all_goals exact .refl _

end Kind

namespace Node

/-- A node and all nodes below it, one entry for each place in the tree. -/
def subnodes (n : Node) : List Node :=
  n :: n.children.attach.flatMap fun c => c.1.subnodes
termination_by sizeOf n
decreasing_by exact sizeOf_lt_of_mem_children c.2

theorem subnodes_eq (n : Node) : n.subnodes = n :: n.children.flatMap subnodes := by
  rw [subnodes, List.flatMap_subtype (g := subnodes) (fun _ _ => rfl), List.unattach_attach]

theorem along_fields_perm (n : Node) : (n.along n.type.fields).Perm n.children :=
  n.kind.flatMap_part_perm

end Node

/-! ### Tours -/

namespace Walk

mutual

inductive Tour : Node → List Event → Prop where
  | visit {n : Node} {order : List Node} {below : List Event} (each : order.Perm n.children)
      (inside : Tours order below) : Tour n (⟨.enter, n⟩ :: below ++ [⟨.leave, n⟩])

inductive Tours : List Node → List Event → Prop where
  | nil : Tours [] []
  | cons {n : Node} {ns : List Node} {first rest : List Event} (head : Tour n first) (tail : Tours ns rest) :
      Tours (n :: ns) (first ++ rest)

end

/-- The nodes a list of events enters. -/
def entered (events : List Event) : List Node :=
  (events.filter fun e => e.phase == .enter).map Event.node

@[simp] theorem entered_append (xs ys : List Event) : entered (xs ++ ys) = entered xs ++ entered ys := by
  simp [entered]

theorem entered_visit (n : Node) (below : List Event) :
    entered (⟨.enter, n⟩ :: below ++ [⟨.leave, n⟩]) = n :: entered below := by
  simp [entered]

theorem Tour.entered_perm {n : Node} {events : List Event} (h : Tour n events) :
    (entered events).Perm n.subnodes := by
  refine Tour.rec (motive_1 := fun n events _ => (entered events).Perm n.subnodes)
    (motive_2 := fun ns events _ => (entered events).Perm (ns.flatMap Node.subnodes)) ?visit ?nil ?cons h
  case visit =>
    intro n order below each inside ih
    rw [entered_visit, Node.subnodes_eq]
    exact (ih.trans (each.flatMap_right Node.subnodes)).cons n
  case nil => exact .refl _
  case cons =>
    intro n ns first rest head tail ih ih'
    rw [entered_append, List.flatMap_cons]
    exact ih.append ih'

/-! ### The events of a walk -/

/-- The events of a walk that goes below every node. -/
def tour (n : Node) : List Event :=
  ⟨.enter, n⟩ :: (n.along n.type.fields).attach.flatMap (fun c => tour c.1) ++ [⟨.leave, n⟩]
termination_by sizeOf n
decreasing_by exact Node.sizeOf_lt_of_mem_along c.2

theorem tour_eq (n : Node) :
    tour n = ⟨.enter, n⟩ :: (n.along n.type.fields).flatMap tour ++ [⟨.leave, n⟩] := by
  rw [tour, List.flatMap_subtype (g := tour) (fun _ _ => rfl), List.unattach_attach]

theorem tour_tour (n : Node) : Tour n (tour n) := by
  rw [tour_eq]
  have below : ∀ cs : List Node, (∀ c ∈ cs, sizeOf c < sizeOf n) → Tours cs (cs.flatMap tour) := by
    intro cs smaller
    induction cs with
    | nil => exact .nil
    | cons c cs ih =>
      have inside := smaller c (by simp)
      exact .cons (tour_tour c) (ih fun d place => smaller d (by simp [place]))
  exact .visit n.along_fields_perm (below _ fun c => Node.sizeOf_lt_of_mem_along)
termination_by sizeOf n

variable {σ : Type}

theorem run_eq (look : Lookup) (v : Visitor σ) (n : Node) (state : σ) :
    run look v n state =
      match look n.type with
      | none => { unknown := some n.type, state }
      | some fields =>
        match v.enter n state with
        | (.skip, state) => { state := v.leave n state }
        | (.descend, state) =>
          let below := (n.along fields).foldl
            (fun found c =>
              match found.unknown with
              | none => run look v c found.state
              | some _ => found)
            ({ state } : Outcome σ)
          match below.unknown with
          | none => { state := v.leave n below.state }
          | some _ => below := by
  rw [run]
  cases look n.type with
  | none => rfl
  | some fields =>
    rcases v.enter n state with ⟨action, state⟩
    cases action with
    | skip => rfl
    | descend =>
      have plain := List.foldl_subtype (l := (n.along fields).attach) (x := ({ state } : Outcome σ))
        (f := fun found c =>
          match found.unknown with
          | none => run look v c.1 found.state
          | some _ => found)
        (g := fun found c =>
          match found.unknown with
          | none => run look v c found.state
          | some _ => found) fun _ _ _ => rfl
      rw [List.unattach_attach] at plain
      exact congrArg (fun below : Outcome σ =>
        match below.unknown with
        | none => ({ state := v.leave n below.state } : Outcome σ)
        | some _ => below) plain

/-- A visitor that never keeps the walk from going below. -/
def Visitor.descending (enter leave : Node → σ → σ) : Visitor σ where
  enter n state := (.descend, enter n state)
  leave := leave

def Event.notify (enter leave : Node → σ → σ) (state : σ) (e : Event) : σ :=
  match e.phase with
  | .enter => enter e.node state
  | .leave => leave e.node state

theorem run_descending (enter leave : Node → σ → σ) (n : Node) (state : σ) :
    run allFields (.descending enter leave) n state =
      { state := (tour n).foldl (Event.notify enter leave) state } := by
  -- The nodes below are walked one after the other, each from the state the one before it left.
  have below : ∀ (cs : List Node), (∀ c ∈ cs, sizeOf c < sizeOf n) → ∀ state : σ,
      cs.foldl (fun (found : Outcome σ) c =>
          match found.unknown with
          | none => run allFields (.descending enter leave) c found.state
          | some _ => found) { state } =
        { state := (cs.flatMap tour).foldl (Event.notify enter leave) state } := by
    intro cs smaller
    induction cs with
    | nil => intro state; rfl
    | cons c cs ih =>
      intro state
      have inside := smaller c (by simp)
      have first := run_descending enter leave c state
      simp only [List.foldl_cons, first, List.flatMap_cons, List.foldl_append]
      exact ih (fun d place => smaller d (by simp [place])) _
  rw [run_eq, tour_eq]
  simp only [allFields, Visitor.descending] at below ⊢
  rw [below _ fun c => Node.sizeOf_lt_of_mem_along]
  simp [Event.notify]
termination_by sizeOf n

theorem foldl_notify_recorder (events log : List Event) :
    events.foldl (Event.notify (fun n log => ⟨.enter, n⟩ :: log) fun n log => ⟨.leave, n⟩ :: log) log =
      events.reverse ++ log := by
  induction events generalizing log with
  | nil => rfl
  | cons e es ih => cases e with | mk phase n => cases phase <;> simp [Event.notify, ih]

theorem events_allFields (n : Node) : events allFields (fun _ => false) n = (tour n, none) := by
  have recorded := run_descending (fun n log => (⟨.enter, n⟩ : Event) :: log) (fun n log => ⟨.leave, n⟩ :: log) n []
  rw [foldl_notify_recorder] at recorded
  rw [events, show recorder (fun _ => false) = .descending _ _ from rfl, recorded]
  simp

/-- A walk that goes below every node reaches every node of the tree exactly once, each before those below it, and
between entering and leaving a node it visits what is below that node and nothing else. -/
theorem run_allFields_tour (n : Node) :
    ∃ events, Tour n events ∧ (entered events).Perm n.subnodes ∧
      ∀ {σ : Type} (enter leave : Node → σ → σ) (state : σ),
        run allFields (.descending enter leave) n state =
          { unknown := none, state := events.foldl (Event.notify enter leave) state } :=
  ⟨tour n, tour_tour n, (tour_tour n).entered_perm, fun enter leave => run_descending enter leave n⟩

end Walk

end VimScript
