import VimScript.Proofs.Tree.Sight

/-!
What holds of every value of a fold, and folds that do not tell alike trees apart.
-/

set_option autoImplicit false

namespace VimScript

namespace Kind

variable {α β γ : Type}

theorem map_map (f : β → γ) (g : α → β) (kind : Kind α) : (kind.map g).map f = kind.map (f ∘ g) := by
  cases kind <;> simp [map, Function.comp_def]

theorem map_id (kind : Kind α) : kind.map id = kind := by
  cases kind <;> simp [map]

theorem mapInvocation_id (kind : Kind α) : kind.mapInvocation id = kind := by
  cases kind <;> rfl

theorem children_mapInvocation (f : Invocation → Invocation) (kind : Kind α) :
    (kind.mapInvocation f).children = kind.children := by
  cases kind <;> rfl

theorem invocation?_mapInvocation (f : Invocation → Invocation) (kind : Kind α) :
    (kind.mapInvocation f).invocation? = kind.invocation?.map f := by
  cases kind <;> rfl

theorem map_congr {f g : α → β} {kind : Kind α} (h : ∀ c ∈ kind.children, f c = g c) : kind.map f = kind.map g := by
  have option (x : Option α) : x.toList.map f = x.toList.map g ↔ x.map f = x.map g := by cases x <;> simp
  cases kind with
  | dict entries =>
    have each : ∀ entry ∈ entries, (f entry.1, f entry.2) = (g entry.1, g entry.2) := fun entry place => by
      have part (c : α) (inside : c ∈ [entry.1, entry.2]) : f c = g c := h c (List.mem_flatMap.mpr ⟨entry, place, inside⟩)
      rw [part entry.1 (by simp), part entry.2 (by simp)]
    exact congrArg dict (List.map_congr_left each)
  | _ =>
    simp only [children, List.forall_mem_append, List.forall_mem_cons, ← List.map_inj_left, option] at h
    simp only [map, h]

end Kind

namespace Node

variable {β : Type} {f : Position → Kind β → β}

/-- What a fold makes of a node from values that have a property has it as well. -/
theorem fold_induction {p : β → Prop}
    (step : ∀ position (kind : Kind β), (∀ x ∈ kind.children, p x) → p (f position kind)) (n : Node) : p (fold f n) := by
  obtain ⟨position, kind⟩ := n
  rw [fold_mk]
  apply step
  intro x place
  rw [Kind.children_map] at place
  obtain ⟨c, below, rfl⟩ := List.mem_map.mp place
  exact fold_induction step c
termination_by sizeOf n
decreasing_by exact sizeOf_lt_of_mem_children below

theorem children_seen (v : Sight) (n : Node) : (n.seen v).children = n.children.map (seen v) := by
  obtain ⟨position, kind⟩ := n
  rw [seen_mk]
  exact (Kind.children_mapInvocation _ _).trans (Kind.children_map _ _)

/-- All is seen of a tree by one who sees all of positions and invocations. -/
theorem seen_id (n : Node) : n.seen ⟨id, id⟩ = n := by
  obtain ⟨position, kind⟩ := n
  have parts : kind.map (seen ⟨id, id⟩) = kind.map id := Kind.map_congr fun c below => seen_id c
  rw [seen_mk, parts, Kind.map_id, Kind.mapInvocation_id]
  rfl
termination_by sizeOf n
decreasing_by exact sizeOf_lt_of_mem_children below

/-- A fold that looks neither at positions nor at invocations is one of what is seen. -/
theorem fold_seen (blind : ∀ position position' g (kind : Kind β), f position (kind.mapInvocation g) = f position' kind)
    (v : Sight) (n : Node) : fold f (n.seen v) = fold f n := by
  obtain ⟨position, kind⟩ := n
  rw [seen_mk, fold_mk, fold_mk, Kind.map_mapInvocation, blind _ position, Kind.map_map]
  congr 1
  apply Kind.map_congr
  intro c below
  exact fold_seen blind v c
termination_by sizeOf n
decreasing_by exact sizeOf_lt_of_mem_children below

end Node

end VimScript
