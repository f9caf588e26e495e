import Mathlib.Data.List.Induction
import Mathlib.Logic.Function.Iterate
import VimScript.Proofs.Walk.Tour

/-!
Dispatched walks. The callbacks of a dispatcher are called as the events of the walk ask for them: at each event those
that were registered for its phase and its type of node.
-/

set_option autoImplicit false

namespace VimScript

open Walk (Event Phase)

variable {σ : Type}

/-- Whether a callback was registered for an event. -/
def Handler.isFor (e : Event) (h : Handler σ) : Bool :=
  h.phase == e.phase && h.type == e.node.type

namespace Dispatcher

def registered (hs : List (Handler σ)) : Dispatcher σ :=
  hs.foldl register {}

def callbacks (d : Dispatcher σ) : Phase → Callbacks σ
  | .enter => d.enter
  | .leave => d.leave

theorem callbacks_register (d : Dispatcher σ) (h : Handler σ) (e : Event) :
    (d.register h).callbacks e.phase e.node.type =
      d.callbacks e.phase e.node.type ++ if h.isFor e then [h.call] else [] := by
  cases h with
  | mk phase type call =>
    cases e with
    | mk told n =>
      -- A callback is added for one type to one table, and all others stay as they were.
      by_cases same : type = n.type
      · cases phase <;> cases told <;> simp [register, callbacks, Callbacks.add, Handler.isFor, same]
      · have other : ¬ n.type = type := fun h => same h.symm
        cases phase <;> cases told <;> simp [register, callbacks, Callbacks.add, Handler.isFor, same, other]

theorem callbacks_registered (hs : List (Handler σ)) (e : Event) :
    (registered hs).callbacks e.phase e.node.type = (hs.filter (Handler.isFor e)).map Handler.call := by
  induction hs using List.reverseRecOn with
  | nil => cases e with | mk phase n => cases phase <;> rfl
  | append_singleton hs h ih =>
    have last : registered (hs ++ [h]) = (registered hs).register h := by simp [registered]
    rw [last, callbacks_register, ih, List.filter_append, List.map_append]
    cases fits : h.isFor e <;> simp [fits]

/-! ### Calls -/

/-- The calls that the events of a walk ask for. -/
def calls (hs : List (Handler σ)) (events : List Event) : List (Handler σ × Node) :=
  events.flatMap fun e => (hs.filter (Handler.isFor e)).map fun h => (h, e.node)

/-- Makes calls, each once. -/
def makeAll (calls : List (Handler σ × Node)) (state : σ) : σ :=
  calls.foldl (fun state (h, n) => h.call n state) state

theorem notify_registered (hs : List (Handler σ)) (state : σ) (e : Event) :
    e.notify (registered hs).enter.callAll (registered hs).leave.callAll state = makeAll (calls hs [e]) state := by
  have table := callbacks_registered hs e
  cases e with
  | mk phase n =>
    cases phase <;> simp_all [Event.notify, Callbacks.callAll, callbacks, makeAll, calls, List.foldl_map]

theorem run_eq (hs : List (Handler σ)) (n : Node) (state : σ) :
    (registered hs).run n state = { state := makeAll (calls hs (Walk.tour n)) state } := by
  have walked := Walk.run_descending (registered hs).enter.callAll (registered hs).leave.callAll n state
  have told (events : List Event) (state : σ) :
      events.foldl (Event.notify (registered hs).enter.callAll (registered hs).leave.callAll) state =
        makeAll (calls hs events) state := by
    induction events generalizing state with
    | nil => rfl
    | cons e es ih =>
      have split : calls hs (e :: es) = calls hs [e] ++ calls hs es := by simp [calls]
      rw [List.foldl_cons, ih, notify_registered, split, makeAll, makeAll, makeAll, List.foldl_append]
  rw [told] at walked
  exact walked

/-- Each run makes the calls that the events of the full walk ask for: at every event those of its phase and its type of
node, in the order in which they were registered, each once and with the node of the event. -/
theorem run_registered (hs : List (Handler σ)) (n : Node) :
    let due := calls hs (Walk.events Walk.allFields (fun _ => false) n).1
    ∀ (state : σ) (runs : Nat),
      (registered hs).run n state = { unknown := none, state := makeAll due state } ∧
        (fun state => ((registered hs).run n state).state)^[runs] state =
          makeAll (List.replicate runs due).flatten state := by
  intro due state runs
  have once (state : σ) : (registered hs).run n state = { state := makeAll due state } := by
    rw [run_eq]
    simp only [due, Walk.events_allFields]
  refine ⟨once state, ?_⟩
  induction runs generalizing state with
  | zero => rfl
  | succ runs ih =>
    rw [Function.iterate_succ_apply, ih, once, List.replicate_succ, List.flatten_cons, makeAll, makeAll, makeAll,
      List.foldl_append]

end Dispatcher

end VimScript
