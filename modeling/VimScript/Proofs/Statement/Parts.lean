import VimScript.Proofs.Expr.Delivers
import VimScript.Statement

/-!
The parts of a command line around the command: their faults lie in the text alone.
-/

set_option autoImplicit false

namespace VimScript.Statement

open Scan

/-! ### Modifiers, ranges and names -/

instance (name digits : String) (after : Option Char) : Faultless (modifierOf name digits after) where
  delivers := by
    unfold modifierOf
    split
    · exact .ite (fun _ => .skip fun _ => .pure trivial) fun _ => .pure trivial
    · exact .pure trivial
    · exact .pure trivial
    · exact .pure trivial

instance : Faultless modifiers where
  delivers := by
    refine .loop (fun _ => True) trivial fun found _ => .skip fun start => .andThen ?_ fun digits => ?_
    · exact .skip fun c => .ite (fun _ => .skip fun _ => .skip fun _ => .pure trivial) fun _ => .pure trivial
    · refine .skip fun typed => .skip fun after => .skip fun _ => ?_
      split
      · exact .skip fun _ => .pure trivial
      · exact .ite (fun _ => .skip fun _ => .pure trivial) fun _ => .skip fun _ => .pure trivial

theorem pattern_delivers (delimiter : Char) : (pattern delimiter).Delivers (fun _ => True) Cause.Textual := by
  refine .skip fun start => .loop (fun _ => True) trivial fun depth _ => .skip fun c => ?_
  split
  · exact .skip fun _ => .pure trivial
  · refine .skip fun stop => .skip fun _ => .ite (fun _ => .skip fun _ => .pure trivial) fun _ => ?_
    split
    · refine .skip fun escaped => .ite (fun _ => .stop (.failHere (.inr rfl))) fun _ => ?_
      exact .skip fun _ => .pure trivial
    · exact .pure trivial
    · exact .pure trivial
    · exact .pure trivial

instance (found : List String) : Faultless (offsets found) where
  delivers := by
    refine .loop (fun _ => True) trivial fun found _ => .skip fun _ => .skip fun number => ?_
    exact .ite (fun _ => .pure trivial) fun _ => .pure trivial

theorem addressBase_delivers : addressBase.Delivers (fun _ => True) Cause.Textual := by
  refine .skip fun c => ?_
  split
  · exact .skip fun _ => .pure trivial
  · exact .skip fun _ => .pure trivial
  · exact .skip fun _ => .skip fun mark => .pure trivial
  · exact .skip fun _ => (pattern_delivers _).andThen fun _ => .pure trivial
  · exact .skip fun _ => (pattern_delivers _).andThen fun _ => .pure trivial
  · refine .skip fun escaped => ?_
    split
    · exact .skip fun _ => .pure trivial
    · exact .skip fun _ => .pure trivial
    · exact .skip fun _ => .pure trivial
    · exact .failHere (.inr rfl)
  · exact .ite (fun _ => .skip fun _ => .pure trivial) fun _ => .pure trivial

theorem address_delivers (found : List String) : (address found).Delivers (fun _ => True) Cause.Textual := by
  refine .loop (fun _ => True) trivial fun found _ => .skip fun _ => addressBase_delivers.andThen fun base => ?_
  exact .skip fun found => .skip fun c => .ite (fun _ => .pure trivial) fun _ => .pure trivial

theorem range_delivers : range.Delivers (fun _ => True) Cause.Textual := by
  refine .loop (fun _ => True) trivial fun found _ => (address_delivers found).andThen fun found => ?_
  refine .andThen (.skip fun c => ?_) fun whole => .skip fun separator => ?_
  · split
    · exact .skip fun _ => .pure trivial
    · exact .skip fun _ => .pure trivial
    · exact .pure trivial
  · split
    · exact .skip fun _ => .pure trivial
    · exact .skip fun _ => .pure trivial
    · exact .pure trivial

instance : Faultless typedName where
  delivers := by
    refine .skip fun c => ?_
    split
    · exact .pure trivial
    · refine .ite (fun _ => .skip fun _ => .pure trivial) fun _ => .skip fun ahead => ?_
      refine .ite (fun _ => .skip fun _ => .pure trivial) fun _ => ?_
      refine .ite (fun _ => .of_faultless) fun _ => .skip fun ahead => .ite (fun _ => .of_faultless) fun _ => ?_
      refine .skip fun start => .skip fun name => .ite (fun _ => .skip fun _ => .of_faultless) fun _ => ?_
      exact .pure trivial

instance (neovim : Bool) (known : UserNames) : Faultless (command neovim known) where
  delivers := by
    refine .skip fun typed => .ite (fun _ => .pure trivial) fun _ => .ite (fun _ => ?_) fun _ => .pure trivial
    exact .ite (fun _ => .pure trivial) fun _ => .skip fun _ => .pure trivial

/-! ### Options of file commands -/

theorem fileOption_delivers (inv : Invocation) : (fileOption inv).Delivers (fun _ => True) Cause.Textual := by
  refine .skip fun ahead => ?_
  refine .ite (fun _ => .skip fun _ => .pure trivial) fun _ => ?_
  refine .ite (fun _ => .skip fun _ => .pure trivial) fun _ => ?_
  refine .ite (fun _ => .skip fun _ => .pure trivial) fun _ => ?_
  refine .ite (fun _ => .skip fun _ => .skip fun _ => .pure trivial) fun _ => ?_
  refine .ite (fun _ => .skip fun _ => .skip fun _ => .pure trivial) fun _ => ?_
  refine .ite (fun _ => .skip fun _ => .skip fun _ => .pure trivial) fun _ => ?_
  refine .ite (fun _ => .skip fun _ => .skip fun _ => .pure trivial) fun _ => ?_
  exact .ite (fun _ => .skip fun _ => .skip fun _ => .pure trivial) fun _ => .failHere (.inr rfl)

theorem fileOptions_delivers (inv : Invocation) : (fileOptions inv).Delivers (fun _ => True) Cause.Textual := by
  refine .loop (fun _ => True) trivial fun inv _ => .skip fun first => .skip fun second => ?_
  refine .ite (fun _ => ?_) fun _ => .pure trivial
  exact (fileOption_delivers inv).andThen fun inv => .skip fun _ => .pure trivial

instance : Faultless startCommandText where
  delivers := by
    refine .loop (fun _ => True) trivial fun text _ => .skip fun c => .ite (fun _ => .pure trivial) fun _ => ?_
    refine .skip fun _ => ?_
    split
    · refine .skip fun escaped => ?_
      split
      · exact .skip fun _ => .pure trivial
      · exact .pure trivial
    · exact .pure trivial
    · exact .pure trivial

instance (inv : Invocation) : Faultless (startCommand inv) where
  delivers := by
    refine .skip fun c => .ite (fun _ => .skip fun _ => .skip fun after => ?_) fun _ => .pure trivial
    exact .ite (fun _ => .pure trivial) fun _ => .skip fun _ => .pure trivial

end VimScript.Statement
