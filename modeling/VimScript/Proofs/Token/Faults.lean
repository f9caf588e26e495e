import VimScript.Proofs.Scan.Delivers
import VimScript.Token.Lexer

/-!
The faults of tokens: all of them are lexical.
-/

set_option autoImplicit false

namespace VimScript.Scan

theorem takeBlobDigits_delivers : takeBlobDigits.Delivers (fun _ => True) (·.kind = .lexical) := by
  refine .skip fun start => .loop (fun _ => True) trivial fun _ _ => .skip fun ahead => ?_
  split
  · refine .ite (fun _ => .skip fun _ => .pure trivial) fun _ => ?_
    refine .ite (fun _ => .skip fun _ => .pure trivial) fun _ => ?_
    exact .ite (fun _ => .failHere rfl) fun _ => .skip fun _ => .pure trivial
  · exact .skip fun _ => .pure trivial

end VimScript.Scan

namespace VimScript.Token

open Scan

instance : Faultless decimal where
  delivers := by
    refine .skip fun whole => .skip fun point => .skip fun digit => .ite (fun _ => ?_) fun _ => .pure trivial
    refine .skip fun _ => .skip fun fraction => .skip fun mark => .skip fun first => .skip fun second => ?_
    exact .ite (fun _ => .skip fun _ => .skip fun _ => .pure trivial) fun _ => .pure trivial

theorem number_delivers (c : Char) : (number c).Delivers (fun _ => True) (·.kind = .lexical) := by
  refine .skip fun first => .skip fun second => ?_
  refine .ite (fun _ => .skip fun _ => .skip fun _ => .pure trivial) fun _ => ?_
  refine .ite (fun _ => .skip fun _ => .skip fun _ => .pure trivial) fun _ => ?_
  refine .ite (fun _ => .skip fun _ => takeBlobDigits_delivers.andThen fun _ => .pure trivial) fun _ => ?_
  exact .ite (fun _ => .skip fun _ => .pure trivial) fun _ => .pure trivial

instance (test : Comparison) : Faultless (identityTest test) where
  delivers := .skip fun _ => .skip fun _ => .ite (fun _ => .skip fun _ => .pure trivial) fun _ => .pure trivial

instance (forms : List (String × TokenKind)) : Faultless (firstForm forms) where
  delivers := by
    induction forms with
    | nil => exact .pure trivial
    | cons form forms ih => exact .skip fun _ => .ite (fun _ => .skip fun _ => .pure trivial) fun _ => ih

instance (c : Char) : Faultless (sigil c) where
  delivers := by
    unfold sigil
    split
    · exact .skip fun _ => .skip fun _ => .pure trivial
    · exact .skip fun _ => .pure trivial
    · exact .skip fun _ => .skip fun _ => .skip fun _ => .skip fun _ => .pure trivial
    · exact .pure trivial

theorem lexeme_delivers (c : Char) : (lexeme c).Delivers (fun _ => True) (·.kind = .lexical) := by
  -- Each attempt that finds a token is the last one.
  refine (number_delivers c).andThen fun | some _ => .pure trivial | none => ?_
  refine .skip fun | some _ => .pure trivial | none => .skip fun | some _ => .pure trivial | none => ?_
  refine .ite (fun _ => .skip fun _ => .pure trivial) fun _ => ?_
  refine .skip fun | some _ => .pure trivial | none => .skip fun | some _ => .pure trivial | none => ?_
  dsimp only
  split
  · exact .skip fun _ => .pure trivial
  · exact .failHere rfl

theorem next_delivers : next.Delivers (fun _ => True) (·.kind = .lexical) := by
  refine .skip fun _ => .skip fun position => .skip fun c => ?_
  split
  · exact .pure trivial
  · exact .skip fun _ => .pure trivial
  · exact (lexeme_delivers _).andThen fun _ => .pure trivial

theorem peek_delivers : peek.Delivers (fun _ => True) (·.kind = .lexical) :=
  next_delivers.peeking

theorem singleQuoted_delivers : singleQuoted.Delivers (fun _ => True) (·.kind = .lexical) := by
  refine .skip fun _ => .skip fun c => .ite (fun _ => .stop (.failHere rfl)) fun _ => ?_
  refine .skip fun _ => .skip fun start => .loop (fun _ => True) trivial fun _ _ => .skip fun c => ?_
  split
  · exact .failHere rfl
  · refine .skip fun stop => .skip fun _ => .skip fun after => ?_
    exact .ite (fun _ => .skip fun _ => .pure trivial) fun _ => .skip fun _ => .pure trivial
  · exact .skip fun _ => .pure trivial

theorem doubleQuoted_delivers : doubleQuoted.Delivers (fun _ => True) (·.kind = .lexical) := by
  refine .skip fun _ => .skip fun c => .ite (fun _ => .stop (.failHere rfl)) fun _ => ?_
  refine .skip fun _ => .skip fun start => .loop (fun _ => True) trivial fun _ _ => .skip fun c => ?_
  split
  · exact .failHere rfl
  · exact .skip fun stop => .skip fun _ => .skip fun _ => .pure trivial
  · refine .skip fun _ => .skip fun escaped => ?_
    split
    · exact .failHere rfl
    · exact .skip fun _ => .pure trivial
  · exact .skip fun _ => .pure trivial

theorem literalKey_delivers : literalKey.Delivers (fun _ => True) (·.kind = .lexical) := by
  refine .skip fun _ => .skip fun c => .ite (fun _ => .stop (.failHere rfl)) fun _ => ?_
  refine .skip fun start => .skip fun _ => .skip fun position => .skip fun _ => .skip fun after => ?_
  exact .ite (fun _ => .stop (.failHere rfl)) fun _ => .skip fun _ => .pure trivial

end VimScript.Token
