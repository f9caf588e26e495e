import VimScript.Proofs.Scan.Gives
import VimScript.Statement

/-!
The nodes that statements are about. A set that has all expressions and all targets that are read, and parameters and
heredocs with them, has whatever a statement reads as its operands.
-/

set_option autoImplicit false

namespace VimScript.Statement

open Scan

variable {P : Node → Prop} {s : Source} {i : Nat}

/-- All that statements read from a buffer is in a set of nodes. -/
structure Reads (P : Node → Prop) (s : Source) : Prop where
  expression : ∀ i, Expr.read.Gives s i fun n _ => P n
  target : ∀ i, Target.read.Gives s i fun n _ => P n
  parameter : ∀ i token j, Token.next s i = .ok token j → token.kind = .identifier ∨ token.kind = .ellipsis →
    P (.identifier token.value token.position)
  heredoc : ∀ inv i, (heredoc inv).Gives s i fun found _ => P found.1

theorem forall_concat {ns : List Node} {n : Node} (before : ∀ n ∈ ns, P n) (last : P n) : ∀ m ∈ ns ++ [n], P m := by
  simpa [or_imp, forall_and] using ⟨before, last⟩

def TargetsIn (P : Node → Prop) (left : Targets Node) : Prop :=
  (∀ n ∈ left.single, P n) ∧ (∀ n ∈ left.items, P n) ∧ ∀ n ∈ left.rest, P n

def ParametersIn (P : Node → Prop) (params : Parameters) : Prop :=
  (∀ n ∈ params.names, P n) ∧ ∀ n ∈ params.defaults, P n

theorem ParametersIn.empty : ParametersIn P {} := by
  simp [ParametersIn]

section Operands

variable (reads : Reads P s)

include reads

theorem target_gives : target.Gives s i fun n _ => P n := by
  refine (reads.target i).bind fun node _ known => ?_
  split
  · exact .ite (fun _ => .pure known) fun _ => .fail
  · exact .pure known

theorem constantTarget_gives : constantTarget.Gives s i fun n _ => P n := by
  refine (target_gives reads).bind fun node _ known => ?_
  split
  · exact .fail
  · exact .pure known

theorem targets_give {single : Scan Node} (one : ∀ i, single.Gives s i fun n _ => P n) :
    (targets single).Gives s i fun left _ => TargetsIn P left := by
  refine .step fun _ j _ => .ite (fun _ => ?_) fun _ => .step fun _ k _ => ?_
  · exact (one j).bind fun node _ known => .pure ⟨by simpa using known, by simp, by simp⟩
  · refine .loop (fun items _ => ∀ n ∈ items, P n) (by simp) fun items k known => ?_
    refine (target_gives reads).bind fun item _ last => .step fun token l _ => ?_
    have all := forall_concat known last
    split
    · exact .pure ⟨by simp, all, by simp⟩
    · exact .pure all
    · refine (target_gives reads).bind fun rest _ last => .step fun _ _ _ => ?_
      exact .ite (fun _ => .stop .fail) fun _ => .pure ⟨by simp, all, by simpa using last⟩
    · exact .fail

theorem functionParameter_gives {found : Parameters} {token : Token} (known : ParametersIn P found)
    (name : P (.identifier token.value token.position)) :
    (functionParameter found token).Gives s i fun next _ => ParametersIn P next.1 := by
  have names := forall_concat known.1 name
  refine .ite (fun _ => .stop .fail) fun _ => .ite (fun _ => .stop .fail) fun _ => ?_
  refine .bind (q := fun defaults _ => ∀ n ∈ defaults, P n) ?_ fun defaults j all => ?_
  · refine .step fun _ _ _ => .ite (fun _ => .step fun _ k _ => ?_) fun _ => ?_
    · exact (reads.expression k).bind fun value _ last => .pure (forall_concat known.2 last)
    · exact .ite (fun _ => .fail) fun _ => .pure known.2
  have rest (k : Nat) : Gives (do
      let after ← Token.next
      return ((⟨found.names ++ [Node.identifier token.value token.position], defaults⟩, after) : Parameters × Token))
      s k fun next _ => ParametersIn P next.1 :=
    .step fun _ _ _ => .pure ⟨names, all⟩
  refine .step fun _ k _ => .ite (fun _ => .step fun _ l _ => ?_) fun _ => rest k
  exact .ite (fun _ => .stop .failHere) fun _ => rest l

theorem functionParameters_give :
    functionParameters.Gives s i fun params _ => ParametersIn P params := by
  refine .step fun _ _ _ => .ite (fun _ => .step fun _ _ _ => .pure .empty) fun _ => ?_
  refine .loop (fun found _ => ParametersIn P found) .empty fun found j known => .step fun token k run => ?_
  split
  · rename_i word
    refine (functionParameter_gives reads known (reads.parameter j token k run (.inl word))).bind ?_
    rintro ⟨next, after⟩ l known
    dsimp only
    split
    · refine .step fun _ _ _ => .ite (fun _ => .step fun _ _ _ => .pure known) fun _ => .pure known
    · exact .pure known
    · exact .fail
  · rename_i dots
    have names := forall_concat known.1 (reads.parameter j token k run (.inr dots))
    exact .step fun _ _ _ => .ite (fun _ => .stop .fail) fun _ => .pure ⟨names, known.2⟩
  · exact .fail

theorem variableList_gives : variableList.Gives s i fun found _ => ∀ n ∈ found, P n := by
  refine (reads.expression i).bind fun first j known => ?_
  refine .loop (fun found _ => ∀ n ∈ found, P n) (by simpa using known) fun found j known => ?_
  refine .step fun _ _ _ => .step fun _ k _ => .ite (fun _ => .pure known) fun _ => ?_
  exact (target_gives reads).bind fun node _ last => .pure (forall_concat known last)

theorem functionName_gives : functionName.Gives s i fun n _ => P n :=
  (reads.target i).bind fun _ _ known => .ite (fun _ => .stop .fail) fun _ => .pure known

theorem expressions_give : expressions.Gives s i fun found _ => ∀ n ∈ found, P n := by
  refine .loop (fun found _ => ∀ n ∈ found, P n) (by simp) fun found j known => ?_
  refine .step fun _ _ _ => .step fun _ k _ => .ite (fun _ => .pure known) fun _ => ?_
  exact (reads.expression k).bind fun _ _ last => .pure (forall_concat known last)

end Operands

end VimScript.Statement
