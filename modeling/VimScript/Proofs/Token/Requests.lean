import VimScript.Expr.Primary
import VimScript.Proofs.Token.Extent

/-!
What a tokenizer is asked for, one request after another. A token that is remembered is found by the cursor it was asked
for at, while strings, keys and seeks move the cursor past the memory; all the same the replies are those of a tokenizer
that forgets everything before each request.
-/

set_option autoImplicit false

namespace VimScript

variable {α β : Type} {s : Source} {i j : Nat}

def Reply.map (f : α → β) : Reply α → Reply β
  | .ok a j => .ok (f a) j
  | .fail fault j => .fail fault j
  | .spent => .spent

/-- The cursor after a reply to what was asked at a cursor. -/
def Reply.cursorFrom (i : Nat) : Reply α → Nat
  | .ok _ j => j
  | .fail _ j => j
  | .spent => i

theorem Reply.map_ne_spent {f : α → β} {reply : Reply α} (h : reply ≠ .spent) : reply.map f ≠ .spent := by
  cases reply with
  | ok a j => simp [map]
  | fail fault j => simp [map]
  | spent => exact absurd rfl h

/-! ### Strings and keys anywhere -/

namespace Token

theorem ahead_eq_nil (past : ¬i ≤ s.size) : s.ahead i = [] := by
  rw [← List.length_eq_zero_iff, s.length_ahead]
  omega

/-- A scan that answers in the buffer and where nothing is ahead answers everywhere. -/
theorem answers_of_follows {x : Scan α} {post : α → α → Nat → Prop}
    (within : (Overlap.whole s).Inside i → (Overlap.whole s).Follows i x x post)
    (past : s.ahead i = [] → x s i ≠ .spent) : x s i ≠ .spent := by
  by_cases bound : i ≤ s.size
  · have answered := (within (Overlap.inside_whole bound)).ne_spent
    rwa [show (Overlap.whole s).left + i = i from Nat.zero_add i] at answered
  · exact past (ahead_eq_nil bound)

theorem singleQuoted_answers (s : Source) (i : Nat) : singleQuoted s i ≠ .spent := by
  refine answers_of_follows singleQuoted_follows fun empty => ?_
  simp [singleQuoted, Scan.bind_of_ok (Scan.skipWhite_of_solid empty rfl), Scan.bind_of_ok (Scan.peek_of_ahead empty),
    Scan.bind_apply, Scan.failHere]

theorem doubleQuoted_answers (s : Source) (i : Nat) : doubleQuoted s i ≠ .spent := by
  refine answers_of_follows doubleQuoted_follows fun empty => ?_
  simp [doubleQuoted, Scan.bind_of_ok (Scan.skipWhite_of_solid empty rfl), Scan.bind_of_ok (Scan.peek_of_ahead empty),
    Scan.bind_apply, Scan.failHere]

theorem literalKey_answers (s : Source) (i : Nat) : literalKey s i ≠ .spent := by
  refine answers_of_follows literalKey_follows fun empty => ?_
  simp [literalKey, Scan.bind_of_ok (Scan.skipWhite_of_solid empty rfl), Scan.bind_of_ok (Scan.peek_of_ahead empty),
    Scan.bind_apply, Scan.failHere]

end Token

namespace Tokenizer

inductive Request where
  | get
  | peek
  | singleQuoted
  | doubleQuoted
  | literalKey
  | seek (cursor : Nat)
deriving DecidableEq, Repr

inductive Answer where
  | token (token : Token)
  | body (text : String)
  | key (node : Node)
  | moved

/-- The reply to one request at a cursor, and what the tokenizer remembers after it. -/
def answer (t : Tokenizer) (request : Request) (s : Source) (i : Nat) : Reply Answer × Tokenizer :=
  match request with
  | .get =>
    let (reply, t) := t.get s i
    (reply.map .token, t)
  | .peek =>
    let (reply, t) := t.peek s i
    (reply.map .token, t)
  | .singleQuoted => ((Token.singleQuoted s i).map .body, t)
  | .doubleQuoted => ((Token.doubleQuoted s i).map .body, t)
  | .literalKey => ((Expr.literalKey s i).map .key, t)
  | .seek cursor => ((Scan.seek cursor s i).map fun _ => .moved, t)

/-- The replies to one request after another, each made where the reply before it left the cursor, after a fault as
well. Before each request the memory is replaced by means of `renew`. -/
def answers (renew : Tokenizer → Tokenizer) (s : Source) : Tokenizer → Nat → List Request → List (Reply Answer)
  | _, _, [] => []
  | t, i, request :: requests =>
    let (reply, t) := (renew t).answer request s i
    reply :: answers renew s t (reply.cursorFrom i) requests

variable {t : Tokenizer}

theorem peek_fst (faithful : t.Faithful s) (i : Nat) : (t.peek s i).1 = Token.peek s i := by
  simp only [peek, get_fst faithful, Token.peek, Scan.peeking]
  cases Token.next s i <;> rfl

theorem peek_snd (t : Tokenizer) (s : Source) (i : Nat) : (t.peek s i).2 = (t.get s i).2 := by
  simp only [peek]
  split <;> rfl

/-- What the reply to a request is, whatever is remembered. -/
def Request.reply (s : Source) (i : Nat) : Request → Reply Answer
  | .get => (Token.next s i).map .token
  | .peek => (Token.peek s i).map .token
  | .singleQuoted => (Token.singleQuoted s i).map .body
  | .doubleQuoted => (Token.doubleQuoted s i).map .body
  | .literalKey => (Expr.literalKey s i).map .key
  | .seek cursor => .ok .moved cursor

theorem answer_fst (faithful : t.Faithful s) (request : Request) (i : Nat) :
    (t.answer request s i).1 = request.reply s i := by
  cases request with
  | get => simp only [answer, Request.reply, get_fst faithful]
  | peek => simp only [answer, Request.reply, peek_fst faithful]
  | _ => rfl

theorem faithful_answer (faithful : t.Faithful s) (request : Request) (i : Nat) :
    (t.answer request s i).2.Faithful s := by
  cases request with
  | get => exact faithful_get faithful i
  | peek =>
    simp only [answer, peek_snd]
    exact faithful_get faithful i
  | _ => exact faithful

theorem Request.reply_ne_spent (s : Source) (i : Nat) (request : Request) : request.reply s i ≠ .spent := by
  cases request with
  | get => exact Reply.map_ne_spent (Token.next_answers s i)
  | peek =>
    have token := Token.next_answers s i
    apply Reply.map_ne_spent
    simp only [Token.peek, Scan.peeking]
    split <;> simp_all
  | singleQuoted => exact Reply.map_ne_spent (Token.singleQuoted_answers s i)
  | doubleQuoted => exact Reply.map_ne_spent (Token.doubleQuoted_answers s i)
  | literalKey =>
    have key := Token.literalKey_answers s i
    apply Reply.map_ne_spent
    simp only [Expr.literalKey, Scan.bind_apply]
    split <;> simp_all [Scan.pure_apply]
  | seek cursor => simp [reply]

/-- The replies of a tokenizer without a memory. -/
def replies (s : Source) : Nat → List Request → List (Reply Answer)
  | _, [] => []
  | i, request :: requests =>
    let reply := request.reply s i
    reply :: replies s (reply.cursorFrom i) requests

/-- As long as the memory is faithful before each request, it does not show. -/
theorem answers_eq_replies (renew : Tokenizer → Tokenizer) (keeps : ∀ t, t.Faithful s → (renew t).Faithful s)
    (requests : List Request) (i : Nat) (faithful : t.Faithful s) :
    answers renew s t i requests = replies s i requests := by
  induction requests generalizing t i with
  | nil => rfl
  | cons request requests ih =>
    have renewed := keeps t faithful
    simp only [answers, replies, answer_fst renewed, ih _ (faithful_answer renewed request i)]

theorem replies_ne_spent (s : Source) (i : Nat) (requests : List Request) : .spent ∉ replies s i requests := by
  induction requests generalizing i with
  | nil => simp [replies]
  | cons request requests ih =>
    simp only [replies, List.mem_cons, not_or]
    exact ⟨(request.reply_ne_spent s i).symm, ih _⟩

/-- Emptying the memory before every request changes no reply and no cursor, and every request is answered. -/
theorem answers_forgetful (s : Source) (i : Nat) (requests : List Request) :
    answers id s {} i requests = answers (fun _ => {}) s {} i requests ∧ .spent ∉ answers id s {} i requests := by
  have kept := answers_eq_replies id (fun _ faithful => faithful) requests i (faithful_empty s)
  have emptied := answers_eq_replies (fun _ => {}) (fun _ _ => faithful_empty s) requests i (faithful_empty s)
  rw [kept, emptied]
  exact ⟨rfl, replies_ne_spent s i requests⟩

end Tokenizer

end VimScript
