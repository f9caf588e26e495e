import VimScript.Proofs.Expr.Shape
import VimScript.Proofs.Tree.Form

/-!
Forms are read in one way only. A form that is written before something that closes it is told apart from every other
form, with one proviso: the mark of a register without a name has to be the last of a line to be told from a register
named by the parenthesis after it.
-/

set_option autoImplicit false

namespace VimScript

variable {ended ended' : Prop} {sort sort' : Leaf} {xs ys rest rest' : List Char} {c : Char} {f g : Form}

namespace Token

theorem SingleQuoted.unique (first : SingleQuoted xs) (second : SingleQuoted ys) (stop : rest.head? ≠ some '\'')
    (stop' : rest'.head? ≠ some '\'') (same : xs ++ '\'' :: rest = ys ++ '\'' :: rest') : xs = ys ∧ rest = rest' := by
  induction first generalizing ys with
  | nil =>
    cases second with
    | nil => exact ⟨rfl, (List.cons.inj same).2⟩
    | quote => exact absurd (by rw [(List.cons.inj same).2]; rfl) stop
    | char plain => exact absurd (List.cons.inj same).1.symm plain
  | quote _ ih =>
    cases second with
    | nil => exact absurd (by rw [← (List.cons.inj same).2]; rfl) stop'
    | quote second =>
      obtain ⟨rfl, left⟩ := ih second (List.cons.inj (List.cons.inj same).2).2
      exact ⟨rfl, left⟩
    | char plain => exact absurd (List.cons.inj same).1.symm plain
  | char plain _ _ ih =>
    cases second with
    | nil => exact absurd (List.cons.inj same).1 plain
    | quote => exact absurd (List.cons.inj same).1 plain
    | char _ _ second =>
      obtain ⟨rfl, tail⟩ := List.cons.inj same
      obtain ⟨rfl, left⟩ := ih second tail
      exact ⟨rfl, left⟩

theorem DoubleQuoted.unique (first : DoubleQuoted xs) (second : DoubleQuoted ys)
    (same : xs ++ '"' :: rest = ys ++ '"' :: rest') : xs = ys ∧ rest = rest' := by
  induction first generalizing ys with
  | nil =>
    cases second with
    | nil => exact ⟨rfl, (List.cons.inj same).2⟩
    | escape => exact absurd (List.cons.inj same).1 (by decide)
    | char plain => exact absurd (List.cons.inj same).1.symm plain
  | escape _ _ ih =>
    cases second with
    | nil => exact absurd (List.cons.inj same).1 (by decide)
    | escape _ second =>
      obtain ⟨rfl, tail⟩ := List.cons.inj (List.cons.inj same).2
      obtain ⟨rfl, left⟩ := ih second tail
      exact ⟨rfl, left⟩
    | char _ noEscape => exact absurd (List.cons.inj same).1.symm noEscape
  | char plain noEscape _ _ ih =>
    cases second with
    | nil => exact absurd (List.cons.inj same).1 plain
    | escape => exact absurd (List.cons.inj same).1 noEscape
    | char _ _ _ second =>
      obtain ⟨rfl, tail⟩ := List.cons.inj same
      obtain ⟨rfl, left⟩ := ih second tail
      exact ⟨rfl, left⟩
end Token

namespace Form

/-- The characters of words. -/
def isWordChar (c : Char) : Bool :=
  !(" ()\x7b\x7d'\"@".toList.contains c)

/-- The forms of the trees that are read. Only in the last place may a text depend on the end of the line. -/
inductive Proper : Prop → Form → Prop where
  | verbatim {ended : Prop} {sort : Leaf} {text : List Char} (spelled : sort.Spelled ended text)
      (closed : sort = .string ∨ sort = .register) : Proper ended (.verbatim text)
  | word {ended : Prop} {pieces : List (Char ⊕ Form)} (some : pieces ≠ [])
      (chars : ∀ c, .inl c ∈ pieces → isWordChar c = true) (values : ∀ f, .inr f ∈ pieces → Proper False f) :
      Proper ended (.word pieces)
  | group {ended : Prop} {items : List Form} (before : ∀ f ∈ items.dropLast, Proper False f)
      (last : ∀ f ∈ items.getLast?, Proper ended f) : Proper ended (.group items)

theorem Proper.mono (h : f.Proper ended) (weaker : ended → ended') : f.Proper ended' := by
  induction h generalizing ended' with
  | verbatim spelled closed => exact .verbatim (spelled.mono weaker) closed
  | word some chars values => exact .word some chars values
  | group before _ _ ih => exact .group before fun f place => ih f place weaker

theorem Proper.group_of_all {items : List Form} (all : ∀ f ∈ items, f.Proper False) : (Form.group items).Proper ended :=
  .group (fun f place => all f (List.dropLast_subset items place))
    fun f place => (all f (List.mem_of_mem_getLast? place)).mono False.elim

/-- The first characters of the forms of a sort. -/
def Starts : Form → Char → Prop
  | .verbatim _, c => c = '\'' ∨ c = '"' ∨ c = '@'
  | .word _, c => c = '\x7b' ∨ isWordChar c = true
  | .group _, c => c = '('

theorem Proper.starts (h : f.Proper ended) : ∃ c cs, f.written = c :: cs ∧ f.Starts c := by
  cases h with
  | verbatim spelled closed =>
    cases spelled with
    | register => exact ⟨_, _, rfl, .inr (.inr rfl)⟩
    | unnamedRegister => exact ⟨_, _, rfl, .inr (.inr rfl)⟩
    | singleQuoted => exact ⟨_, _, rfl, .inl rfl⟩
    | doubleQuoted => exact ⟨_, _, rfl, .inr (.inl rfl)⟩
    | _ => simp at closed
  | @word _ pieces some chars =>
    obtain ⟨piece, pieces, rfl⟩ := List.exists_cons_of_ne_nil some
    cases piece with
    | inl c => exact ⟨c, glued pieces, by simp [written, glued, pieceText], .inr (chars c (by simp))⟩
    | inr value => exact ⟨'\x7b', _, by rw [written, glued, pieceText]; rfl, .inl rfl⟩
  | group => exact ⟨_, _, by rw [written], rfl⟩

/-- Whether two forms are of one sort. -/
def Matches : Form → Form → Prop
  | .verbatim _, .verbatim _ | .word _, .word _ | .group _, .group _ => True
  | _, _ => False

theorem Starts.matches (first : f.Starts c) (second : g.Starts c) : f.Matches g := by
  cases f <;> cases g
  case verbatim.verbatim | word.word | group.group => trivial
  case verbatim.word | verbatim.group => rcases first with rfl | rfl | rfl <;> simp [Starts, isWordChar] at second
  case word.verbatim | group.verbatim => rcases second with rfl | rfl | rfl <;> simp [Starts, isWordChar] at first
  case word.group =>
    obtain rfl := second
    simp [Starts, isWordChar] at first
  case group.word =>
    obtain rfl := first
    simp [Starts, isWordChar] at second

theorem Proper.matches (first : f.Proper ended) (second : g.Proper ended')
    (same : f.written ++ rest = g.written ++ rest') : f.Matches g := by
  obtain ⟨c, cs, text, starts⟩ := first.starts
  obtain ⟨d, ds, text', starts'⟩ := second.starts
  rw [text, text'] at same
  obtain ⟨rfl, -⟩ := List.cons.inj same
  exact starts.matches starts'

/-- What may come after a form: a blank or what closes the form around it. -/
def Closes (rest : List Char) : Prop :=
  ∀ c ∈ rest.head?, c = ' ' ∨ c = ')' ∨ c = '\x7d'

theorem Starts.not_closes {cs : List Char} (starts : f.Starts c) : ¬Closes (c :: cs) := by
  intro closes
  have close := closes c rfl
  cases f with
  | verbatim | group => rcases close with rfl | rfl | rfl <;> simp [Starts] at starts
  | word => rcases close with rfl | rfl | rfl <;> simp [Starts, isWordChar] at starts

/-- Two texts of any characters, each before something that closes it. -/
theorem verbatim_unique (first : sort.Spelled ended xs) (second : sort'.Spelled ended' ys)
    (closed : sort = .string ∨ sort = .register) (closed' : sort' = .string ∨ sort' = .register) (closes : Closes rest)
    (closes' : Closes rest') (last : ended → rest.length ≤ rest'.length) (last' : ended' → rest'.length ≤ rest.length)
    (same : xs ++ rest = ys ++ rest') : xs = ys ∧ rest = rest' := by
  have noQuote {cs : List Char} (closes : Closes cs) : cs.head? ≠ some '\'' :=
    fun quote => absurd (closes _ quote) (by decide)
  cases first with
  | register =>
    cases second with
    | register =>
      obtain ⟨rfl, tail⟩ := List.cons.inj (List.cons.inj same).2
      exact ⟨rfl, tail⟩
    | unnamedRegister stop =>
      have longer := congrArg List.length (List.cons.inj same).2
      have shorter := last' stop
      simp at longer
      omega
    | singleQuoted | doubleQuoted => simp at same
    | _ => simp at closed'
  | unnamedRegister stop =>
    cases second with
    | register =>
      have longer := congrArg List.length (List.cons.inj same).2
      have shorter := last stop
      simp at longer
      omega
    | unnamedRegister => exact ⟨rfl, (List.cons.inj same).2⟩
    | singleQuoted | doubleQuoted => simp at same
    | _ => simp at closed'
  | singleQuoted quoted =>
    cases second with
    | singleQuoted quoted' =>
      obtain ⟨rfl, left⟩ := quoted.unique quoted' (noQuote closes) (noQuote closes') (by simpa using same)
      exact ⟨rfl, left⟩
    | register | unnamedRegister | doubleQuoted => simp at same
    | _ => simp at closed'
  | doubleQuoted quoted =>
    cases second with
    | doubleQuoted quoted' =>
      obtain ⟨rfl, left⟩ := quoted.unique quoted' (by simpa using same)
      exact ⟨rfl, left⟩
    | register | unnamedRegister | singleQuoted => simp at same
    | _ => simp at closed'
  | _ => simp at closed

/-- What is told of a form by its text and what comes after it. -/
def IsRead (ended : Prop) (f : Form) : Prop :=
  ∀ ⦃g : Form⦄ ⦃ended' : Prop⦄ ⦃rest rest' : List Char⦄, g.Proper ended' → Closes rest → Closes rest' →
    (ended → rest.length ≤ rest'.length) → (ended' → rest'.length ≤ rest.length) →
    f.written ++ rest = g.written ++ rest' → f = g ∧ rest = rest'

theorem glued_unique {ps qs : List (Char ⊕ Form)} (chars : ∀ c, .inl c ∈ ps → isWordChar c = true)
    (values : ∀ f, .inr f ∈ ps → f.IsRead False) (chars' : ∀ c, .inl c ∈ qs → isWordChar c = true)
    (values' : ∀ f, .inr f ∈ qs → f.Proper False) (closes : Closes rest) (closes' : Closes rest')
    (same : glued ps ++ rest = glued qs ++ rest') : ps = qs ∧ rest = rest' := by
  induction ps generalizing qs with
  | nil =>
    cases qs with
    | nil => exact ⟨rfl, by simpa [glued] using same⟩
    | cons q qs =>
      have starts : (Form.word (q :: qs)).Proper False := .word (by simp) chars' values'
      obtain ⟨c, cs, text, starts⟩ := starts.starts
      rw [written] at text
      rw [text, glued, List.nil_append] at same
      exact absurd (same ▸ closes) starts.not_closes
  | cons p ps ih =>
    have plain {c : Char} (word : isWordChar c = true) : c ≠ '\x7b' := fun brace => by
      rw [brace] at word
      exact absurd word (by decide)
    have later {qs : List (Char ⊕ Form)} := @ih qs (fun c place => chars c (List.mem_cons_of_mem p place))
      fun f place => values f (List.mem_cons_of_mem p place)
    cases qs with
    | nil =>
      cases p with
      | inl c =>
        have starts : (Form.word [.inl c]).Starts c := .inr (chars c List.mem_cons_self)
        rw [glued, glued, List.nil_append, pieceText] at same
        exact absurd (same ▸ closes') starts.not_closes
      | inr value =>
        have starts : (Form.word [.inr value]).Starts '\x7b' := .inl rfl
        rw [glued, glued, List.nil_append, pieceText] at same
        exact absurd (same ▸ closes') starts.not_closes
    | cons q qs =>
      have chars'' : ∀ c, .inl c ∈ qs → isWordChar c = true := fun c place => chars' c (List.mem_cons_of_mem q place)
      have values'' : ∀ f, .inr f ∈ qs → f.Proper False := fun f place => values' f (List.mem_cons_of_mem q place)
      rw [glued, glued] at same
      cases p with
      | inl c =>
        cases q with
        | inl d =>
          obtain ⟨rfl, tail⟩ := List.cons.inj same
          obtain ⟨rfl, left⟩ := later chars'' values'' tail
          exact ⟨rfl, left⟩
        | inr value => exact absurd (List.cons.inj same).1 (plain (chars c List.mem_cons_self))
      | inr value =>
        cases q with
        | inl d => exact absurd (List.cons.inj same).1.symm (plain (chars' d List.mem_cons_self))
        | inr value' =>
          have inner : value.written ++ '\x7d' :: (glued ps ++ rest) =
              value'.written ++ '\x7d' :: (glued qs ++ rest') := by
            simpa [pieceText] using same
          have brace (cs : List Char) : Closes ('\x7d' :: cs) := by simp [Closes]
          obtain ⟨rfl, tail⟩ :=
            values value List.mem_cons_self (values' value' List.mem_cons_self) (brace _) (brace _) False.elim
              False.elim inner
          obtain ⟨rfl, left⟩ := later chars'' values'' (List.cons.inj tail).2
          exact ⟨rfl, left⟩

/-- What comes after the first item of a list. -/
def after : List Form → List Char → List Char
  | [], rest => ')' :: rest
  | item :: items, rest => ' ' :: (spaced (item :: items) ++ ')' :: rest)

theorem spaced_append (item : Form) (items : List Form) (rest : List Char) :
    spaced (item :: items) ++ ')' :: rest = item.written ++ after items rest := by
  cases items with
  | nil => rw [spaced, after]
  | cons next items => rw [spaced_cons item (by simp), after, List.append_assoc, List.cons_append]

theorem closes_after (items : List Form) (rest : List Char) : Closes (after items rest) := by
  cases items <;> simp [after, Closes]

theorem length_lt_after (items : List Form) (rest : List Char) : rest.length < (after items rest).length := by
  cases items with
  | nil => simp [after]
  | cons item items =>
    rw [after, List.length_cons, List.length_append, List.length_cons]
    omega

theorem IsRead.mono (h : f.IsRead ended) (weaker : ended → ended') : f.IsRead ended' :=
  fun _ _ _ _ proper closes closes' last => h proper closes closes' fun e => last (weaker e)

theorem Proper.first {items : List Form} (h : (Form.group (f :: items)).Proper ended) :
    f.Proper (items = [] ∧ ended) := by
  cases h with
  | group before last =>
    cases items with
    | nil => simpa using last f rfl
    | cons => exact (before f (by simp)).mono False.elim

theorem Proper.others {items : List Form} (h : (Form.group (f :: items)).Proper ended) :
    (Form.group items).Proper ended := by
  cases h with
  | group before last =>
    cases items with
    | nil => exact .group (by simp) (by simp)
    | cons next items =>
      refine .group (fun g place => before g ?_) (by simpa using last)
      rw [List.dropLast_cons_cons]
      exact List.mem_cons_of_mem f place

theorem spaced_unique {items items' : List Form} (proper : (Form.group items).Proper ended)
    (proper' : (Form.group items').Proper ended') (before : ∀ f ∈ items.dropLast, f.IsRead False)
    (last : ∀ f ∈ items.getLast?, f.IsRead ended) (ends : ended → rest.length ≤ rest'.length)
    (ends' : ended' → rest'.length ≤ rest.length)
    (same : spaced items ++ ')' :: rest = spaced items' ++ ')' :: rest') : items = items' ∧ rest = rest' := by
  induction items generalizing items' with
  | nil =>
    cases items' with
    | nil => exact ⟨rfl, (List.cons.inj same).2⟩
    | cons g gs =>
      obtain ⟨c, cs, text, starts⟩ := proper'.first.starts
      rw [spaced_append, text, spaced, List.nil_append, ← after] at same
      exact absurd (same ▸ closes_after [] rest) starts.not_closes
  | cons f fs ih =>
    cases items' with
    | nil =>
      obtain ⟨c, cs, text, starts⟩ := proper.first.starts
      rw [spaced_append, text, spaced, List.nil_append, ← after] at same
      exact absurd (same ▸ closes_after [] rest') starts.not_closes
    | cons g gs =>
      have front : f.IsRead (fs = [] ∧ ended) := by
        cases fs with
        | nil => simpa using last f rfl
        | cons => exact (before f (by simp)).mono False.elim
      have shorter : fs = [] ∧ ended → (after fs rest).length ≤ (after gs rest').length := by
        rintro ⟨rfl, stop⟩
        exact Nat.le_trans (Nat.succ_le_succ (ends stop)) (length_lt_after gs rest')
      have shorter' : gs = [] ∧ ended' → (after gs rest').length ≤ (after fs rest).length := by
        rintro ⟨rfl, stop⟩
        exact Nat.le_trans (Nat.succ_le_succ (ends' stop)) (length_lt_after fs rest)
      rw [spaced_append, spaced_append] at same
      obtain ⟨rfl, tail⟩ := front proper'.first (closes_after fs rest) (closes_after gs rest') shorter shorter' same
      cases fs with
      | nil =>
        cases gs with
        | nil => exact ⟨rfl, (List.cons.inj tail).2⟩
        | cons => exact absurd (List.cons.inj tail).1 (by decide)
      | cons x xs =>
        cases gs with
        | nil => exact absurd (List.cons.inj tail).1 (by decide)
        | cons y ys =>
          have before : ∀ g ∈ (x :: xs).dropLast, g.IsRead False := fun g place =>
            before g (by rw [List.dropLast_cons_cons]; exact List.mem_cons_of_mem f place)
          obtain ⟨items, left⟩ :=
            ih proper.others proper'.others before (by simpa using last) (List.cons.inj tail).2
          exact ⟨by rw [items], left⟩

theorem Proper.isRead (h : f.Proper ended) : f.IsRead ended := by
  induction h with
  | verbatim spelled closed =>
    intro g ended' rest rest' proper closes closes' last last' same
    have sort := (Proper.verbatim spelled closed).matches proper same
    cases proper with
    | verbatim spelled' closed' =>
      obtain ⟨rfl, left⟩ := verbatim_unique spelled spelled' closed closed' closes closes' last last' same
      exact ⟨rfl, left⟩
    | _ => exact sort.elim
  | word some chars values ih =>
    intro g ended' rest rest' proper closes closes' last last' same
    have sort := (Proper.word some chars values : Proper False _).matches proper same
    cases proper with
    | word _ chars' values' =>
      obtain ⟨rfl, left⟩ := glued_unique chars ih chars' values' closes closes' same
      exact ⟨rfl, left⟩
    | _ => exact sort.elim
  | group before last ih ih' =>
    intro g ended' rest rest' proper closes closes' ends ends' same
    have sort := (Proper.group before last).matches proper same
    cases proper with
    | group before' last' =>
      have inner := (List.cons.inj same).2
      obtain ⟨rfl, left⟩ :=
        spaced_unique (.group before last) (.group before' last') ih ih' ends ends' (by simpa using inner)
      exact ⟨rfl, left⟩
    | _ => exact sort.elim

end Form

end VimScript
