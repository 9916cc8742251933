import Mathlib.Data.Fin.Basic
import Mathlib.Data.List.Basic

/-
  SQL as text, over UTF-16 code units.

  PROGRAM: the lexer is a machine.  A character either continues the token that is open
  (`continues`), or it ends that token (`finish`) and opens the next one (`opens`).  Strings are in
  single quotes and identifiers in double quotes, with the quote doubled inside and no other escape;
  a minus sign belongs to the number after it; `--`, and any character that is none of these, is
  refused.

  SPEC (`Lexes.token`): the text of a token followed by a blank, a bracket, a comma or a semicolon
  reads back as that token, whatever characters it holds.
-/

namespace SqlText

/-- A code unit. -/
abbrev Unit16 := Fin 65536

/-- What a statement is made of. -/
inductive Token where
  | word (w : List Unit16)
  | ident (name : List Unit16)
  | str (s : List Unit16)
  | num (t : List Unit16)
  | sym (s : List Unit16)
  deriving DecidableEq

/-! ## Characters -/

/-- A decimal digit. -/
def digit (u : Unit16) : Bool := 48 ≤ u.val ∧ u.val ≤ 57

/-- An ASCII letter. -/
def letter (u : Unit16) : Bool := (65 ≤ u.val ∧ u.val ≤ 90) ∨ (97 ≤ u.val ∧ u.val ≤ 122)

/-- Inside a word. -/
def wordUnit (u : Unit16) : Bool := letter u || digit u || u = 95

/-- Inside a number: a digit, a sign, a point or an exponent mark. -/
def numberUnit (u : Unit16) : Bool := digit u || u = 43 || u = 45 || u = 46 || u = 69 || u = 101

/-- Blanks, brackets, comma and semicolon: they continue no token outside quotes. -/
def boundary (u : Unit16) : Bool := u = 32 || u = 10 || u = 40 || u = 41 || u = 44 || u = 59

/-! ## The machine -/

/-- What the lexer has read of a token. -/
inductive State where
  /-- Between tokens. -/
  | start
  | word (w : List Unit16)
  /-- After a minus sign. -/
  | dash
  | num (t : List Unit16)
  /-- Between quotes. -/
  | inside (q : Unit16) (s : List Unit16)
  /-- After a quote: the closing one, or half of a doubled one. -/
  | afterQuote (q : Unit16) (s : List Unit16)
  | sym (s : List Unit16)

/-- What a character opens. -/
def opens (u : Unit16) : Option State :=
  if u = 32 || u = 10 then some .start
  else if u = 39 || u = 34 then some (.inside u [])
  else if u = 45 then some .dash
  else if digit u then some (.num [u])
  else if letter u then some (.word [u])
  else if u = 40 || u = 41 || u = 44 || u = 59 || u = 60 || u = 61 || u = 62 then some (.sym [u])
  else none

/-- How a character continues the open token. -/
def continues : State → Unit16 → Option State
  | .start, _ => none
  | .word w, u => if wordUnit u then some (.word (w ++ [u])) else none
  | .dash, u => if digit u then some (.num [45, u]) else none
  | .num t, u => if numberUnit u then some (.num (t ++ [u])) else none
  | .inside q s, u => if u = q then some (.afterQuote q s) else some (.inside q (s ++ [u]))
  | .afterQuote q s, u => if u = q then some (.inside q (s ++ [u])) else none
  | .sym s, u => if u = 61 && (s = [60] || s = [62]) then some (.sym (s ++ [61])) else none

/-- The token that ends here. -/
def finish : State → Option (List Token)
  | .start => some []
  | .word w => some [.word w]
  | .num t => some [.num t]
  | .afterQuote q s => some [if q = 39 then .str s else .ident s]
  | .sym s => some [.sym s]
  | .dash | .inside _ _ => none

/-- The tokens of a text, with one open. -/
def lexFrom : State → List Unit16 → Option (List Token)
  | state, [] => finish state
  | state, u :: us =>
    match continues state u with
    | some next => lexFrom next us
    | none => do
      let token ← finish state
      let next ← opens u
      let tokens ← lexFrom next us
      some (token ++ tokens)

/-- The tokens of a text. -/
def lex (text : List Unit16) : Option (List Token) := lexFrom .start text

/-- The text is these tokens. -/
def Lexes (text : List Unit16) (tokens : List Token) : Prop := lex text = some tokens

instance (text : List Unit16) (tokens : List Token) : Decidable (Lexes text tokens) :=
  inferInstanceAs (Decidable (lex text = some tokens))

/-- A unit that goes on with the token. -/
theorem lexFrom_continue {state next : State} {u : Unit16} (h : continues state u = some next)
    (us : List Unit16) : lexFrom state (u :: us) = lexFrom next us := by
  rw [lexFrom, h]

/-- A unit that opens one. -/
theorem lexFrom_open {u : Unit16} {next : State} (h : opens u = some next) (us : List Unit16) :
    lexFrom .start (u :: us) = lexFrom next us := by
  rw [lexFrom]
  simp only [continues, finish, h]
  show (lexFrom next us).bind (fun tokens => some ([] ++ tokens)) = lexFrom next us
  simp

/-- A character that does not continue the open token ends it. -/
theorem lexFrom_end {state : State} {u : Unit16} {us : List Unit16} {token : Token}
    {tokens : List Token} (hend : finish state = some [token]) (hno : continues state u = none)
    (hrest : Lexes (u :: us) tokens) : lexFrom state (u :: us) = some (token :: tokens) := by
  rw [Lexes, lex, lexFrom] at hrest
  rw [lexFrom, hno, hend]
  simp only [continues, finish] at hrest
  cases hopen : opens u with
  | none =>
    rw [hopen] at hrest
    cases hrest
  | some next =>
    rw [hopen] at hrest
    have hmap : (lexFrom next us).bind (fun more => some ([] ++ more)) = some tokens := hrest
    show (lexFrom next us).bind (fun more => some ([token] ++ more)) = some (token :: tokens)
    cases hlex : lexFrom next us with
    | none =>
      rw [hlex] at hmap
      cases hmap
    | some more =>
      rw [hlex] at hmap
      cases hmap
      rfl

/-! ## The text of a token -/

/-- A text with a quote doubled. -/
def doubled (q : Unit16) (s : List Unit16) : List Unit16 :=
  s.flatMap fun u => if u = q then [q, q] else [u]

/-- Doubling the quotes of a text, one unit after another. -/
theorem doubled_cons (q u : Unit16) (s : List Unit16) :
    doubled q (u :: s) = if u = q then q :: q :: doubled q s else u :: doubled q s := by
  rw [doubled, List.flatMap_cons]
  split
  next => rfl
  next => rfl

/-- A token as it is written. -/
def Token.text : Token → List Unit16
  | .word w => w
  | .ident name => 34 :: (doubled 34 name ++ [34])
  | .str s => 39 :: (doubled 39 s ++ [39])
  | .num t => t
  | .sym s => s

/-- What the lexer reads as one word. -/
def wordText : List Unit16 → Bool
  | [] => false
  | u :: us => letter u && us.all wordUnit

/-- What the lexer reads as one number. -/
def numberText : List Unit16 → Bool
  | [] => false
  | [u] => digit u
  | u :: v :: us => if u = 45 then digit v && us.all numberUnit else digit u && (v :: us).all numberUnit

/-- The symbols. -/
def symbols : List (List Unit16) := [[40], [41], [44], [59], [60], [61], [62], [60, 61], [62, 61]]

/-- The text of the token is of its kind; what stands in quotes is free. -/
def Token.Wf : Token → Prop
  | .word w => wordText w = true
  | .num t => numberText t = true
  | .sym s => s ∈ symbols
  | .ident _ | .str _ => True

/-- A text that starts with a boundary, if with anything. -/
def Bounded (text : List Unit16) : Prop := ∀ u us, text = u :: us → boundary u = true

/-- A boundary ends what stands before it. -/
theorem bounded_cons {u : Unit16} (h : boundary u = true) (us : List Unit16) : Bounded (u :: us) := by
  rintro v vs heq
  cases heq
  exact h

/-- No word goes on over a boundary. -/
theorem letter_not_boundary {u : Unit16} (h : boundary u = true) : wordUnit u = false := by
  simp only [boundary, Bool.or_eq_true, decide_eq_true_eq] at h
  rcases h with ((((rfl | rfl) | rfl) | rfl) | rfl) | rfl <;> decide

/-- Nor does a number. -/
theorem number_not_boundary {u : Unit16} (h : boundary u = true) : numberUnit u = false := by
  simp only [boundary, Bool.or_eq_true, decide_eq_true_eq] at h
  rcases h with ((((rfl | rfl) | rfl) | rfl) | rfl) | rfl <;> decide

/-- A closed state: the token in it can end, and a boundary ends it. -/
def Closed (state : State) (token : Token) : Prop :=
  finish state = some [token] ∧ ∀ u, boundary u = true → continues state u = none

/-- **A token that can end here is one**, and the rest is read after it. -/
theorem lexFrom_closed {state : State} {token : Token} {rest : List Unit16} {tokens : List Token}
    (hclosed : Closed state token) (hbounded : Bounded rest) (hrest : Lexes rest tokens) :
    lexFrom state rest = some (token :: tokens) := by
  cases rest with
  | nil =>
    cases hrest
    rw [lexFrom, hclosed.1]
  | cons u us => exact lexFrom_end hclosed.1 (hclosed.2 u (hbounded u us rfl)) hrest

theorem closed_word (w : List Unit16) : Closed (.word w) (.word w) := by
  refine ⟨rfl, fun u hu => ?_⟩
  rw [continues, letter_not_boundary hu]
  rfl

theorem closed_num (t : List Unit16) : Closed (.num t) (.num t) := by
  refine ⟨rfl, fun u hu => ?_⟩
  rw [continues, number_not_boundary hu]
  rfl

/-- A quoted text ends after its second quote. -/
theorem closed_quoted {q : Unit16} (hq : boundary q = false) (s : List Unit16) :
    Closed (.afterQuote q s) (if q = 39 then .str s else .ident s) := by
  refine ⟨rfl, fun u hu => ?_⟩
  rw [continues, if_neg]
  rintro rfl
  rw [hq] at hu
  cases hu

theorem closed_sym (s : List Unit16) : Closed (.sym s) (.sym s) := by
  refine ⟨rfl, fun u hu => ?_⟩
  rw [continues, if_neg]
  intro h
  have hu61 : u = 61 := by simp at h; exact h.1
  rw [hu61] at hu
  exact absurd hu (by decide)

/-! ## Runs through one token -/

variable {rest : List Unit16}

/-- A word takes all that may stand in one. -/
theorem lexFrom_word {us : List Unit16} (h : us.all wordUnit = true) (w : List Unit16) :
    lexFrom (.word w) (us ++ rest) = lexFrom (.word (w ++ us)) rest := by
  induction us generalizing w with
  | nil => rw [List.nil_append, List.append_nil]
  | cons u us ih =>
    rw [List.all_cons, Bool.and_eq_true] at h
    have hstep : continues (.word w) u = some (.word (w ++ [u])) := if_pos h.1
    rw [List.cons_append, lexFrom_continue hstep, ih h.2, List.append_assoc, List.singleton_append]

/-- So does a number. -/
theorem lexFrom_num {us : List Unit16} (h : us.all numberUnit = true) (t : List Unit16) :
    lexFrom (.num t) (us ++ rest) = lexFrom (.num (t ++ us)) rest := by
  induction us generalizing t with
  | nil => rw [List.nil_append, List.append_nil]
  | cons u us ih =>
    rw [List.all_cons, Bool.and_eq_true] at h
    have hstep : continues (.num t) u = some (.num (t ++ [u])) := if_pos h.1
    rw [List.cons_append, lexFrom_continue hstep, ih h.2, List.append_assoc, List.singleton_append]

/-- A quoted text runs to its closing quote: a quote inside is doubled, so it opens the text again. -/
theorem lexFrom_quoted (q : Unit16) (s t : List Unit16) :
    lexFrom (.inside q t) (doubled q s ++ q :: rest) = lexFrom (.afterQuote q (t ++ s)) rest := by
  have hclose : ∀ t, continues (.inside q t) q = some (.afterQuote q t) := fun t => if_pos rfl
  induction s generalizing t with
  | nil =>
    rw [List.append_nil]
    exact lexFrom_continue (hclose t) rest
  | cons u s ih =>
    rw [doubled_cons]
    by_cases hu : u = q
    · subst hu
      have hagain : continues (.afterQuote u t) u = some (.inside u (t ++ [u])) := if_pos rfl
      rw [if_pos rfl, List.cons_append, List.cons_append, lexFrom_continue (hclose t),
        lexFrom_continue hagain, ih, List.append_assoc, List.singleton_append]
    · have hstep : continues (.inside q t) u = some (.inside q (t ++ [u])) := if_neg hu
      rw [if_neg hu, List.cons_append, lexFrom_continue hstep, ih, List.append_assoc,
        List.singleton_append]

/-- A letter opens a word. -/
theorem opens_letter {u : Unit16} (h : letter u = true) : opens u = some (.word [u]) := by
  have hne : ∀ v : Unit16, letter v = false → u ≠ v := by
    rintro v hv rfl
    rw [h] at hv
    cases hv
  have hdigit : digit u = false := by
    simp only [letter, digit, decide_eq_true_eq, decide_eq_false_iff_not] at h ⊢
    omega
  simp [opens, hdigit, h, hne 32 (by decide), hne 10 (by decide), hne 39 (by decide),
    hne 34 (by decide), hne 45 (by decide)]

/-- A digit opens a number. -/
theorem opens_digit {u : Unit16} (h : digit u = true) : opens u = some (.num [u]) := by
  have hne : ∀ v : Unit16, digit v = false → u ≠ v := by
    rintro v hv rfl
    rw [h] at hv
    cases hv
  simp [opens, h, hne 32 (by decide), hne 10 (by decide), hne 39 (by decide),
    hne 34 (by decide), hne 45 (by decide)]

/-- The lexer reaches the closed state of a token after its text. -/
theorem lexFrom_text {token : Token} (hwf : token.Wf) :
    ∃ state, Closed state token ∧ ∀ rest, lexFrom .start (token.text ++ rest) = lexFrom state rest := by
  cases token with
  | word w =>
    refine ⟨_, closed_word w, fun rest => ?_⟩
    cases w with
    | nil => cases hwf
    | cons u us =>
      obtain ⟨hu, hus⟩ := (Bool.and_eq_true _ _).mp hwf
      show lexFrom .start (u :: (us ++ rest)) = _
      rw [lexFrom_open (opens_letter hu), lexFrom_word hus, List.singleton_append]
  | num t =>
    refine ⟨_, closed_num t, fun rest => ?_⟩
    rcases t with _ | ⟨u, _ | ⟨v, us⟩⟩
    · cases hwf
    · exact lexFrom_open (opens_digit hwf) rest
    · have hwf' : (if u = 45 then digit v && us.all numberUnit
          else digit u && (v :: us).all numberUnit) = true := hwf
      by_cases hu : u = 45
      · -- the sign waits for its first digit
        rw [if_pos hu, Bool.and_eq_true] at hwf'
        subst hu
        show lexFrom .start (45 :: v :: (us ++ rest)) = _
        have hsign : continues .dash v = some (.num [45, v]) := if_pos hwf'.1
        rw [lexFrom_open (show opens 45 = some .dash from rfl), lexFrom_continue hsign,
          lexFrom_num hwf'.2]
        rfl
      · rw [if_neg hu, Bool.and_eq_true] at hwf'
        show lexFrom .start (u :: ((v :: us) ++ rest)) = _
        rw [lexFrom_open (opens_digit hwf'.1), lexFrom_num hwf'.2, List.singleton_append]
  | str s =>
    refine ⟨_, @closed_quoted 39 rfl s, fun rest => ?_⟩
    show lexFrom .start (39 :: ((doubled 39 s ++ [39]) ++ rest)) = _
    rw [lexFrom_open (show opens 39 = some (.inside 39 []) from rfl), List.append_assoc,
      List.singleton_append, lexFrom_quoted, List.nil_append]
  | ident name =>
    refine ⟨_, @closed_quoted 34 rfl name, fun rest => ?_⟩
    show lexFrom .start (34 :: ((doubled 34 name ++ [34]) ++ rest)) = _
    rw [lexFrom_open (show opens 34 = some (.inside 34 []) from rfl), List.append_assoc,
      List.singleton_append, lexFrom_quoted, List.nil_append]
  | sym s =>
    refine ⟨_, closed_sym s, fun rest => ?_⟩
    have hmem : s ∈ symbols := hwf
    simp only [symbols, List.mem_cons, List.not_mem_nil, or_false] at hmem
    rcases hmem with rfl | rfl | rfl | rfl | rfl | rfl | rfl | rfl | rfl
    all_goals first
      | exact lexFrom_open rfl rest
      | exact (lexFrom_open rfl _).trans (lexFrom_continue rfl rest)

/-! ## Rules -/

variable {tokens : List Token}

theorem Lexes.nil : Lexes [] [] := rfl

/-- **A token before a boundary reads back.** -/
theorem Lexes.token {token : Token} (hwf : token.Wf) (hbounded : Bounded rest)
    (hrest : Lexes rest tokens) : Lexes (token.text ++ rest) (token :: tokens) := by
  obtain ⟨state, hclosed, hrun⟩ := lexFrom_text hwf
  rw [Lexes, lex, hrun]
  exact lexFrom_closed hclosed hbounded hrest

/-- A blank is no token. -/
theorem Lexes.blank (hrest : Lexes rest tokens) : Lexes (32 :: rest) tokens := by
  rw [Lexes, lex, lexFrom_open (show opens 32 = some .start from rfl)]
  exact hrest

/-- Nor is a line break. -/
theorem Lexes.newline (hrest : Lexes rest tokens) : Lexes (10 :: rest) tokens := by
  rw [Lexes, lex, lexFrom_open (show opens 10 = some .start from rfl)]
  exact hrest

/-- One of the symbols that stand alone. -/
theorem Lexes.mark {u : Unit16} (hopen : opens u = some (.sym [u])) (hu : u ≠ 60 ∧ u ≠ 62)
    (hrest : Lexes rest tokens) : Lexes (u :: rest) (.sym [u] :: tokens) := by
  rw [Lexes, lex, lexFrom_open hopen]
  cases rest with
  | nil =>
    cases hrest
    rfl
  | cons v vs =>
    refine lexFrom_end rfl ?_ hrest
    rw [continues, if_neg]
    simp [hu.1, hu.2]

/-- Tokens with commas between them. -/
def commaSeparated (list : List Token) : List Token := list.intersperse (.sym [44])

/-- **A list with commas reads back.** -/
theorem Lexes.list {list : List Token} (hwf : ∀ token ∈ list, token.Wf) (hbounded : Bounded rest)
    (hrest : Lexes rest tokens) :
    Lexes (List.intercalate [44, 32] (list.map Token.text) ++ rest)
      (commaSeparated list ++ tokens) := by
  induction list with
  | nil => exact hrest
  | cons token list ih =>
    have ih' := ih fun t ht => hwf t (List.mem_cons_of_mem token ht)
    cases list with
    | nil =>
      have hone : List.intercalate [44, 32] (List.map Token.text [token]) = token.text := by
        simp [List.intercalate]
      rw [hone]
      exact Lexes.token (hwf token List.mem_cons_self) hbounded hrest
    | cons next list =>
      rw [List.map_cons, List.map_cons, List.intercalate_cons_cons, List.append_assoc,
        List.append_assoc, ← List.map_cons]
      refine Lexes.token (hwf token List.mem_cons_self) (bounded_cons (by decide) _) ?_
      exact Lexes.mark rfl (by decide) (Lexes.blank ih')

end SqlText
