import Baerly.Lib.SqlText
import Baerly.Lib.Width

/-
  A fragment of `WHERE`: conditions on columns, joined by `AND`.

  PROGRAM: a text is lexed, parsed into conditions (`column op literal`, `column IN (literals)`,
  `literal op literal`) and evaluated on a row.  A value is a number or a text; numbers come before
  texts, and texts compare byte by byte.  The affinity of a column is applied to the literal it is
  compared with, and a comparison with `NULL` does not hold.  A number literal is read exactly; only
  what is stored in a column of doubles is one (`stored`).

  SPEC: what reads as the tokens of some conditions (`Reads`, `Parses`) is parsed into them
  (`parse_joined`), so its meaning is theirs.

  How numbers and texts convert into one another is left to the dialect.
-/

namespace SqlWhere

open SqlText

/-! ## Values -/

/-- A number, a text or `NULL`. -/
inductive Value (ν β : Type) where
  | null
  | num (n : ν)
  | text (bytes : List β)
  deriving DecidableEq

/-- A column of doubles compares as a numeric one does. -/
inductive Affinity where
  | text | numeric | real
  deriving DecidableEq

inductive Comparator where
  | eq | lt | le | gt | ge
  deriving DecidableEq

/-- What a dialect makes of numbers and strings. -/
structure Dialect (ν β : Type) where
  /-- The number of a literal. -/
  number : List Unit16 → Option ν
  /-- The number of a literal in a column of doubles. -/
  double : List Unit16 → Option ν
  /-- The bytes of a string. -/
  bytes : List Unit16 → List β
  /-- A number as text. -/
  render : ν → List β
  /-- The number a text looks like. -/
  numeric : List β → Option ν

variable {ν β : Type}

/-- A value under an affinity. -/
def coerce (D : Dialect ν β) : Affinity → Value ν β → Value ν β
  | .text, .num n => .text (D.render n)
  | .numeric, .text b | .real, .text b =>
    match D.numeric b with
    | some n => .num n
    | none => .text b
  | _, v => v

section Order

variable [LT ν] [DecidableLT ν] [DecidableEq ν] [LT β] [DecidableLT β] [DecidableEq β]

/-- Numbers before texts, texts by their bytes. -/
def before : Value ν β → Value ν β → Bool
  | .num a, .num b => a < b
  | .num _, .text _ => true
  | .text a, .text b => a < b
  | _, _ => false

/-- Does `a op b` hold? -/
def holds (op : Comparator) (a b : Value ν β) : Bool :=
  if a = .null ∨ b = .null then false
  else
    match op with
    | .eq => a = b
    | .lt => before a b
    | .le => before a b || a = b
    | .gt => before b a
    | .ge => before b a || a = b

/-! ## Conditions -/

/-- A condition of the fragment. -/
inductive Condition (ν β : Type) where
  | compare (column : List Unit16) (op : Comparator) (literal : Value ν β)
  | among (column : List Unit16) (literals : List (Value ν β))
  | constant (op : Comparator) (a b : Value ν β)

/-- A row: the affinity and the value of a column. -/
abbrev Row (ν β : Type) := List Unit16 → Option (Affinity × Value ν β)

/-- Does the condition hold of the row?  `none` for a column it does not have. -/
def eval (D : Dialect ν β) (row : Row ν β) : Condition ν β → Option Bool
  | .compare column op literal =>
    (row column).map fun cell => holds op cell.2 (coerce D cell.1 literal)
  | .among column literals =>
    (row column).map fun cell => literals.any fun v => holds .eq cell.2 (coerce D cell.1 v)
  | .constant op a b => some (holds op a b)

/-- All of them. -/
def evalAll (D : Dialect ν β) (row : Row ν β) : List (Condition ν β) → Option Bool
  | [] => some true
  | condition :: conditions => do
    let b ← eval D row condition
    let rest ← evalAll D row conditions
    some (b && rest)

theorem evalAll_eq {D : Dialect ν β} {row : Row ν β} {conditions : List (Condition ν β)}
    {answers : List Bool}
    (h : List.Forall₂ (fun c b => eval D row c = some b) conditions answers) :
    evalAll D row conditions = some (answers.all id) := by
  induction h with
  | nil => rfl
  | cons hab _ ih =>
    rw [evalAll, hab, ih]
    rfl

end Order

/-! ## Parsing -/

/-- The comparator of a symbol. -/
def comparator (s : List Unit16) : Option Comparator :=
  if s = [61] then some .eq
  else if s = [60] then some .lt
  else if s = [60, 61] then some .le
  else if s = [62] then some .gt
  else if s = [62, 61] then some .ge
  else none

/-- `NULL`, as code units. -/
def nullWord : List Unit16 := [78, 85, 76, 76]

/-- `IN`. -/
def inWord : List Unit16 := [73, 78]

/-- `AND`. -/
def andWord : List Unit16 := [65, 78, 68]

/-- The value of a literal. -/
def literal (D : Dialect ν β) : Token → Option (Value ν β)
  | .num t => (D.number t).map .num
  | .str s => some (.text (D.bytes s))
  | .word w => if w = nullWord then some .null else none
  | _ => none

/-- What a column keeps of a literal. -/
def stored (D : Dialect ν β) : Affinity → Token → Option (Value ν β)
  | .real, .num t => (D.double t).map .num
  | affinity, token => (literal D token).map (coerce D affinity)

/-- The literals up to the closing bracket. -/
def parseList (D : Dialect ν β) : List Token → Option (List (Value ν β) × List Token)
  | token :: .sym s :: rest => do
    let v ← literal D token
    if s = [41] then some ([v], rest)
    else if s = [44] then do
      let (vs, rest) ← parseList D rest
      some (v :: vs, rest)
    else none
  | _ => none

/-- One condition, with what follows it. -/
def parseCondition (D : Dialect ν β) : List Token → Option (Condition ν β × List Token)
  | .ident column :: .word w :: .sym s :: rest =>
    if w = inWord ∧ s = [40] then (parseList D rest).map fun (vs, rest) => (.among column vs, rest)
    else none
  | .ident column :: .sym s :: token :: rest => do
    let op ← comparator s
    let v ← literal D token
    some (.compare column op v, rest)
  | token :: .sym s :: token' :: rest => do
    let a ← literal D token
    let op ← comparator s
    let b ← literal D token'
    some (.constant op a b, rest)
  | _ => none

/-- Conditions joined by `AND`. -/
def parseConditions (D : Dialect ν β) : Nat → List Token → Option (List (Condition ν β))
  | 0, _ => none
  | fuel + 1, tokens =>
    match parseCondition D tokens with
    | some (condition, []) => some [condition]
    | some (condition, .word w :: rest) =>
      if w = andWord then (parseConditions D fuel rest).map (condition :: ·) else none
    | _ => none

/-- The conditions of a text; an empty text has none. -/
def parse (D : Dialect ν β) (text : List Unit16) : Option (List (Condition ν β)) :=
  if text = [] then some []
  else (lex text).bind fun tokens => parseConditions D tokens.length tokens

/-! ## Reading back -/

/-- The text reads as the tokens, before anything that starts with a boundary. -/
def Reads (text : List Unit16) (block : List Token) : Prop :=
  ∀ rest tokens, Bounded rest → Lexes rest tokens → Lexes (text ++ rest) (block ++ tokens)

/-- The tokens parse as the condition, before anything. -/
def Parses (D : Dialect ν β) (block : List Token) (condition : Condition ν β) : Prop :=
  ∀ rest, parseCondition D (block ++ rest) = some (condition, rest)

variable {D : Dialect ν β}

theorem parses_compare {column s : List Unit16} {op : Comparator} {token : Token} {v : Value ν β}
    (hop : comparator s = some op) (hv : literal D token = some v) :
    Parses D [.ident column, .sym s, token] (.compare column op v) := by
  intro rest
  show (comparator s).bind (fun op => (literal D token).bind fun v =>
    some (Condition.compare column op v, rest)) = _
  rw [hop, hv]
  rfl

theorem parseList_comma {tokens : List Token} {vs : List (Value ν β)} (hne : tokens ≠ [])
    (h : List.Forall₂ (fun token v => literal D token = some v) tokens vs) (rest : List Token) :
    parseList D (commaSeparated tokens ++ .sym [41] :: rest) = some (vs, rest) := by
  induction h with
  | nil => exact absurd rfl hne
  | @cons token v tokens vs hv hvs ih =>
    cases hvs with
    | nil =>
      show (literal D token).bind _ = _
      rw [hv]
      rfl
    | @cons next u more us hu hus =>
      have hmore := ih (List.cons_ne_nil _ _)
      show (literal D token).bind (fun v => (parseList D (commaSeparated (next :: more) ++
        .sym [41] :: rest)).bind fun p => some (v :: p.1, p.2)) = _
      rw [hv, hmore]
      rfl

theorem parses_among {column : List Unit16} {tokens : List Token} {vs : List (Value ν β)}
    (hne : tokens ≠ [])
    (h : List.Forall₂ (fun token v => literal D token = some v) tokens vs) :
    Parses D ([.ident column, .word inWord, .sym [40]] ++ (commaSeparated tokens ++ [.sym [41]]))
      (.among column vs) := by
  intro rest
  rw [List.append_assoc, List.append_assoc, List.singleton_append]
  show (parseList D (commaSeparated tokens ++ .sym [41] :: rest)).map _ = _
  rw [parseList_comma hne h]
  rfl

/-- The blocks with `AND` between them. -/
def joined : List (List Token) → List Token
  | [] => []
  | [block] => block
  | block :: blocks => block ++ .word andWord :: joined blocks

theorem joined_cons_cons (block block' : List Token) (blocks : List (List Token)) :
    joined (block :: block' :: blocks) = block ++ .word andWord :: joined (block' :: blocks) := rfl

/-- ` AND `. -/
def andText : List Unit16 := 32 :: (andWord ++ [32])

theorem reads_joined {texts : List (List Unit16)} {blocks : List (List Token)}
    (h : List.Forall₂ Reads texts blocks) :
    Reads (List.intercalate andText texts) (joined blocks) := by
  intro rest tokens hbounded hrest
  induction h with
  | nil => exact hrest
  | @cons text block texts blocks hread hreads ih =>
    cases hreads with
    | nil =>
      have hone : List.intercalate andText [text] = text := by simp [List.intercalate]
      rw [hone]
      exact hread rest tokens hbounded hrest
    | @cons text' block' texts blocks hread' hreads =>
      have hword : (Token.word andWord).Wf := rfl
      have hand : Lexes (andWord ++ 32 :: (List.intercalate andText (text' :: texts) ++ rest))
          (.word andWord :: (joined (block' :: blocks) ++ tokens)) :=
        .token hword (bounded_cons (by decide) _) (.blank ih)
      have htext : List.intercalate andText (text :: text' :: texts) ++ rest =
          text ++ 32 :: (andWord ++ 32 :: (List.intercalate andText (text' :: texts) ++ rest)) := by
        rw [List.intercalate_cons_cons, andText]
        simp only [List.append_assoc, List.cons_append, List.nil_append]
      rw [htext, joined_cons_cons, List.append_assoc, List.cons_append]
      exact hread _ _ (bounded_cons (by decide) _) (.blank hand)

theorem parseConditions_joined {blocks : List (List Token)} {conditions : List (Condition ν β)}
    (hne : blocks ≠ []) (h : List.Forall₂ (Parses D) blocks conditions) :
    ∀ fuel, blocks.length ≤ fuel → parseConditions D fuel (joined blocks) = some conditions := by
  induction h with
  | nil => exact absurd rfl hne
  | @cons block condition blocks conditions hparse hparses ih =>
    intro fuel hfuel
    obtain ⟨fuel, rfl⟩ : ∃ k, fuel = k + 1 := ⟨fuel - 1, by rw [List.length_cons] at hfuel; omega⟩
    cases hparses with
    | nil =>
      have hone := hparse []
      rw [List.append_nil] at hone
      rw [joined, parseConditions, hone]
    | @cons block' condition' blocks conditions hparse' hparses =>
      have hrest := ih (List.cons_ne_nil _ _) fuel (by rw [List.length_cons] at hfuel; omega)
      rw [joined_cons_cons, parseConditions, hparse]
      dsimp only
      rw [if_pos rfl, hrest]
      rfl

theorem length_le_joined {blocks : List (List Token)} (h : ∀ block ∈ blocks, block ≠ []) :
    blocks.length ≤ (joined blocks).length := by
  induction blocks with
  | nil => exact Nat.zero_le _
  | cons block blocks ih =>
    have hpos := List.length_pos_iff.mpr (h block List.mem_cons_self)
    cases blocks with
    | nil => exact hpos
    | cons block' blocks =>
      have hrest := ih fun b hb => h b (List.mem_cons_of_mem block hb)
      rw [joined_cons_cons]
      simp only [List.length_append, List.length_cons] at hrest ⊢
      omega

/-- **A text of joined conditions is parsed into them.** -/
theorem parse_joined {texts : List (List Unit16)} {blocks : List (List Token)}
    {conditions : List (Condition ν β)} (hreads : List.Forall₂ Reads texts blocks)
    (hparses : List.Forall₂ (Parses D) blocks conditions) (hblock : ∀ block ∈ blocks, block ≠ [])
    (htext : ∀ text ∈ texts, text ≠ []) :
    parse D (List.intercalate andText texts) = some conditions := by
  cases hreads with
  | nil =>
    cases hparses
    rfl
  | @cons text block texts blocks hread hrest =>
    have hnonempty : List.intercalate andText (text :: texts) ≠ [] := by
      have hfirst := htext text List.mem_cons_self
      cases texts with
      | nil => simpa [List.intercalate] using hfirst
      | cons text' texts =>
        rw [List.intercalate_cons_cons]
        simp [hfirst]
    have hlex := reads_joined (List.Forall₂.cons hread hrest) [] []
      (fun u us h => absurd h (List.cons_ne_nil u us).symm) Lexes.nil
    rw [List.append_nil, List.append_nil] at hlex
    rw [parse, if_neg hnonempty, hlex]
    exact parseConditions_joined (List.cons_ne_nil _ _) hparses _ (length_le_joined hblock)

end SqlWhere
