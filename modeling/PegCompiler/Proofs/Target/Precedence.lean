import PegCompiler.Proofs.Target.Continuations
import PegCompiler.Proofs.Target.Tokens
/-
  Expressions as tokens, and back. Sums bind more tightly than concatenations, these more
  than comparisons, and a negation binds least; all but comparisons associate to the left.
  The reader climbs these levels (`readLevel`): behind an operand it takes operators as long
  as they bind tightly enough (`readOperators`). Fuel runs out in no text, since three units
  for each token are enough.

  Behind the tokens of an expression there can be more operators of the same level, so the
  expression is never read by itself. What the induction carries is where the reader stands
  then: it goes on behind the expression as its operand (`reads_expr`), with the operators
  that may follow.
-/

namespace PegCompiler.Target

/-! ## Tokens of expressions -/

/-- Tokens with a token between each two. -/
def separated (sep : Token) : List (List Token) → List Token
  | [] => []
  | [ts] => ts
  | ts :: rest => ts ++ sep :: separated sep rest

/-- The tokens of a piece of a constant. -/
def Piece.tokens : Piece → List Token
  | .quoted chars => [.quoted (String.ofList chars)]
  | .code n => [.word characterCall, .opening, .number n, .closing]

/-- Tokens in brackets, if they bind less tightly than their surroundings. -/
def bracketedTokens (surrounding own : Nat) (ts : List Token) : List Token :=
  if surrounding > own then .opening :: (ts ++ [.closing]) else ts

mutual

/-- The tokens of an expression in surroundings of a precedence; nobody looks into code. -/
def Expr.tokens (surrounding : Nat) : Expr → List Token
  | .var name => [.word name]
  | .int n => [.number n]
  | .logical b => [.logical b]
  | .str value => separated (.binary .concat) ((pieces value).map Piece.tokens)
  | .call name args =>
    .word name :: .opening :: (separated .comma (exprsTokens args) ++ [.closing])
  | .substring var lo hi =>
    .word var :: .opening :: (lo.tokens 0 ++ .colon :: (hi.tokens 0 ++ [.closing]))
  | .array items => .openingList :: (separated .comma (exprsTokens items) ++ [.closingList])
  | .not operand => bracketedTokens surrounding 1 (.negation :: operand.tokens 5)
  | .bin op lhs rhs =>
    bracketedTokens surrounding op.precedence
      (lhs.tokens op.precedence ++ .binary op :: rhs.tokens (op.precedence + 1))
  | .verbatim _ => []

/-- The tokens of each of several expressions. -/
def exprsTokens : List Expr → List (List Token)
  | [] => []
  | e :: rest => e.tokens 0 :: exprsTokens rest

end

/-! ## Reading expressions -/

/-- A call; the one that stands for a character is a constant. -/
def applied (name : String) : List Expr → Expr
  | [.int n] =>
    if name = characterCall then .str (String.ofList [Char.ofNat n]) else .call name [.int n]
  | args => .call name args

/-- Two operands with an operator; constants are put together. -/
def joinOperands : BinOp → Expr → Expr → Expr
  | .concat, .str a, .str b => .str (a ++ b)
  | op, lhs, rhs => .bin op lhs rhs

mutual

/-- An expression of operators that bind at least as tightly as `min`. -/
def readLevel : Nat → Nat → List Token → Option (Expr × List Token)
  | 0, _, _ => none
  | n + 1, min, .negation :: rest =>
    if min ≤ 1 then
      (readLevel n 2 rest).bind fun (operand, rest) => readOperators n 5 (.not operand) rest
    else none
  | n + 1, min, ts => (readOperand n ts).bind fun (lhs, rest) => readOperators n min lhs rest

/-- The operators behind an operand, as long as they bind at least as tightly as `min`;
comparisons do not associate. -/
def readOperators : Nat → Nat → Expr → List Token → Option (Expr × List Token)
  | 0, _, _, _ => none
  | n + 1, min, lhs, .binary op :: rest =>
    if min ≤ op.precedence then
      (readLevel n (op.precedence + 1) rest).bind fun (rhs, rest) =>
        readOperators n (if op.isRelation then op.precedence + 1 else min)
          (joinOperands op lhs rhs) rest
    else some (lhs, .binary op :: rest)
  | _ + 1, _, lhs, ts => some (lhs, ts)

/-- An operand. -/
def readOperand : Nat → List Token → Option (Expr × List Token)
  | n + 1, .opening :: rest => (readLevel n 0 rest).bind fun r => match r with
    | (e, .closing :: rest) => some (e, rest)
    | _ => none
  | _ + 1, .openingList :: .closingList :: rest => some (.array [], rest)
  | n + 1, .openingList :: rest =>
    (readItems n .closingList rest).map fun (items, rest) => (.array items, rest)
  | _ + 1, .word name :: .opening :: .closing :: rest => some (applied name [], rest)
  | n + 1, .word name :: .opening :: rest => readArguments n name rest
  | _ + 1, .word name :: rest => some (.var name, rest)
  | _ + 1, .number n :: rest => some (.int n, rest)
  | _ + 1, .logical b :: rest => some (.logical b, rest)
  | _ + 1, .quoted value :: rest => some (.str value, rest)
  | _, _ => none

/-- What stands in the brackets behind a name: the bounds of a text, or arguments. -/
def readArguments : Nat → String → List Token → Option (Expr × List Token)
  | 0, _, _ => none
  | n + 1, name, ts => (readLevel n 0 ts).bind fun r => match r with
    | (lo, .colon :: rest) => (readLevel n 0 rest).bind fun r => match r with
      | (hi, .closing :: rest) => some (.substring name lo hi, rest)
      | _ => none
    | (first, rest) =>
      (readMore n .closing rest).map fun (args, rest) => (applied name (first :: args), rest)

/-- Items with commas between them, and the bracket behind them. -/
def readItems : Nat → Token → List Token → Option (List Expr × List Token)
  | 0, _, _ => none
  | n + 1, close, ts => (readLevel n 0 ts).bind fun (first, rest) =>
    (readMore n close rest).map fun (items, rest) => (first :: items, rest)

/-- The items behind another one. -/
def readMore : Nat → Token → List Token → Option (List Expr × List Token)
  | n + 1, close, .comma :: rest => readItems n close rest
  | _ + 1, close, t :: rest => if t = close then some ([], rest) else none
  | _, _, _ => none

end

/-- An expression at the beginning of a text, and the rest of it. -/
def readExpr (ts : List Token) : Option (Expr × List Token) :=
  readLevel (3 * ts.length + 2) 0 ts

/-! ## Operators -/

/-- No operator that binds more tightly than a level follows, and no bracket. -/
structure Follows (level : Nat) (rest : List Token) : Prop where
  operators : ∀ op, rest.head? = some (.binary op) → op.precedence ≤ level
  bracket : rest.head? ≠ some .opening

theorem Follows.weaken {level level' : Nat} {rest : List Token} (h : Follows level rest)
    (hle : level ≤ level') : Follows level' rest :=
  ⟨fun op hop => Nat.le_trans (h.operators op hop) hle, h.bracket⟩

/-- The tokens that end an expression. -/
def Token.isEnd : Token → Bool
  | .colon | .comma | .closing | .closingList => true
  | _ => false

theorem follows_nil (level : Nat) : Follows level [] :=
  ⟨(fun _ h => nomatch h), (fun h => nomatch h)⟩

theorem follows_end {t : Token} (h : t.isEnd = true) (level : Nat) (rest : List Token) :
    Follows level (t :: rest) := by
  refine ⟨fun op hop => ?_, fun hbracket => ?_⟩
  · obtain rfl : t = .binary op := Option.some.inj hop
    exact nomatch h
  · obtain rfl : t = .opening := Option.some.inj hbracket
    exact nomatch h

theorem readOperators_stop {n min : Nat} {e : Expr} {rest : List Token}
    (h : ∀ op, rest.head? = some (.binary op) → op.precedence < min) :
    readOperators (n + 1) min e rest = some (e, rest) := by
  match rest with
  | [] => rw [readOperators]; exact fun _ _ he => nomatch he
  | t :: rest =>
    by_cases ht : ∃ op, t = .binary op
    · obtain ⟨op, rfl⟩ := ht
      rw [readOperators, if_neg (Nat.not_le_of_lt (h op rfl))]
    · rw [readOperators]
      rintro op _ he
      exact ht ⟨op, (List.cons.inj he).1⟩

theorem precedence_bounds (op : BinOp) : 2 ≤ op.precedence ∧ op.precedence ≤ 4 := by
  cases op <;> decide

theorem readLevel_operand {n min : Nat} {ts : List Token} (h : ts.head? ≠ some .negation) :
    readLevel (n + 1) min ts =
      (readOperand n ts).bind fun (lhs, rest) => readOperators n min lhs rest := by
  rw [readLevel]
  rintro rest rfl
  exact h rfl

/-- Wherever these tokens stand in front of operators of a level, the reader goes on behind
them with an expression as its operand; what it takes then binds at least as tightly as
`stop`. -/
def ReadsAs (ts : List Token) (e : Expr) (level stop : Nat) : Prop :=
  ∀ (min n : Nat) (rest : List Token), min ≤ level → Follows level rest →
    3 * (ts ++ rest).length + 2 ≤ n →
      ∃ m, 3 * rest.length + 1 ≤ m ∧
        readLevel n min (ts ++ rest) = readOperators m (max min stop) e rest

namespace ReadsAs

variable {ts us : List Token} {e lhs rhs : Expr} {level stop : Nat}

theorem lower {level' : Nat} (h : ReadsAs ts e level stop) (hle : level' ≤ level) :
    ReadsAs ts e level' stop :=
  fun min n rest hmin hrest => h min n rest (Nat.le_trans hmin hle) (hrest.weaken hle)

/-- The expression is read when no operator that follows binds tightly enough. -/
theorem ends (h : ReadsAs ts e level stop) {min n : Nat} {rest : List Token}
    (hmin : min ≤ level) (hrest : Follows level rest)
    (hstop : ∀ op, rest.head? = some (.binary op) → op.precedence < min)
    (hn : 3 * (ts ++ rest).length + 2 ≤ n) : readLevel n min (ts ++ rest) = some (e, rest) := by
  obtain ⟨m, hm, hread⟩ := h min n rest hmin hrest hn
  obtain ⟨k, rfl⟩ := Nat.exists_eq_succ_of_ne_zero (by omega : m ≠ 0)
  rw [hread]
  exact readOperators_stop fun op hop => Nat.lt_of_lt_of_le (hstop op hop) (Nat.le_max_left _ _)

/-- An expression that nothing surrounds is read up to what ends it. -/
theorem alone (h : ReadsAs ts e 0 stop) {n : Nat} {rest : List Token} (hrest : Follows 0 rest)
    (hn : 3 * (ts ++ rest).length + 2 ≤ n) : readLevel n 0 (ts ++ rest) = some (e, rest) := by
  refine h.ends (Nat.le_refl 0) hrest (fun op hop => ?_) hn
  have hle := hrest.operators op hop
  have hbounds := precedence_bounds op
  omega

/-- An operand is read by itself. -/
theorem operand (hhead : ts.head? ≠ some .negation ∧ ts ≠ [])
    (h : ∀ n rest, Follows level rest → 3 * (ts ++ rest).length + 1 ≤ n →
      readOperand n (ts ++ rest) = some (e, rest)) : ReadsAs ts e level 0 := by
  intro min n rest _ hrest hn
  obtain ⟨k, rfl⟩ := Nat.exists_eq_succ_of_ne_zero (by omega : n ≠ 0)
  refine ⟨k, ?_, ?_⟩
  · rw [List.length_append] at hn
    omega
  · have hnegation : (ts ++ rest).head? ≠ some .negation := by
      rw [List.head?_append_of_ne_nil _ hhead.2]
      exact hhead.1
    rw [readLevel_operand hnegation, h k rest hrest (by omega), Option.bind_some, Nat.max_zero]

/-- What can be read where nothing surrounds it can be read in brackets. -/
theorem brackets (h : ReadsAs ts e 0 stop) (level : Nat) :
    ReadsAs (.opening :: (ts ++ [.closing])) e level 0 := by
  refine operand ⟨by simp, by simp⟩ fun n rest _ hn => ?_
  obtain ⟨k, rfl⟩ := Nat.exists_eq_succ_of_ne_zero (by omega : n ≠ 0)
  have hclose : Follows 0 (.closing :: rest) := ⟨fun op hop => by simp at hop, by simp⟩
  have hinside := h.alone (n := k) hclose (by
    simp only [List.cons_append, List.append_assoc, List.nil_append, List.length_cons,
      List.length_append] at hn ⊢
    omega)
  rw [List.cons_append, List.append_assoc, List.singleton_append, readOperand, hinside]
  rfl

/-- A negation takes what binds at least as tightly as a comparison. -/
theorem negation (h : ReadsAs ts e level stop) (hlevel : 2 ≤ level) :
    ReadsAs (.negation :: ts) (.not e) 1 5 := by
  intro min n rest hmin hrest hn
  rw [List.cons_append, List.length_cons] at hn
  obtain ⟨k, rfl⟩ := Nat.exists_eq_succ_of_ne_zero (by omega : n ≠ 0)
  -- a negation binds least, so that no operator can follow it
  have hnone : ∀ op, rest.head? = some (.binary op) → op.precedence < 2 :=
    fun op hop => by have := hrest.operators op hop; omega
  have hoperand : readLevel k 2 (ts ++ rest) = some (e, rest) :=
    h.ends hlevel (hrest.weaken (by omega)) hnone (by omega)
  refine ⟨k, by rw [List.length_append] at hn; omega, ?_⟩
  rw [List.cons_append, readLevel, if_pos hmin, hoperand, Option.bind_some,
    Nat.max_eq_right (by omega)]

/-- What stands to the right of an operator binds more tightly than it. -/
theorem binary {op : BinOp} (hlhs : ReadsAs ts lhs op.precedence 0)
    (hrhs : ReadsAs us rhs (op.precedence + 1) stop)
    (hjoin : joinOperands op lhs rhs = .bin op lhs rhs) :
    ReadsAs (ts ++ .binary op :: us) (.bin op lhs rhs) op.precedence
      (if op.isRelation then 3 else 0) := by
  intro min n rest hmin hrest hn
  rw [List.append_assoc, List.cons_append] at hn ⊢
  -- the left operand is read up to the operator, which binds as its surroundings do
  have hfollows : Follows op.precedence (.binary op :: (us ++ rest)) := by
    refine ⟨fun op' hop => ?_, fun h => nomatch h⟩
    obtain rfl : op = op' := by simpa using hop
    exact Nat.le_refl _
  obtain ⟨m, hm, hread⟩ := hlhs min n _ hmin hfollows hn
  rw [List.length_cons] at hm
  obtain ⟨k, rfl⟩ := Nat.exists_eq_succ_of_ne_zero (by omega : m ≠ 0)
  -- the right operand ends in front of operators of the same level, which go to the left
  have hnone : ∀ op', rest.head? = some (.binary op') → op'.precedence < op.precedence + 1 :=
    fun op' hop => by have := hrest.operators op' hop; omega
  have hright : readLevel k (op.precedence + 1) (us ++ rest) = some (rhs, rest) :=
    hrhs.ends (Nat.le_refl _) (hrest.weaken (by omega)) hnone (by omega)
  refine ⟨k, by rw [List.length_append] at hm; omega, ?_⟩
  rw [hread, Nat.max_zero, readOperators, if_pos hmin, hright, Option.bind_some]
  show readOperators k _ (joinOperands op lhs rhs) rest = _
  have hlevel : (if op.isRelation = true then op.precedence + 1 else min) =
      max min (if op.isRelation = true then 3 else 0) := by
    cases op with
    | eq | gt | ge | lt =>
      -- behind a comparison there is none, as comparisons do not associate
      have hmin : min ≤ 2 := hmin
      exact (Nat.max_eq_right (by omega : min ≤ 3)).symm
    | add | sub | concat => exact (Nat.max_zero min).symm
  rw [hjoin, hlevel]

end ReadsAs

/-- With what level operators may follow an expression, written in surroundings. -/
def Expr.stops (surrounding : Nat) : Expr → Nat
  | .not _ => if surrounding > 1 then 0 else 5
  | .bin op _ _ => if surrounding > op.precedence then 0 else if op.isRelation then 3 else 0
  | _ => 0

/-- Wherever the tokens of an expression stand, the reader goes on behind the expression as
its operand. -/
def ReadsOn (e : Expr) (surrounding : Nat) : Prop :=
  ReadsAs (e.tokens surrounding) e surrounding (e.stops surrounding)

namespace ReadsOn

variable {e : Expr} {surrounding : Nat}

/-- An expression that nothing surrounds is read up to what ends it. -/
theorem alone (h : ReadsOn e 0) {n : Nat} {rest : List Token} (hrest : Follows 0 rest)
    (hn : 3 * (e.tokens 0 ++ rest).length + 2 ≤ n) :
    readLevel n 0 (e.tokens 0 ++ rest) = some (e, rest) :=
  ReadsAs.alone h hrest hn

/-- An operand is read by itself. -/
theorem operand (hstops : e.stops surrounding = 0)
    (hhead : (e.tokens surrounding).head? ≠ some .negation ∧ e.tokens surrounding ≠ [])
    (h : ∀ n rest, Follows surrounding rest →
      3 * (e.tokens surrounding ++ rest).length + 1 ≤ n →
        readOperand n (e.tokens surrounding ++ rest) = some (e, rest)) :
    ReadsOn e surrounding := by
  rw [ReadsOn, hstops]
  exact ReadsAs.operand hhead h

/-- An expression that can be read where it has no brackets can be read in brackets, which it
has wherever it binds less tightly than its surroundings. -/
theorem inBrackets {own stop : Nat} {ts : List Token} (h : ReadsAs ts e own stop)
    (htokens : ∀ surrounding, e.tokens surrounding = bracketedTokens surrounding own ts)
    (hstops : ∀ surrounding, e.stops surrounding = if surrounding > own then 0 else stop)
    (surrounding : Nat) : ReadsOn e surrounding := by
  rw [ReadsOn, htokens, hstops, bracketedTokens]
  split
  · exact (h.lower (Nat.zero_le own)).brackets surrounding
  · exact h.lower (by omega)

end ReadsOn

/-! ## Constants -/

/-- The characters of a piece. -/
def Piece.chars : Piece → List Char
  | .quoted chars => chars
  | .code n => [Char.ofNat n]

theorem flatMap_flush (chunk : List Char) : (Piece.flush chunk).flatMap Piece.chars = chunk := by
  cases chunk with
  | nil => rfl
  | cons c chunk => exact List.append_nil _

theorem flatMap_piecesFrom (cs : List Char) : ∀ chunk : List Char,
    (piecesFrom chunk cs).flatMap Piece.chars = chunk ++ cs := by
  induction cs with
  | nil =>
    intro chunk
    rw [piecesFrom, flatMap_flush, List.append_nil]
  | cons c cs ih =>
    intro chunk
    rw [piecesFrom]
    split
    · rw [List.flatMap_append, flatMap_flush, List.flatMap_cons, ih, Piece.chars, Char.ofNat_toNat,
        List.nil_append, List.singleton_append]
    · split
      · rw [List.flatMap_cons, ih, Piece.chars, List.singleton_append]
      · rw [ih, List.append_assoc, List.singleton_append]

/-- The pieces of a constant have its characters. -/
theorem flatMap_pieces (value : String) : (pieces value).flatMap Piece.chars = value.toList := by
  have hall := flatMap_piecesFrom value.toList []
  unfold pieces
  split
  · next hnil =>
    rw [hnil] at hall
    exact hall
  · exact hall

/-! ## Reading constants -/

theorem separated_cons (sep : Token) (ts : List Token) (rest : List (List Token)) :
    separated sep (ts :: rest) = ts ++ rest.flatMap (sep :: ·) := by
  induction rest generalizing ts with
  | nil => rw [List.flatMap_nil, List.append_nil]; rfl
  | cons us rest ih =>
    rw [separated, ih, List.flatMap_cons, List.cons_append]
    exact fun he => nomatch he

/-- The tokens of further pieces of a constant. -/
def furtherTokens (ps : List Piece) : List Token :=
  ps.flatMap fun p => .binary .concat :: p.tokens

theorem readOperand_piece (p : Piece) (n : Nat) (rest : List Token) :
    readOperand (n + 4) (p.tokens ++ rest) = some (.str (String.ofList p.chars), rest) := by
  cases p with
  | quoted chars => rfl
  | code k => rfl

/-- Behind a piece only what binds more tightly than a concatenation is read with it. -/
theorem readLevel_piece (p : Piece) {n min : Nat} {rest : List Token} (hn : 5 ≤ n) :
    readLevel n min (p.tokens ++ rest) =
      readOperators (n - 1) min (.str (String.ofList p.chars)) rest := by
  obtain ⟨k, rfl⟩ := Nat.exists_eq_add_of_le' hn
  have hhead : (p.tokens ++ rest).head? ≠ some .negation := by
    cases p <;> simp [Piece.tokens]
  have hoperand := readOperand_piece p k rest
  rw [readLevel_operand hhead, hoperand]
  rfl

theorem piece_length (p : Piece) : 1 ≤ p.tokens.length := by
  cases p <;> simp [Piece.tokens]

/-- The concatenations between its pieces put a constant together. -/
theorem readOperators_pieces {rest : List Token} {min : Nat} (hmin : min ≤ 3)
    (hrest : Follows 3 rest) (ps : List Piece) : ∀ (n : Nat) (cs : List Char),
    3 * (furtherTokens ps ++ rest).length + 1 ≤ n →
      ∃ m, 3 * rest.length + 1 ≤ m ∧
        readOperators n min (.str (String.ofList cs)) (furtherTokens ps ++ rest) =
          readOperators m min (.str (String.ofList (cs ++ ps.flatMap Piece.chars))) rest := by
  induction ps with
  | nil =>
    intro n cs hn
    exact ⟨n, hn, by rw [List.flatMap_nil, List.append_nil]; rfl⟩
  | cons p ps ih =>
    intro n cs hn
    have htokens : furtherTokens (p :: ps) ++ rest =
        .binary .concat :: (p.tokens ++ (furtherTokens ps ++ rest)) := by
      simp [furtherTokens]
    have hlength := piece_length p
    rw [htokens, List.length_cons, List.length_append] at hn
    obtain ⟨k, rfl⟩ := Nat.exists_eq_succ_of_ne_zero (by omega : n ≠ 0)
    obtain ⟨m, hm, hread⟩ := ih k (cs ++ p.chars) (by omega)
    refine ⟨m, hm, ?_⟩
    -- the next piece ends in front of the next concatenation
    have hnext : ∀ op, (furtherTokens ps ++ rest).head? = some (.binary op) →
        op.precedence < 4 := by
      intro op hop
      cases ps with
      | nil => exact Nat.lt_succ_of_le (hrest.operators op hop)
      | cons q ps =>
        obtain rfl : .concat = op := by simpa [furtherTokens] using hop
        decide
    have hpiece : readLevel k 4 (p.tokens ++ (furtherTokens ps ++ rest)) =
        some (.str (String.ofList p.chars), furtherTokens ps ++ rest) := by
      obtain ⟨j, hj⟩ := Nat.exists_eq_succ_of_ne_zero (by omega : k - 1 ≠ 0)
      rw [readLevel_piece p (by omega), hj]
      exact readOperators_stop hnext
    have hjoin : joinOperands .concat (.str (String.ofList cs)) (.str (String.ofList p.chars)) =
        .str (String.ofList (cs ++ p.chars)) := by
      rw [joinOperands, String.ofList_append]
    have hop : min ≤ BinOp.concat.precedence := hmin
    rw [htokens, readOperators, if_pos hop, BinOp.precedence, hpiece, Option.bind_some,
      List.flatMap_cons, ← List.append_assoc, ← hread, ← hjoin]
    rfl

/-- A constant is read as the text that it encodes. -/
theorem reads_constant (value : String) : ReadsOn (.str value) 0 := by
  intro min n rest hmin hrest hn
  obtain ⟨p, ps, hps⟩ := List.exists_cons_of_ne_nil (pieces_ne_nil value)
  have htokens : (Expr.str value).tokens 0 ++ rest = p.tokens ++ (furtherTokens ps ++ rest) := by
    rw [Expr.tokens, hps, List.map_cons, separated_cons, List.append_assoc, furtherTokens,
      List.flatMap_map]
  have hvalue : p.chars ++ ps.flatMap Piece.chars = value.toList := by
    rw [← flatMap_pieces, hps, List.flatMap_cons]
  have hlength := piece_length p
  rw [htokens, List.length_append] at hn
  have hrest : Follows 3 rest := hrest.weaken (Nat.zero_le 3)
  have hmin : min ≤ 3 := Nat.le_trans hmin (Nat.zero_le 3)
  obtain ⟨m, hm, hread⟩ := readOperators_pieces hmin hrest ps (n - 1) p.chars (by omega)
  have hstops : (Expr.str value).stops 0 = 0 := rfl
  refine ⟨m, hm, ?_⟩
  rw [htokens, readLevel_piece p (by omega), hread, hvalue, String.ofList_toList, hstops,
    Nat.max_zero]

/-! ## Lists of expressions -/

theorem readMore_comma (n : Nat) (close : Token) (rest : List Token) :
    readMore (n + 1) close (.comma :: rest) = readItems n close rest := by
  rw [readMore]

theorem readMore_close (n : Nat) {close : Token} (hclose : close ≠ .comma) (rest : List Token) :
    readMore (n + 1) close (close :: rest) = some ([], rest) := by
  rw [readMore, if_pos rfl]
  exact fun h => hclose h

/-- The tokens of further expressions of a list. -/
def furtherItems (es : List Expr) : List Token :=
  (exprsTokens es).flatMap (.comma :: ·)

theorem furtherItems_cons (e : Expr) (es : List Expr) :
    furtherItems (e :: es) = .comma :: (e.tokens 0 ++ furtherItems es) := by
  simp [furtherItems, exprsTokens]

theorem follows_items (es : List Expr) {close : Token} (hclose : close.isEnd = true)
    (rest : List Token) : Follows 0 (furtherItems es ++ close :: rest) := by
  cases es with
  | nil => exact follows_end hclose 0 rest
  | cons e es =>
    rw [furtherItems_cons]
    exact follows_end rfl 0 _

/-- The items behind another one are read up to the bracket. -/
theorem readMore_items {es : List Expr} (hes : ∀ e ∈ es, ReadsOn e 0) {close : Token}
    (hclose : close = .closing ∨ close = .closingList) : ∀ (n : Nat) (rest : List Token),
    3 * (furtherItems es ++ close :: rest).length + 1 ≤ n →
      readMore n close (furtherItems es ++ close :: rest) = some (es, rest) := by
  induction es with
  | nil =>
    intro n rest hn
    have hcomma : close ≠ .comma := by
      rintro rfl
      obtain h | h := hclose <;> exact nomatch h
    obtain ⟨k, rfl⟩ := Nat.exists_eq_succ_of_ne_zero (by omega : n ≠ 0)
    exact readMore_close k hcomma rest
  | cons e es ih =>
    intro n rest hn
    obtain ⟨he, hes⟩ := List.forall_mem_cons.mp hes
    rw [furtherItems_cons] at hn ⊢
    rw [List.cons_append, List.append_assoc, List.length_cons, List.length_append] at hn
    obtain ⟨k, rfl⟩ := Nat.exists_eq_add_of_le' (by omega : 2 ≤ n)
    have hend : close.isEnd = true := by
      obtain rfl | rfl := hclose <;> rfl
    have hitem : readLevel k 0 (e.tokens 0 ++ (furtherItems es ++ close :: rest)) =
        some (e, furtherItems es ++ close :: rest) :=
      he.alone (follows_items es hend rest) (by rw [List.length_append]; omega)
    have hmore := ih hes k rest (by omega)
    rw [List.cons_append, List.append_assoc, readMore_comma, readItems, hitem, Option.bind_some]
    show (readMore k close _).map (fun r => (e :: r.1, r.2)) = _
    rw [hmore]
    rfl

/-- A list of expressions is read up to its bracket, the first one by itself. -/
theorem reads_list {e : Expr} {es : List Expr} (hes : ∀ x ∈ e :: es, ReadsOn x 0) (close : Token)
    (hclose : close = .closing ∨ close = .closingList) {n : Nat} {rest : List Token}
    (hn : 3 * (e.tokens 0 ++ (furtherItems es ++ close :: rest)).length + 2 ≤ n) :
    readLevel n 0 (e.tokens 0 ++ (furtherItems es ++ close :: rest)) =
        some (e, furtherItems es ++ close :: rest) ∧
      readMore n close (furtherItems es ++ close :: rest) = some (es, rest) := by
  obtain ⟨he, hes⟩ := List.forall_mem_cons.mp hes
  have hend : close.isEnd = true := by
    obtain rfl | rfl := hclose <;> rfl
  constructor
  · exact he.alone (follows_items es hend rest) hn
  · apply readMore_items hes hclose
    rw [List.length_append] at hn
    omega

/-- The tokens of a list of expressions, the first one in front. -/
theorem separated_exprs (e : Expr) (es : List Expr) :
    separated .comma (exprsTokens (e :: es)) = e.tokens 0 ++ furtherItems es := by
  rw [exprsTokens, separated_cons, furtherItems]

/-! ## Operands -/

/-- No expression begins with a token that ends one. -/
theorem begins_expr : ∀ (e : Expr) (surrounding : Nat), e.Legible (fun _ => False) →
    ∃ t ts, e.tokens surrounding = t :: ts ∧ t.isEnd = false
  | .var name, _, _ => ⟨.word name, [], rfl, rfl⟩
  | .int n, _, _ => ⟨.number n, [], rfl, rfl⟩
  | .logical b, _, _ => ⟨.logical b, [], rfl, rfl⟩
  | .str value, _, _ => by
    obtain ⟨p, ps, hps⟩ := List.exists_cons_of_ne_nil (pieces_ne_nil value)
    rw [Expr.tokens, hps, List.map_cons, separated_cons]
    cases p with
    | quoted chars => exact ⟨_, _, rfl, rfl⟩
    | code n => exact ⟨_, _, rfl, rfl⟩
  | .call _ _, _, _ => ⟨_, _, rfl, rfl⟩
  | .substring _ _ _, _, _ => ⟨_, _, rfl, rfl⟩
  | .array _, _, _ => ⟨_, _, rfl, rfl⟩
  | .not operand, surrounding, _ => by
    rw [Expr.tokens, bracketedTokens]
    split
    · exact ⟨_, _, rfl, rfl⟩
    · exact ⟨_, _, rfl, rfl⟩
  | .bin op lhs rhs, surrounding, h => by
    obtain ⟨t, ts, hts, ht⟩ := begins_expr lhs op.precedence h.1.2
    rw [Expr.tokens, bracketedTokens]
    split
    · exact ⟨_, _, rfl, rfl⟩
    · exact ⟨t, _, by rw [hts]; rfl, ht⟩

theorem head_expr {e : Expr} (h : e.Legible fun _ => False) {t : Token} (ht : t.isEnd = true)
    (surrounding : Nat) (rest : List Token) :
    (e.tokens surrounding ++ rest).head? ≠ some t := by
  obtain ⟨u, us, hus, hu⟩ := begins_expr e surrounding h
  rw [hus]
  rintro he
  obtain rfl : u = t := Option.some.inj he
  exact absurd ht (by rw [hu]; decide)

variable {n : Nat}

theorem readOperand_name {name : String} {rest : List Token} (h : rest.head? ≠ some .opening) :
    readOperand (n + 1) (.word name :: rest) = some (.var name, rest) := by
  rw [readOperand]
  · rintro rest rfl
    exact h rfl
  · rintro rest rfl
    exact h rfl

theorem readOperand_list {ts : List Token} (h : ts.head? ≠ some .closingList) :
    readOperand (n + 1) (.openingList :: ts) =
      (readItems n .closingList ts).map fun (items, rest) => (.array items, rest) := by
  rw [readOperand]
  rintro rest rfl
  exact h rfl

theorem readOperand_application {name : String} {ts : List Token}
    (h : ts.head? ≠ some .closing) :
    readOperand (n + 1) (.word name :: .opening :: ts) = readArguments n name ts := by
  rw [readOperand]
  rintro rest rfl
  exact h rfl

theorem readArguments_more {name : String} {ts rest : List Token} {first : Expr}
    (hfirst : readLevel n 0 ts = some (first, rest)) (hcolon : rest.head? ≠ some .colon) :
    readArguments (n + 1) name ts = (readMore n .closing rest).map
      fun (args, rest) => (applied name (first :: args), rest) := by
  rw [readArguments, hfirst, Option.bind_some]
  split
  · next he =>
    rw [(Prod.mk.inj he).2] at hcolon
    exact absurd rfl hcolon
  · next he =>
    obtain ⟨rfl, rfl⟩ := Prod.mk.inj he
    rfl

theorem applied_of_ne {name : String} (h : name ≠ characterCall) (args : List Expr) :
    applied name args = .call name args := by
  unfold applied
  split
  · exact if_neg h
  · rfl

theorem reads_var (name : String) (surrounding : Nat) : ReadsOn (.var name) surrounding := by
  refine .operand rfl ⟨by simp [Expr.tokens], by simp [Expr.tokens]⟩ fun n rest hrest hn => ?_
  obtain ⟨k, rfl⟩ := Nat.exists_eq_succ_of_ne_zero (by omega : n ≠ 0)
  exact readOperand_name hrest.bracket

theorem reads_array {es : List Expr} (hes : ∀ e ∈ es, ReadsOn e 0)
    (hlegible : exprsLegible (fun _ => False) es) (surrounding : Nat) :
    ReadsOn (.array es) surrounding := by
  refine .operand rfl ⟨by simp [Expr.tokens], by simp [Expr.tokens]⟩ fun n rest _ hn => ?_
  rw [Expr.tokens] at hn ⊢
  cases es with
  | nil =>
    obtain ⟨k, rfl⟩ := Nat.exists_eq_succ_of_ne_zero (by omega : n ≠ 0)
    rfl
  | cons e es =>
    rw [separated_exprs] at hn ⊢
    simp only [List.cons_append, List.append_assoc, List.nil_append, List.length_cons,
      List.length_append] at hn ⊢
    obtain ⟨k, rfl⟩ := Nat.exists_eq_add_of_le' (by omega : 2 ≤ n)
    have hroom : 3 * (e.tokens 0 ++ (furtherItems es ++ .closingList :: rest)).length + 2 ≤ k := by
      simp only [List.length_cons, List.length_append]
      omega
    obtain ⟨hfirst, hmore⟩ := reads_list hes .closingList (.inr rfl) hroom
    rw [readOperand_list (head_expr hlegible.1 rfl 0 _), readItems, hfirst, Option.bind_some]
    show ((readMore k .closingList _).map _).map _ = _
    rw [hmore]
    rfl

theorem reads_call {name : String} (hname : name ≠ characterCall) {es : List Expr}
    (hes : ∀ e ∈ es, ReadsOn e 0) (hlegible : exprsLegible (fun _ => False) es)
    (surrounding : Nat) : ReadsOn (.call name es) surrounding := by
  refine .operand rfl ⟨by simp [Expr.tokens], by simp [Expr.tokens]⟩ fun n rest _ hn => ?_
  rw [Expr.tokens] at hn ⊢
  cases es with
  | nil =>
    obtain ⟨k, rfl⟩ := Nat.exists_eq_succ_of_ne_zero (by omega : n ≠ 0)
    rfl
  | cons e es =>
    rw [separated_exprs] at hn ⊢
    simp only [List.cons_append, List.append_assoc, List.nil_append, List.length_cons,
      List.length_append] at hn ⊢
    obtain ⟨k, rfl⟩ := Nat.exists_eq_add_of_le' (by omega : 2 ≤ n)
    have hroom : 3 * (e.tokens 0 ++ (furtherItems es ++ .closing :: rest)).length + 2 ≤ k := by
      simp only [List.length_cons, List.length_append]
      omega
    obtain ⟨hfirst, hmore⟩ := reads_list hes .closing (.inl rfl) hroom
    have hcolon : (furtherItems es ++ .closing :: rest).head? ≠ some .colon := by
      cases es with
      | nil => simp [furtherItems, exprsTokens]
      | cons e es => simp [furtherItems_cons]
    rw [readOperand_application (head_expr hlegible.1 rfl 0 _), readArguments_more hfirst hcolon,
      hmore, ← applied_of_ne hname]
    rfl

theorem reads_substring {var : String} {lo hi : Expr} (hlo : ReadsOn lo 0) (hhi : ReadsOn hi 0)
    (hlegible : lo.Legible fun _ => False) (surrounding : Nat) :
    ReadsOn (.substring var lo hi) surrounding := by
  refine .operand rfl ⟨by simp [Expr.tokens], by simp [Expr.tokens]⟩ fun n rest _ hn => ?_
  rw [Expr.tokens] at hn ⊢
  simp only [List.cons_append, List.append_assoc, List.nil_append, List.length_cons,
    List.length_append] at hn ⊢
  obtain ⟨k, rfl⟩ := Nat.exists_eq_add_of_le' (by omega : 2 ≤ n)
  have hfirst : readLevel k 0 (lo.tokens 0 ++ .colon :: (hi.tokens 0 ++ .closing :: rest)) =
      some (lo, .colon :: (hi.tokens 0 ++ .closing :: rest)) :=
    hlo.alone (follows_end rfl 0 _) (by simp only [List.length_cons, List.length_append]; omega)
  have hsecond : readLevel k 0 (hi.tokens 0 ++ .closing :: rest) = some (hi, .closing :: rest) :=
    hhi.alone (follows_end rfl 0 _) (by simp only [List.length_cons, List.length_append]; omega)
  rw [readOperand_application (head_expr hlegible rfl 0 _), readArguments, hfirst,
    Option.bind_some]
  show (readLevel k 0 _).bind _ = _
  rw [hsecond]
  rfl

theorem reads_not {operand : Expr} (h : ReadsOn operand 5) (surrounding : Nat) :
    ReadsOn (.not operand) surrounding :=
  .inBrackets (h.negation (by decide)) (fun _ => by rw [Expr.tokens]) (fun _ => rfl) surrounding

theorem reads_bin {op : BinOp} {lhs rhs : Expr} (hlhs : ReadsOn lhs op.precedence)
    (hrhs : ReadsOn rhs (op.precedence + 1)) (hstops : lhs.stops op.precedence = 0)
    (hjoin : joinOperands op lhs rhs = .bin op lhs rhs) (surrounding : Nat) :
    ReadsOn (.bin op lhs rhs) surrounding := by
  rw [ReadsOn, hstops] at hlhs
  exact .inBrackets (hlhs.binary hrhs hjoin) (fun _ => by rw [Expr.tokens]) (fun _ => rfl)
    surrounding

theorem joinOperands_of_ne {op : BinOp} {lhs rhs : Expr} (hlhs : lhs.isConstant = false) :
    joinOperands op lhs rhs = .bin op lhs rhs := by
  unfold joinOperands
  split
  · exact nomatch hlhs
  · rfl

/-- Only comparisons stop a comparison from following, and none stands to the left of one. -/
theorem stops_lhs {op : BinOp} {lhs : Expr} (h : op.isRelation = true → lhs.isRelation = false) :
    lhs.stops op.precedence = 0 := by
  have hbounds := precedence_bounds op
  cases lhs with
  | not operand => exact if_pos (by omega)
  | bin op' a b =>
    -- without brackets the left operand binds at least as tightly
    rw [Expr.stops]
    split
    · rfl
    · refine if_neg fun hrelation => ?_
      have htwo : op'.precedence = 2 := by
        cases op' <;> first | rfl | exact nomatch hrelation
      have hop : op.isRelation = true := by
        cases op <;> first | rfl | (simp [BinOp.precedence] at *; omega)
      exact absurd hrelation (by rw [show op'.isRelation = false from h hop]; decide)
  | _ => rfl

mutual

/-- The reader goes on behind every expression that can be read back. -/
theorem reads_expr : ∀ (e : Expr) (surrounding : Nat), e.Legible (fun _ => False) →
    (e.isConstant = true → surrounding = 0) → ReadsOn e surrounding
  | .var name, surrounding, _, _ => reads_var name surrounding
  | .int n, surrounding, _, _ => .operand rfl ⟨by simp [Expr.tokens], by simp [Expr.tokens]⟩
      fun n _ _ hn => by
        obtain ⟨k, rfl⟩ := Nat.exists_eq_succ_of_ne_zero (by omega : n ≠ 0)
        rfl
  | .logical b, surrounding, _, _ => .operand rfl ⟨by simp [Expr.tokens], by simp [Expr.tokens]⟩
      fun n _ _ hn => by
        obtain ⟨k, rfl⟩ := Nat.exists_eq_succ_of_ne_zero (by omega : n ≠ 0)
        rfl
  | .str value, surrounding, _, hsurrounding => by
    rw [hsurrounding rfl]
    exact reads_constant value
  | .call name args, surrounding, h, _ =>
    reads_call h.2.1 (reads_exprs args h.2.2) h.2.2 surrounding
  | .substring var lo hi, surrounding, h, _ =>
    reads_substring (reads_expr lo 0 h.2.1 fun _ => rfl) (reads_expr hi 0 h.2.2 fun _ => rfl) h.2.1
      surrounding
  | .array items, surrounding, h, _ => reads_array (reads_exprs items h) h surrounding
  | .not operand, surrounding, h, _ =>
    reads_not (reads_expr operand 5 h.2 fun hc => absurd hc (by rw [h.1]; decide)) surrounding
  | .bin op lhs rhs, surrounding, h, _ =>
    reads_bin (reads_expr lhs _ h.1.2 fun hc => absurd hc (by rw [h.1.1]; decide))
      (reads_expr rhs _ h.2.1.2 fun hc => absurd hc (by rw [h.2.1.1]; decide)) (stops_lhs h.2.2)
      (joinOperands_of_ne h.1.1) surrounding

theorem reads_exprs : ∀ es : List Expr, exprsLegible (fun _ => False) es →
    ∀ e ∈ es, ReadsOn e 0
  | [], _ => fun _ h => nomatch h
  | e :: es, h => List.forall_mem_cons.mpr ⟨reads_expr e 0 h.1 fun _ => rfl, reads_exprs es h.2⟩

end

/-- An expression is read back from its tokens, up to what ends it. -/
theorem readExpr_tokens {e : Expr} (h : e.Legible fun _ => False) {rest : List Token}
    (hrest : Follows 0 rest) : readExpr (e.tokens 0 ++ rest) = some (e, rest) :=
  (reads_expr e 0 h fun _ => rfl).alone hrest (Nat.le_refl _)

end PegCompiler.Target
