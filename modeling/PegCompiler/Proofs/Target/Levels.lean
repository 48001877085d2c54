import PegCompiler.Proofs.Layout.Inline
import PegCompiler.Proofs.Target.Spelling
/-
  Operators and their brackets. What stands around an expression is a number when it is
  written, and a pair of brackets is left out where that number allows it. The rules of the
  language are stated apart from these numbers (`Parses`): negations bind least, then
  comparisons, which do not associate, then concatenations and sums, which associate to the
  left. What is shown:

    1. `parses_tokens`: the tokens of an expression are a phrase of the level that stands
       around it;
    2. `Parses.unique`: no tokens are phrases for two expressions, whatever their levels,
       since the reader goes on behind each phrase with its expression (`Parses.reads`);
    3. `Expr.doc_surrounded`: brackets are around the whole text where the outermost operator
       binds less tightly than what stands around it, and nowhere else does the number matter;
    4. `operators_read_back`: all of this for the text, which is on one line.

  A comparison to the left of a comparison is left out: it is written without the brackets
  that the rules ask for there.
-/

namespace PegCompiler.Target

open Layout (Doc Page plainSymbols)

/-! ## Expressions of operators -/

/-- An expression is made of names, numbers and truth values by operators, and no comparison
stands to the left of a comparison. -/
def Expr.Operators : Expr → Prop
  | .var name => IsName name
  | .int _ | .logical _ => True
  | .not operand => operand.Operators
  | .bin op lhs rhs =>
    lhs.Operators ∧ rhs.Operators ∧ (op.isRelation = true → lhs.isRelation = false)
  | _ => False

/-- How tightly the outermost operator of an expression binds, if it has one. -/
def Expr.outermost : Expr → Option Nat
  | .not _ => some 1
  | .bin op _ _ => some op.precedence
  | _ => none

namespace Expr.Operators

theorem isConstant_eq_false {e : Expr} (h : e.Operators) : e.isConstant = false := by
  cases e with
  | str value => exact h.elim
  | _ => rfl

theorem legible : ∀ {e : Expr}, e.Operators → e.Legible fun _ => False
  | .var _, h => h
  | .int _, _ | .logical _, _ => trivial
  | .not operand, h =>
    have hoperand : operand.Operators := h
    ⟨hoperand.isConstant_eq_false, legible hoperand⟩
  | .bin _ _ _, h =>
    ⟨⟨h.1.isConstant_eq_false, legible h.1⟩, ⟨h.2.1.isConstant_eq_false, legible h.2.1⟩, h.2.2⟩

end Expr.Operators

/-! ## The rules -/

/-- Tokens are a phrase for an expression. The levels are those of conditions (1), comparisons
(2), concatenations (3), sums (4) and what stands by itself (5). -/
inductive Parses : Nat → List Token → Expr → Prop
  | var (name : String) : Parses 5 [.word name] (.var name)
  | int (n : Nat) : Parses 5 [.number n] (.int n)
  | logical (b : Bool) : Parses 5 [.logical b] (.logical b)
  | brackets {ts : List Token} {e : Expr} (h : Parses 0 ts e) :
    Parses 5 (.opening :: (ts ++ [.closing])) e
  | sum {op : BinOp} {ts us : List Token} {lhs rhs : Expr} (hop : op = .add ∨ op = .sub)
    (hlhs : Parses 4 ts lhs) (hrhs : Parses 5 us rhs) :
    Parses 4 (ts ++ .binary op :: us) (.bin op lhs rhs)
  | concatenation {ts us : List Token} {lhs rhs : Expr} (hlhs : Parses 3 ts lhs)
    (hrhs : Parses 4 us rhs) : Parses 3 (ts ++ .binary .concat :: us) (.bin .concat lhs rhs)
  | comparison {op : BinOp} {ts us : List Token} {lhs rhs : Expr} (hop : op.isRelation = true)
    (hlhs : Parses 3 ts lhs) (hrhs : Parses 3 us rhs) :
    Parses 2 (ts ++ .binary op :: us) (.bin op lhs rhs)
  | negation {ts : List Token} {e : Expr} (h : Parses 2 ts e) :
    Parses 1 (.negation :: ts) (.not e)
  /-- What binds more tightly can stand wherever less is asked for. -/
  | wider {level : Nat} {ts : List Token} {e : Expr} (h : Parses (level + 1) ts e) :
    Parses level ts e

variable {level level' : Nat} {ts us : List Token} {e e' lhs rhs : Expr}

namespace Parses

theorem lower (h : Parses level ts e) (hle : level' ≤ level) : Parses level' ts e := by
  induction level, hle using Nat.le_induction with
  | base => exact h
  | succ level _ ih => exact ih h.wider

/-- A phrase in brackets where it binds less tightly than what stands around it. -/
theorem bracketed {own : Nat} (h : Parses own ts e) (surrounding : Nat) :
    Parses (min surrounding 5) (bracketedTokens surrounding own ts) e := by
  unfold bracketedTokens
  split
  · exact (h.lower (Nat.zero_le own)).brackets.lower (Nat.min_le_right surrounding 5)
  · exact h.lower (by omega)

/-- Two operands with an operator, on the levels of its precedence. -/
theorem bin (op : BinOp) (hlhs : Parses (if op.isRelation then 3 else op.precedence) ts lhs)
    (hrhs : Parses (op.precedence + 1) us rhs) :
    Parses op.precedence (ts ++ .binary op :: us) (.bin op lhs rhs) := by
  cases op with
  | eq | gt | ge | lt => exact .comparison rfl hlhs hrhs
  | concat => exact .concatenation hlhs hrhs
  | add => exact .sum (.inl rfl) hlhs hrhs
  | sub => exact .sum (.inr rfl) hlhs hrhs

theorem isConstant_eq_false (h : Parses level ts e) : e.isConstant = false := by
  induction h with
  | brackets _ ih | wider _ ih => exact ih
  | _ => rfl

end Parses

/-! ## One expression for a phrase -/

/-- The reader goes on behind tokens of a level with an expression, wherever they stand. From
concatenations on, any operator may follow. -/
def ReadsAt (level : Nat) (ts : List Token) (e : Expr) : Prop :=
  ∃ stop, (3 ≤ level → stop = 0) ∧ ReadsAs ts e level stop

theorem precedence_relation {op : BinOp} (h : op.isRelation = true) : op.precedence = 2 := by
  cases op <;> first | rfl | exact nomatch h

namespace ReadsAt

theorem lower (h : ReadsAt level ts e) (hle : level' ≤ level) : ReadsAt level' ts e := by
  obtain ⟨stop, hstop, hreads⟩ := h
  exact ⟨stop, fun htight => hstop (Nat.le_trans htight hle), hreads.lower hle⟩

/-- What is read by itself is read on the highest level. -/
theorem operand (hhead : ts.head? ≠ some .negation ∧ ts ≠ [])
    (h : ∀ n rest, Follows 5 rest → readOperand (n + 1) (ts ++ rest) = some (e, rest)) :
    ReadsAt 5 ts e := by
  refine ⟨0, fun _ => rfl, .operand hhead fun n rest hrest hn => ?_⟩
  obtain ⟨k, rfl⟩ := Nat.exists_eq_succ_of_ne_zero (by omega : n ≠ 0)
  exact h k rest hrest

theorem brackets (h : ReadsAt 0 ts e) : ReadsAt 5 (.opening :: (ts ++ [.closing])) e := by
  obtain ⟨_, -, hreads⟩ := h
  exact ⟨0, fun _ => rfl, hreads.brackets 5⟩

theorem negation (h : ReadsAt 2 ts e) : ReadsAt 1 (.negation :: ts) (.not e) := by
  obtain ⟨_, -, hreads⟩ := h
  exact ⟨5, fun htight => absurd htight (by decide), hreads.negation (Nat.le_refl 2)⟩

/-- An operator is read with its operands, if no other has to end in front of it. -/
theorem bin (op : BinOp) (hlhs : ReadsAt level ts lhs) (hleft : max 3 op.precedence ≤ level)
    (hrhs : ReadsAt (op.precedence + 1) us rhs) (hconstant : lhs.isConstant = false) :
    ReadsAt op.precedence (ts ++ .binary op :: us) (.bin op lhs rhs) := by
  obtain ⟨stop, hstop, hl⟩ := hlhs
  obtain ⟨_, -, hr⟩ := hrhs
  -- the left operand is no comparison, so that the operator is read behind it
  obtain rfl := hstop (by omega)
  refine ⟨_, fun htight => if_neg fun hop => ?_,
    (hl.lower (by omega)).binary hr (joinOperands_of_ne hconstant)⟩
  have htwo := precedence_relation hop
  omega

end ReadsAt

/-- The reader goes on behind every phrase with its expression. -/
theorem Parses.reads (h : Parses level ts e) : ReadsAt level ts e := by
  induction h with
  | var name => exact .operand ⟨by simp, by simp⟩ fun _ _ hrest => readOperand_name hrest.bracket
  | int n => exact .operand ⟨by simp, by simp⟩ fun _ _ _ => rfl
  | logical b => exact .operand ⟨by simp, by simp⟩ fun _ _ _ => rfl
  | brackets _ ih => exact ih.brackets
  | sum hop hlhs _ ihl ihr =>
    obtain rfl | rfl := hop
    · exact .bin .add ihl (by decide) ihr hlhs.isConstant_eq_false
    · exact .bin .sub ihl (by decide) ihr hlhs.isConstant_eq_false
  | concatenation hlhs _ ihl ihr =>
    exact .bin .concat ihl (by decide) ihr hlhs.isConstant_eq_false
  | @comparison op _ us _ rhs hop hlhs _ ihl ihr =>
    have htwo := precedence_relation hop
    have hright : ReadsAt (op.precedence + 1) us rhs := by
      rw [htwo]
      exact ihr
    rw [← htwo]
    exact .bin op ihl (by omega) hright hlhs.isConstant_eq_false
  | negation _ ih => exact ih.negation
  | wider _ ih => exact ih.lower (Nat.le_succ _)

theorem Parses.readExpr_eq (h : Parses level ts e) : readExpr ts = some (e, []) := by
  obtain ⟨_, -, hreads⟩ := h.reads
  have halone := (hreads.lower (Nat.zero_le level)).alone (follows_nil 0) (Nat.le_refl _)
  rwa [List.append_nil] at halone

/-- No tokens are phrases for two expressions. -/
theorem Parses.unique (h : Parses level ts e) (h' : Parses level' ts e') : e = e' := by
  have hsame : some (e, ([] : List Token)) = some (e', []) := by
    rw [← h.readExpr_eq, h'.readExpr_eq]
  exact (Prod.mk.inj (Option.some.inj hsame)).1

/-! ## Expressions as phrases -/

/-- An expression that is no comparison looks the same on both sides of one. -/
theorem tokens_beside_relation {e : Expr} (h : e.isRelation = false) : e.tokens 2 = e.tokens 3 := by
  cases e with
  | not operand => rw [Expr.tokens, Expr.tokens]; rfl
  | bin op lhs rhs =>
    cases op with
    | eq | gt | ge | lt => exact nomatch h
    | add | sub | concat => rw [Expr.tokens, Expr.tokens]; rfl
  | _ => rw [Expr.tokens, Expr.tokens]

/-- The tokens of an expression are a phrase for it, on the level of what stands around it. -/
theorem parses_tokens : ∀ {e : Expr}, e.Operators → ∀ surrounding : Nat,
    Parses (min surrounding 5) (e.tokens surrounding) e
  | .var name, _, surrounding => by
    rw [Expr.tokens]
    exact (Parses.var name).lower (Nat.min_le_right surrounding 5)
  | .int n, _, surrounding => by
    rw [Expr.tokens]
    exact (Parses.int n).lower (Nat.min_le_right surrounding 5)
  | .logical b, _, surrounding => by
    rw [Expr.tokens]
    exact (Parses.logical b).lower (Nat.min_le_right surrounding 5)
  | .not operand, h, surrounding => by
    have hinside : operand.Operators := h
    have hoperand : Parses 5 (operand.tokens 5) operand := parses_tokens hinside 5
    rw [Expr.tokens]
    exact (hoperand.lower (by decide)).negation.bracketed surrounding
  | .bin op lhs rhs, ⟨hlhs, hrhs, hrelation⟩, surrounding => by
    have hbounds := precedence_bounds op
    have hright : Parses (op.precedence + 1) (rhs.tokens (op.precedence + 1)) rhs :=
      (parses_tokens hrhs (op.precedence + 1)).lower (by omega)
    have hleft : Parses (if op.isRelation then 3 else op.precedence) (lhs.tokens op.precedence)
        lhs := by
      split
      · next hop =>
        -- it is written for the level of comparisons, but has to be of the next one
        rw [precedence_relation hop, tokens_beside_relation (hrelation hop)]
        exact parses_tokens hlhs 3
      · exact (parses_tokens hlhs op.precedence).lower (by omega)
    rw [Expr.tokens]
    exact (Parses.bin op hleft hright).bracketed surrounding

/-! ## The text -/

section
variable {page : Page} {d d' : Doc}

/-- A document is on one line and its symbols are its characters. -/
structure OneLine (d : Doc) : Prop where
  inline : d.Inline
  symbols : ∀ indent : Nat, shown d indent = d.chars.map .char

namespace OneLine

theorem text (s : String) : OneLine (.text s) :=
  ⟨.text s, fun _ => shown_text s⟩

theorem keyword (s : String) : OneLine (Doc.keyword s) := by
  refine ⟨.mark .keyword s, fun indent => ?_⟩
  have hplain : shown (Doc.keyword s) indent = shown (.text s) indent :=
    shown_styled (by decide) (.text s)
  rw [hplain, shown_text]
  rfl

theorem append (h : OneLine d) (h' : OneLine d') : OneLine (d ++ d') := by
  refine ⟨.append h.inline h'.inline, fun indent => ?_⟩
  rw [shown_append d d', h.symbols, h'.symbols, Doc.chars_append, List.map_append]

theorem bracketed (h : OneLine d) (surrounding own : Nat) :
    OneLine (bracketed surrounding own d) := by
  unfold Target.bracketed
  split
  · exact .append (.text "(") (.append h (.text ")"))
  · exact h

/-- A document on one line is read as its tokens, on pages of any width. -/
theorem lex_plain {apart : Bool} {ts : List Token} (h : OneLine d) (hreads : Reads apart d ts)
    (width : Nat) : lex (plainSymbols (d.plain width)) = some ts := by
  have hall := hreads 0 [] fun _ => parts_nil
  rw [List.append_nil, h.symbols] at hall
  rw [plainSymbols, h.inline.plain, lex, hall, lexFrom, Partial.finish, Option.map_some,
    List.append_nil]

end OneLine

theorem oneLine_operators : ∀ {e : Expr}, e.Operators → ∀ surrounding : Nat,
    OneLine (e.doc page surrounding)
  | .var name, _, _ => by
    rw [Expr.doc]
    exact .text name
  | .int n, _, _ => by
    rw [Expr.doc]
    exact .text (toString n)
  | .logical true, _, _ => by
    rw [Expr.doc]
    exact .keyword ".true."
  | .logical false, _, _ => by
    rw [Expr.doc]
    exact .keyword ".false."
  | .not operand, h, surrounding => by
    have hinside : operand.Operators := h
    have hoperand : OneLine (operand.doc page 5) := oneLine_operators hinside 5
    rw [Expr.doc]
    exact ((OneLine.keyword ".not.").append ((OneLine.text " ").append hoperand)).bracketed
      surrounding 1
  | .bin op lhs rhs, ⟨hlhs, hrhs, _⟩, surrounding => by
    have hleft : OneLine (lhs.doc page op.precedence) := oneLine_operators hlhs op.precedence
    have hright : OneLine (rhs.doc page (op.precedence + 1)) :=
      oneLine_operators hrhs (op.precedence + 1)
    have hspace : OneLine Doc.space := .text " "
    rw [Expr.doc]
    exact (hleft.append (hspace.append ((OneLine.text op.symbol).append
      (hspace.append hright)))).bracketed surrounding op.precedence

/-- What stands around an expression decides about brackets around all of it only. -/
theorem Expr.doc_surrounded (e : Expr) (surrounding : Nat) : e.doc page surrounding =
    if ∃ own ∈ e.outermost, own < surrounding then (e.doc page 0).parens else e.doc page 0 := by
  cases e with
  | not operand => simp [Expr.doc, Expr.outermost, bracketed]
  | bin op lhs rhs => simp [Expr.doc, Expr.outermost, bracketed]
  | logical b => cases b <;> simp [Expr.doc, Expr.outermost]
  | _ => simp [Expr.doc, Expr.outermost]

/-- Brackets around a document on one line are brackets around its text. -/
theorem plain_parens (h : d.Inline) (width : Nat) :
    d.parens.plain width = "(" ++ d.plain width ++ ")" := by
  rw [← String.toList_inj, h.parens.plain, String.toList_append, String.toList_append, h.plain]
  rfl

end

/-- **Operators are read back.** Whatever stands around an expression of operators, its text
is a phrase for it on that level and for no other expression on any, so that reading the text
gives the expression. The text is in brackets where the outermost operator binds less tightly
than what stands around it, and else written as if nothing did. -/
theorem operators_read_back (page : Page) (surrounding : Nat) {e : Expr} (h : e.Operators) :
    let text := (e.doc page surrounding).plain page.width
    let bare := (e.doc page 0).plain page.width
    (∃ ts, lex (plainSymbols text) = some ts ∧ Parses (min surrounding 5) ts e ∧
        (∀ level e', Parses level ts e' → e' = e) ∧ readExpr ts = some (e, [])) ∧
      ((∃ own ∈ e.outermost, own < surrounding) → text = "(" ++ bare ++ ")") ∧
      ((∀ own ∈ e.outermost, surrounding ≤ own) → text = bare) := by
  intro text bare
  have hparses : Parses (min surrounding 5) (e.tokens surrounding) e := parses_tokens h surrounding
  have hlex : lex (plainSymbols text) = some (e.tokens surrounding) :=
    (oneLine_operators h surrounding).lex_plain (shows_expr e h.legible surrounding) page.width
  have hbare : (e.doc page 0).Inline := (oneLine_operators h 0).inline
  refine ⟨⟨_, hlex, hparses, fun _ _ h' => h'.unique hparses, hparses.readExpr_eq⟩, ?_, ?_⟩
  · intro hless
    show (e.doc page surrounding).plain page.width = _
    rw [Expr.doc_surrounded, if_pos hless, plain_parens hbare]
  · intro hmore
    show (e.doc page surrounding).plain page.width = _
    rw [Expr.doc_surrounded, if_neg]
    rintro ⟨own, hown, hless⟩
    exact absurd (hmore own hown) (by omega)

/-- A negated comparison of differences, where a comparison stands around it. -/
theorem negated_comparison_read_back :
    let e : Expr :=
      .not (.bin .eq (.bin .sub (.var "a") (.bin .sub (.var "b") (.int 1))) (.var "c"))
    let text := (e.doc {} 2).plain 132
    e.Operators ∧ text = "(.not. (a - (b - 1) == c))" ∧
      ∃ ts, lex (plainSymbols text) = some ts ∧ Parses 2 ts e ∧
        ∀ level e', Parses level ts e' → e' = e := by
  intro e text
  have hname (c : Char) (hc : c.isAlpha = true) : IsName (String.ofList [c]) :=
    ⟨c, [], String.toList_ofList, hc, fun _ h => nomatch h⟩
  have he : e.Operators :=
    ⟨⟨hname 'a' rfl, ⟨hname 'b' rfl, trivial, fun h => nomatch h⟩, fun h => nomatch h⟩,
      hname 'c' rfl, fun _ => rfl⟩
  obtain ⟨⟨ts, hlex, hparses, hunique, -⟩, hbrackets, -⟩ := operators_read_back {} 2 he
  refine ⟨he, ?_, ts, hlex, hparses, hunique⟩
  have htext : text = "(" ++ (e.doc {} 0).plain 132 ++ ")" := hbrackets ⟨1, rfl, by decide⟩
  have hbare : (e.doc {} 0).plain 132 = ".not. (a - (b - 1) == c)" := by decide +kernel
  rw [htext, hbare]
  decide

/-- A comparison to the left of a comparison has no brackets, and the second one is not read. -/
example :
    let e : Expr := .bin .eq (.bin .lt (.var "a") (.var "b")) (.var "c")
    let text := (e.doc {} 0).plain 132
    text = "a < b == c" ∧
      ((lex (plainSymbols text)).bind readExpr).map Prod.snd = some [.binary .eq, .word "c"] := by
  decide +kernel

end PegCompiler.Target
