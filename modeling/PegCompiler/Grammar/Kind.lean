import PegCompiler.Grammar.Syntax
/-!
  The kinds of grammar nodes, by which messages name the offending one.

  Correspondence (program ↔ here):
    `NodeKind` and its `Display`  ↔ `NodeKind`, `NodeKind.name`
    `Element::kind`, `Expr::kind` ↔ `Element.kind`, `Expr.kind`
-/

namespace PegCompiler.Grammar

/-- A kind of grammar node. -/
inductive NodeKind where
  | grammar | rule | choice | sequence | action | pluck | labeled | annotated
  | assertion | negAssertion | predicate | literal | charClass | range | ruleRef
  | anyChar | endOfInput
  deriving DecidableEq, Repr

/-- The name of a kind in messages. -/
def NodeKind.name : NodeKind → String
  | .grammar => "grammar"
  | .rule => "rule"
  | .choice => "choice"
  | .sequence => "sequence"
  | .action => "action"
  | .pluck => "pluck"
  | .labeled => "labeled expression"
  | .annotated => "quantified expression"
  | .assertion => "assertion"
  | .negAssertion => "negative assertion"
  | .predicate => "predicate"
  | .literal => "string literal"
  | .charClass => "character class"
  | .range => "character range"
  | .ruleRef => "rule reference"
  | .anyChar => "any character"
  | .endOfInput => "end of input"

/-- The kind of an element. -/
def Element.kind : Element → NodeKind
  | .item true _ _ => .pluck
  | .item false _ _ => .labeled
  | .check false _ => .assertion
  | .check true _ => .negAssertion

/-- The kind of an expression. -/
def Expr.kind : Expr → NodeKind
  | .literal _ => .literal
  | .class _ => .charClass
  | .ruleRef _ => .ruleRef
  | .anyChar => .anyChar
  | .endOfInput => .endOfInput
  | .group _ => .choice

/-- The kind of the expression in an element; a predicate has none. -/
def Element.exprKind : Element → Option NodeKind
  | .item _ _ body => some body.expr.kind
  | .check _ (.lookahead body) => some body.expr.kind
  | .check _ (.predicate _) => none

end PegCompiler.Grammar
