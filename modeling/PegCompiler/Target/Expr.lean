import PegCompiler.Layout.Output
import PegCompiler.Text.Blank
/-!
  Fortran expressions and how they are written. A character constant is split
  into quoted pieces of at most 40 characters with the quote doubled, control
  characters stand as calls of `achar`, and brackets stand where the precedence
  of an operator needs them.

  Correspondence (program ↔ here):
    `Expr`, `Call`, `BinOp`              ↔ `Expr`, `BinOp`
    `BinOp::symbol`, `BinOp::precedence` ↔ `BinOp.symbol`, `BinOp.precedence`
    `Print` of `Expr` and `Call`         ↔ `Expr.doc`
    `Piece`, `pieces`, `print_string`    ↔ `Piece`, `pieces`, `stringDoc`
-/

namespace PegCompiler.Target

open Layout (Doc Page)

/-- A binary operator. -/
inductive BinOp where
  | eq | gt | ge | lt | add | sub | concat
  deriving DecidableEq, Repr

/-- An expression. -/
inductive Expr where
  | var (name : String)
  | int (n : Nat)
  | logical (b : Bool)
  | str (value : String)
  | call (name : String) (args : List Expr)
  /-- A part of a text, both ends included. -/
  | substring (var : String) (lo hi : Expr)
  | array (items : List Expr)
  | not (operand : Expr)
  | bin (op : BinOp) (lhs rhs : Expr)
  /-- Code that nothing looks into. -/
  | verbatim (code : String)
  deriving Repr

/-- An operator as it is written. -/
def BinOp.symbol : BinOp → String
  | .eq => "=="
  | .gt => ">"
  | .ge => ">="
  | .lt => "<"
  | .add => "+"
  | .sub => "-"
  | .concat => "//"

/-- How tightly an operator binds: sums more than concatenation, and that more
than comparisons. -/
def BinOp.precedence : BinOp → Nat
  | .eq | .gt | .ge | .lt => 2
  | .concat => 3
  | .add | .sub => 4

/-- A piece of a character constant. -/
inductive Piece where
  | quoted (chars : List Char)
  | code (n : Nat)
  deriving DecidableEq, Repr

/-- The characters written by their code. -/
def isControl (c : Char) : Bool :=
  c.toNat < 0x20 || c.toNat == 0x7F

/-- The characters of a quoted piece: a quote is doubled. -/
def quotedChars (chars : List Char) : List Char :=
  chars.flatMap (fun c => if c == '\'' then ['\'', '\''] else [c])

/-- A quoted piece, unless it would be empty. -/
def Piece.flush (chunk : List Char) : List Piece :=
  if chunk.isEmpty then [] else [.quoted chunk]

/-- The pieces of the rest of a constant, behind the characters of an open
piece. -/
def piecesFrom (chunk : List Char) : List Char → List Piece
  | [] => Piece.flush chunk
  | c :: rest =>
    if isControl c then Piece.flush chunk ++ .code c.toNat :: piecesFrom [] rest
    else if chunk.length == 40 then .quoted chunk :: piecesFrom [c] rest
    else piecesFrom (chunk ++ [c]) rest

/-- The pieces of a character constant; an empty one is an empty piece. -/
def pieces (value : String) : List Piece :=
  match piecesFrom [] value.toList with
  | [] => [.quoted []]
  | ps => ps

/-- A piece as it is written. -/
def Piece.doc : Piece → Doc
  | .quoted chars => .mark .literal (String.ofList (['\''] ++ quotedChars chars ++ ['\'']))
  | .code n => .text ("achar(" ++ toString n ++ ")")

/-- A character constant, whose pieces may go on in the next line. -/
def stringDoc (page : Page) (value : String) : Doc :=
  .nest page.indent (Doc.continued " //" ((pieces value).map Piece.doc))

/-- A document in brackets if it binds less tightly than its surroundings. -/
def bracketed (surrounding own : Nat) (d : Doc) : Doc :=
  if surrounding > own then d.parens else d

mutual

/-- An expression in surroundings of a precedence. The operand of a negation has
to be an atom, and operators of one precedence group to the left. -/
def Expr.doc (page : Page) (surrounding : Nat) : Expr → Doc
  | .var name => .text name
  | .int n => .text (toString n)
  | .logical true => Doc.keyword ".true."
  | .logical false => Doc.keyword ".false."
  | .str value => stringDoc page value
  | .call name args =>
    .text name ++ (Doc.nest page.indent (Doc.continued "," (exprDocs page args))).parens
  | .substring var lo hi =>
    .text var ++ (lo.doc page 0 ++ (.text ":" ++ hi.doc page 0)).parens
  | .array items => (Doc.nest page.indent (Doc.continued "," (exprDocs page items))).brackets
  | .not operand =>
    bracketed surrounding 1 (Doc.keyword ".not." ++ (Doc.space ++ operand.doc page 5))
  | .bin op lhs rhs =>
    bracketed surrounding op.precedence
      (lhs.doc page op.precedence ++ (Doc.space ++ (.text op.symbol ++
        (Doc.space ++ rhs.doc page (op.precedence + 1)))))
  | .verbatim code => (Doc.text (Text.trimmed code)).parens

/-- Expressions in a list. -/
def exprDocs (page : Page) : List Expr → List Doc
  | [] => []
  | e :: rest => e.doc page 0 :: exprDocs page rest

end

end PegCompiler.Target
