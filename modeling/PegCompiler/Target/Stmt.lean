import PegCompiler.Target.Expr
/-!
  Fortran statements and how they are written: one statement a line, bodies
  indented, and an `if` without alternatives around one simple statement on a
  single line.

  Correspondence (program ↔ here):
    `Stmt`, `Assign`, `If`, `Do`, `SelectCase`, `Block`  ↔ `Stmt`
    `Decl`, `DoRange`                                    ↔ `Decl`, `DoRange`
    `Stmt::when`, `Stmt::is_simple`                      ↔ `Stmt.when`, `Stmt.isSimple`
    `Print` of `Stmt`, `If`, `Do`, `SelectCase`, `Block` ↔ `Stmt.doc`, `condDoc`, `loopHead`
    `print_body`, `with_label`                           ↔ `indented`, `keywordFor`
    `end`, `labeled`                                     ↔ `endDoc`, `labelDoc`
    `Print` of `Decl`                                    ↔ `Decl.doc`
-/

namespace PegCompiler.Target

open Layout (Doc Page)

/-- A declaration of variables of one type. -/
structure Decl where
  type : String
  attrs : List String := []
  names : List String
  deriving DecidableEq, Repr

/-- The loop variable of a counted loop and its first and last values. -/
structure DoRange where
  var : String
  first : Expr
  last : Expr
  deriving Repr

/-- A statement. -/
inductive Stmt where
  | assign (lhs : String) (rhs : Expr)
  | cond (test : Expr) (body : List Stmt) (elseIfs : List (Expr × List Stmt))
      (otherwise : Option (List Stmt))
  /-- A loop, endless without a range. -/
  | loop (label : Option String) (range : Option DoRange) (body : List Stmt)
  | select (selector : Expr) (cases : List (Nat × List Stmt)) (default : Option (List Stmt))
  | block (label : Option String) (decls : List Decl) (body : List Stmt)
  | exit (label : Option String)
  | cycle (label : Option String)
  | return
  deriving Repr

/-- Statements to run under a condition. -/
def Stmt.when (test : Expr) (body : List Stmt) : Stmt :=
  .cond test body [] none

/-- Whether a statement can stand behind a condition on the same line. -/
def Stmt.isSimple : Stmt → Bool
  | .assign .. | .exit _ | .cycle _ | .return => true
  | _ => false

/-- A declaration. -/
def Decl.doc (page : Page) (d : Decl) : Doc :=
  let type := d.attrs.foldl (fun doc attr => doc ++ (.text ", " ++ .text attr)) (.mark .type d.type)
  type ++ (.text " :: " ++ .nest page.indent (Doc.continued "," (d.names.map .text)))

/-- A keyword that may name a construct. -/
def keywordFor (keyword : String) (label : Option String) : Doc :=
  match label with
  | some label => Doc.keyword keyword ++ (Doc.space ++ .text label)
  | none => Doc.keyword keyword

/-- The name in front of a construct. -/
def labelDoc : Option String → Doc
  | some label => .text label ++ (.text ":" ++ Doc.space)
  | none => .nil

/-- The end of a construct. -/
def endDoc (construct : String) (label : Option String) : Doc :=
  Doc.keyword "end" ++ (Doc.space ++ keywordFor construct label)

/-- Lines inside a construct, each after a line end. -/
def indented (page : Page) (ds : List Doc) : Doc :=
  if ds.isEmpty then .nil else .nest page.indent (.line ++ Doc.join .line ds)

/-- A condition behind its keyword. -/
def condHead (keyword : Doc) (test : Doc) : Doc :=
  keyword ++ (Doc.space ++ test.parens)

/-- A conditional construct of several lines, from its documents. -/
def condDoc (page : Page) (test : Doc) (body : List Doc) (elseIfs : List (Doc × List Doc))
    (otherwise : Option (List Doc)) : Doc :=
  let branch (keyword : Doc) (test : Doc) (body : List Doc) : Doc :=
    condHead keyword test ++ (Doc.space ++ (Doc.keyword "then" ++ indented page body))
  let elseIf : Doc := Doc.keyword "else" ++ (Doc.space ++ Doc.keyword "if")
  let branches := elseIfs.map (fun b => .line ++ branch elseIf b.1 b.2)
  let otherwise : Doc := match otherwise with
    | some body => .line ++ (Doc.keyword "else" ++ indented page body)
    | none => .nil
  branch (Doc.keyword "if") test body ++ (Doc.concat branches ++ (otherwise ++
    (.line ++ endDoc "if" none)))

/-- The head of a loop. -/
def loopHead (page : Page) (label : Option String) (range : Option DoRange) : Doc :=
  labelDoc label ++ (Doc.keyword "do" ++ (match range with
    | none => .nil
    | some r =>
      Doc.space ++ (.text r.var ++ (.text " = " ++ (r.first.doc page 0 ++ (.text ", " ++
        r.last.doc page 0))))))

mutual

/-- A statement as it is written. -/
def Stmt.doc (page : Page) : Stmt → Doc
  | .assign lhs rhs => .text lhs ++ (.text " = " ++ rhs.doc page 0)
  | .cond test body elseIfs otherwise =>
    let bodyDocs := stmtDocs page body
    let elseIfDocs := branchDocs page elseIfs
    let otherwiseDocs := optionalDocs page otherwise
    match body, bodyDocs, elseIfs, otherwise with
    | [s], [d], [], none =>
      if s.isSimple then condHead (Doc.keyword "if") (test.doc page 0) ++ (Doc.space ++ d)
      else condDoc page (test.doc page 0) bodyDocs elseIfDocs otherwiseDocs
    | _, _, _, _ => condDoc page (test.doc page 0) bodyDocs elseIfDocs otherwiseDocs
  | .loop label range body =>
    loopHead page label range ++ (indented page (stmtDocs page body) ++
      (.line ++ endDoc "do" label))
  | .select selector cases default =>
    let default := match optionalDocs page default with
      | some body => [Doc.keyword "case default" ++ indented page body]
      | none => []
    Doc.keyword "select case" ++ (Doc.space ++ ((selector.doc page 0).parens ++ (.line ++
      (Doc.join .line (caseDocs page cases ++ default) ++ (.line ++ endDoc "select" none)))))
  | .block label decls body =>
    labelDoc label ++ (Doc.keyword "block" ++ (indented page (decls.map (Decl.doc page)) ++
      (indented page (stmtDocs page body) ++ (.line ++ endDoc "block" label))))
  | .exit label => keywordFor "exit" label
  | .cycle label => keywordFor "cycle" label
  | .return => Doc.keyword "return"

/-- Statements one by one. -/
def stmtDocs (page : Page) : List Stmt → List Doc
  | [] => []
  | s :: rest => s.doc page :: stmtDocs page rest

/-- The statements of a branch that may be missing. -/
def optionalDocs (page : Page) : Option (List Stmt) → Option (List Doc)
  | none => none
  | some body => some (stmtDocs page body)

/-- The tests and statements of further branches. -/
def branchDocs (page : Page) : List (Expr × List Stmt) → List (Doc × List Doc)
  | [] => []
  | (test, body) :: rest => (test.doc page 0, stmtDocs page body) :: branchDocs page rest

/-- The cases of a selection. -/
def caseDocs (page : Page) : List (Nat × List Stmt) → List Doc
  | [] => []
  | (value, body) :: rest =>
    (Doc.keyword "case" ++ (Doc.space ++ ((Doc.text (toString value)).parens ++
      indented page (stmtDocs page body)))) :: caseDocs page rest

end

end PegCompiler.Target
