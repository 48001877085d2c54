import PegCompiler.Target.Stmt
import PegCompiler.Text.Indentation
/-!
  Fortran functions and modules. Code of the grammar's author is written as it
  is, with its own common indentation exchanged for that of its place.

  Correspondence (program ↔ here):
    `Module`, `Function`, `Body`       ↔ `Module`, `Function`, `Body`
    `Print` of `Module` and `Function` ↔ `Module.doc`, `Function.doc`
    `print_verbatim`                   ↔ `codeDoc`
-/

namespace PegCompiler.Target

open Layout (Doc Page)

/-- The body of a function. -/
inductive Body where
  | stmts (body : List Stmt)
  /-- Code that nothing looks into. -/
  | verbatim (code : String)
  deriving Repr

/-- A function. -/
structure Function where
  recursive : Bool
  name : String
  args : List String
  result : String
  decls : List Decl
  body : Body
  deriving Repr

/-- A module of functions, with code in front of it and behind its functions. -/
structure Module where
  name : String
  uses : List String
  prologue : Option String := none
  functions : List Function
  epilogue : Option String := none
  deriving Repr

/-- The lines of a block of code. -/
def codeDoc (code : String) : Doc :=
  Doc.join .line ((Text.dedentLines code).map .text)

/-- The body of a function, each line after a line end. -/
def Body.doc (page : Page) : Body → Doc
  | .stmts body => indented page (stmtDocs page body)
  | .verbatim code =>
    if Text.isBlankText code then .nil else .nest page.indent (.line ++ codeDoc code)

/-- A function as it is written. -/
def Function.doc (page : Page) (f : Function) : Doc :=
  let recursive : Doc := if f.recursive then Doc.keyword "recursive" ++ Doc.space else .nil
  let args := (Doc.nest page.indent (Doc.continued "," (f.args.map .text))).parens
  let decls := Doc.nest page.indent (Doc.concat (f.decls.map (fun d => .line ++ d.doc page)))
  recursive ++ (Doc.keyword "function" ++ (Doc.space ++ (.text f.name ++ (args ++ (Doc.space ++
    (Doc.keyword "result" ++ ((Doc.text f.result).parens ++ (decls ++ (f.body.doc page ++
      (.line ++ (endDoc "function" none ++ (Doc.space ++ .text f.name))))))))))))

/-- Code in front of a module or behind its functions, if there is any to
write. -/
def sideCode : Option String → Option Doc
  | some code => if Text.isBlankText code then none else some (codeDoc code)
  | none => none

/-- A module as it is written. -/
def Module.doc (page : Page) (m : Module) : Doc :=
  let gap : Doc := .line ++ .line
  let prologue : Doc := match sideCode m.prologue with
    | some code => code ++ gap
    | none => .nil
  let uses := m.uses.map (fun u => Doc.keyword "use" ++ (Doc.space ++ (.text u ++ .line)))
  let functions := Doc.join gap (m.functions.map (Function.doc page))
  let epilogue : Doc := match sideCode m.epilogue with
    | some code => gap ++ code
    | none => .nil
  prologue ++ (Doc.keyword "module" ++ (Doc.space ++ (.text m.name ++
    (.nest page.indent (.line ++ (Doc.concat uses ++ Doc.keyword "implicit none")) ++
      (.line ++ (Doc.keyword "contains" ++ (.nest page.indent (gap ++ functions) ++ (epilogue ++
        (gap ++ (endDoc "module" none ++ (Doc.space ++ (.text m.name ++ .line))))))))))))

end PegCompiler.Target
