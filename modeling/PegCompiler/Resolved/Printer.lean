import PegCompiler.Layout.Output
import PegCompiler.Resolved.Syntax
import PegCompiler.Text.Lines
import PegCompiler.Text.Quoted
/-!
  Resolved grammars in PEG notation: `/` between alternatives, `&` and `!` in
  front of a lookahead, `?`, `*`, `+` and bounds between bars behind a repeated
  matcher, a captured element behind its variable, and the value of a row behind
  `=>`.

  Correspondence (program ↔ here):
    `Print` of `Parser`, `RuleFn`, `ActionFn`    ↔ `Parser.doc`, `Rule.doc`, `Action.doc`
    `Print` of `Choice`, `Sequence`, `Element`   ↔ `Choice.doc`, `Alternative.doc`, `Element.doc`
    `Print` of `Matcher`, `Terminal`, `RuleCall` ↔ `Matcher.doc`
    `Print` of `Repeat`, `print_bounds`          ↔ `Matcher.doc`, `repeatSuffix`
    `Print` of `Lookahead`                       ↔ `Matcher.doc`, `lookaheadSign`
    `ClassTest::to_peg`, `Display` of `Bound`    ↔ `ClassTest.shown`, `Bound.shown`
    `Print` of `AltResult`, `ActionCall`         ↔ `AltResult.doc`, `ActionCall.doc`
-/

namespace PegCompiler.Resolved

open Layout (Doc Page)

/-- A bound; code stands in curly brackets. -/
def Bound.shown : Bound → String
  | .count n => toString n
  | .code expr => "\x7b" ++ expr ++ "\x7d"

/-- A test of a class, without the brackets of the class. -/
def ClassTest.shown : ClassTest → String
  | .set chars => Text.escaped chars
  | .range bottom top =>
    Text.escaped (String.ofList [bottom]) ++ "-" ++ Text.escaped (String.ofList [top])

/-- A call with its arguments. -/
def ActionCall.doc (call : ActionCall) : Doc :=
  .text call.function ++ (Doc.join (.text "," ++ Doc.space) (call.args.map .text)).parens

/-- The value of a row. -/
def AltResult.doc : AltResult → Doc
  | .consumed => .text "$"
  | .capture var => .text var
  | .concat vars => Doc.join (Doc.space ++ (.text "//" ++ Doc.space)) (vars.map .text)
  | .action call => call.doc

/-- The bounds behind a repeated matcher; the document is that of the
separator. -/
def repeatSuffix (min : Bound) (max : Option Bound) : Option Doc → Doc
  | some separator =>
    .text "|" ++ (.text min.shown ++ (.text "," ++ (Doc.space ++ (separator ++ .text "|"))))
  | none =>
    if min == .count 0 && max == some (.count 1) then .text "?"
    else if min == .count 0 && max == none then .text "*"
    else if min == .count 1 && max == none then .text "+"
    else if max == some min then .text "|" ++ (.text min.shown ++ .text "|")
    else
      .text "|" ++ (.text min.shown ++
        (.text ".." ++ (.text ((max.map Bound.shown).getD "") ++ .text "|")))

/-- Whether a matcher needs brackets in front of the bounds of a repetition. -/
def Matcher.isCompound : Matcher → Bool
  | .lookahead .. | .predicate .. | .repeat .. => true
  | _ => false

/-- The operator of a lookahead. -/
def lookaheadSign (negated : Bool) : Doc :=
  .text (if negated then "!" else "&")

/-- A row: its elements and, unless it is the consumed text, its value. -/
def rowDoc (elements : List Doc) (result : AltResult) : Doc :=
  let elements := if elements.isEmpty then .text "()" else Doc.join Doc.space elements
  match result with
  | .consumed => elements
  | result => elements ++ (Doc.space ++ (.text "=>" ++ (Doc.space ++ result.doc)))

/-- A choice in brackets. -/
def choiceDoc (alternatives : List Doc) : Doc :=
  (Doc.join (Doc.space ++ (.text "/" ++ Doc.space)) alternatives).parens

/-- A matcher behind the variable that captures it. -/
def capturedDoc (capture : Option Capture) (matcher : Doc) : Doc :=
  match capture with
  | some capture => .text capture.var ++ (.text ":" ++ matcher)
  | none => matcher

mutual

/-- A matcher in PEG notation. -/
def Matcher.doc : Matcher → Doc
  | .literal value => .mark .literal (Text.quoted value)
  | .class tests => .mark .literal ("[" ++ String.join (tests.map ClassTest.shown) ++ "]")
  | .anyChar => .text "."
  | .endOfInput => .text "!" ++ .text "."
  | .call call => .mark .rule call.rule
  | .choice choice => choice.doc
  | .repeat body min max separator =>
    (if body.isCompound then body.doc.parens else body.doc) ++
      repeatSuffix min max (separatorDoc separator)
  | .lookahead negated body => lookaheadSign negated ++ body.doc
  | .predicate negated call => lookaheadSign negated ++ call.doc.braces

/-- The separator of a repetition. -/
def separatorDoc : Option Matcher → Option Doc
  | none => none
  | some m => some m.doc

/-- A choice in PEG notation. -/
def Choice.doc : Choice → Doc
  | ⟨alternatives, _⟩ => choiceDoc (alternativeDocs alternatives)

/-- The alternatives of a choice. -/
def alternativeDocs : List Alternative → List Doc
  | [] => []
  | a :: rest => a.doc :: alternativeDocs rest

/-- A row in PEG notation. -/
def Alternative.doc : Alternative → Doc
  | ⟨elements, result, _⟩ => rowDoc (elementDocs elements) result

/-- The elements of a row. -/
def elementDocs : List Element → List Doc
  | [] => []
  | e :: rest => e.doc :: elementDocs rest

/-- An element in PEG notation. -/
def Element.doc : Element → Doc
  | ⟨matcher, capture⟩ => capturedDoc capture matcher.doc

end

/-- A type behind a colon. -/
def typedDoc (type : ValueType) : Doc :=
  Doc.space ++ (.text ":" ++ (Doc.space ++ .mark .type type.spec))

/-- A rule: its id, function and type, and one line for each alternative. -/
def Rule.doc (page : Page) (r : Rule) : Doc :=
  let head : Doc := if r.start then Doc.keyword "start" ++ Doc.space else .nil
  let row (op : String) (a : Alternative) : Doc := .text op ++ (Doc.space ++ a.doc)
  let rows : List Doc := match r.body.alternatives with
    | [] => []
    | a :: rest => row "<-" a :: rest.map (row "/")
  head ++ (.mark .rule r.id ++ (Doc.space ++ ((Doc.mark .comment r.function).parens ++
    (typedDoc r.resultType ++ .nest page.indent (.line ++ Doc.join .line rows)))))

/-- An extracted function with its code. -/
def Action.doc (page : Page) (a : Action) : Doc :=
  let keyword := match a.kind with
    | .action => "action"
    | .predicate => "predicate"
  let param (p : Param) : Doc := .text p.name ++ typedDoc p.type
  let params := (Doc.join (.text "," ++ Doc.space) (a.params.map param)).parens
  let code := (Text.lines (Text.trim a.code.toList)).map
    (fun line => Doc.text (String.ofList (Text.trimEnd line)))
  Doc.keyword keyword ++ (Doc.space ++ (.text a.function ++ (params ++ (typedDoc a.resultType ++
    (Doc.space ++ (.text "\x7b" ++ (.nest page.indent (.line ++ Doc.join .line code) ++
      (.line ++ .text "\x7d"))))))))

/-- A parser: its rules and extracted functions, an empty line between each
two. -/
def Parser.doc (page : Page) (p : Parser) : Doc :=
  Doc.join (.line ++ .line) (p.rules.map (Rule.doc page) ++ p.actions.map (Action.doc page)) ++
    .line

end PegCompiler.Resolved
