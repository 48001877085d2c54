import PegCompiler.Lowering.Scope
import PegCompiler.Resolved.Names
/-!
  Lowering of matchers to statements. The statements leave the cursor behind the
  match, or run the failing statements, which put the cursor back where they have
  to and leave the construct they belong to.

  A choice tries its alternatives in a counted loop whose last turn fails; a
  single alternative needs no loop. A repetition is an endless loop that is left
  on failure, at the upper bound, or after a turn that consumed nothing if there
  is no upper bound. A lookahead is a block that is left on failure.

  Correspondence (program ↔ here):
    `ToFortran` of `Matcher` and `Terminal`   ↔ `lowerMatcher`
    `call_rule`, `action_call`, `class_test`  ↔ `callRule`, `actionCall`, `classTest`
    `cursor`, `fail_unless`, `consumed_since` ↔ `cursor`, `failUnless`, `consumedSince`
    `lower_choice`, `lower_sequence`          ↔ `lowerChoice`, `lowerAlternative`
    `ToFortran` of `Element`                  ↔ `lowerElement`
    `ToFortran` of `Repeat`, `bound`          ↔ `repeatLoop`, `keepBound`, `boundExpr`
    `ToFortran` of `Lookahead`                ↔ `lowerMatcher`, its case `lookahead`
    `concat`                                  ↔ `concatVars`
-/

namespace PegCompiler.Lowering

open Resolved (ActionCall AltResult Bound Capture ClassTest RuleCall resultVar)
open Target (BinOp Expr Stmt)

/-! ## Names of the runtime module -/

/-- The text that is parsed. -/
def inputVar : String := "input"

/-- The place in the input, counted from 1. -/
def cursorVar : String := "cursor"

/-- Matches a given text. -/
def acceptString : String := "acceptString"

/-- Matches one of some characters. -/
def acceptSet : String := "acceptSet"

/-- Matches a character of a range. -/
def acceptRange : String := "acceptRange"

/-- Matches any character. -/
def acceptAny : String := "acceptPeriod"

/-- Matches the end of the input. -/
def acceptEnd : String := "acceptEOF"

/-! ## Statements that all constructs use -/

/-- The cursor. -/
def cursor : Expr := .var cursorVar

/-- Puts the cursor back. -/
def restore (var : String) : Stmt := .assign cursorVar (.var var)

/-- Keeps the cursor. -/
def keep (var : String) : Stmt := .assign var cursor

/-- Fails unless a condition holds. -/
def failUnless (test : Expr) (fail : List Stmt) : Stmt := .when (.not test) fail

/-- Fails unless a condition holds, or if it does. -/
def failOn (negated : Bool) (test : Expr) (fail : List Stmt) : Stmt :=
  if negated then .when test fail else failUnless test fail

/-- The input from a kept place up to the cursor. -/
def consumedSince (var : String) : Expr :=
  .substring inputVar (.var var) (.bin .sub cursor (.int 1))

/-- A call with variables as arguments. -/
def actionCall (call : ActionCall) : Expr :=
  .call call.function (call.args.map .var)

/-- Calls a rule, whose value goes into a variable. -/
def callRule (call : RuleCall) (into : String) (fail : List Stmt) : Except Failure Stmt :=
  if call.function.isEmpty then .error (.unresolvedCall call.rule)
  else .ok (failUnless (.call call.function [.var into]) fail)

/-- A test of a class. -/
def classTest : ClassTest → Expr
  | .set chars =>
    .call acceptSet [.array (chars.toList.map (fun c => .str (String.ofList [c])))]
  | .range bottom top =>
    .call acceptRange [.str (String.ofList [bottom]), .str (String.ofList [top])]

/-- The tests of a class, of which at most one may consume a character. -/
def classStmt (fail : List Stmt) : List ClassTest → Except Failure Stmt
  | [] => .error .emptyClass
  | [test] => .ok (failUnless (classTest test) fail)
  | test :: tests =>
    .ok (.cond (classTest test) [] (tests.map (fun t => (classTest t, []))) (some fail))

/-- Texts put together. -/
def concatVars : List String → Expr
  | [] => .str ""
  | var :: vars => vars.foldl (fun lhs v => .bin .concat lhs (.var v)) (.var var)

/-- The value of a row that started at a kept place. -/
def resultExpr (save : String) : AltResult → Expr
  | .consumed => consumedSince save
  | .capture var => .var var
  | .concat vars => concatVars vars
  | .action call => actionCall call

/-- A row of statements in a block of its own captures, if it has any. -/
def captureBlock (captures : List Capture) (body : List Stmt) : List Stmt :=
  if captures.isEmpty then body
  else [.block none (captures.map (fun c => ⟨c.type.spec, [], [c.var]⟩)) body]

/-- A bound; one in code was kept in a variable. -/
def boundExpr (kept : String) : Bound → Expr
  | .count n => .int n
  | .code _ => .var kept

/-- Keeps the value of a bound in code in a variable. -/
def keepBound (word : String) (k : Nat) : Option Bound → Lower (String × List Stmt)
  | some (.code expr) => do
    let var ← modifyGet (fun s => s.integer word k)
    pure (var, [.assign var (.verbatim expr)])
  | _ => pure ("", [])

/-- A new number. -/
def fresh : Lower Nat := modifyGet Scope.fresh

/-- A new integer variable. -/
def integer (word : String) (k : Nat) : Lower String := modifyGet (fun s => s.integer word k)

/-- Declares the variable of a group; that of a function is declared with it. -/
def declareResult : Option String → Lower Unit
  | some var => if var == resultVar then pure () else modify (fun s => s.declare var .text)
  | none => pure ()

/-- The number of a choice, and the variable that keeps the cursor in front of
it. -/
def enterChoice (result : Option String) : Lower (Nat × String) := do
  let k ← fresh
  let save ← integer "save" k
  declareResult result
  pure (k, save)

/-- The loop over several alternatives, each with its statements. Their numbers are
natural numbers, which the program keeps in 32 bits: the two agree below 2^32
alternatives in one choice. -/
def choiceLoop (label index save : String) (cases : List (List Stmt)) (fail : List Stmt) : Stmt :=
  .loop (some label) (some ⟨index, .int 0, .int cases.length⟩)
    [restore save,
      .select (.var index)
        (cases.zipIdx.map (fun (body, n) => (n, body ++ [.exit (some label)]))) (some fail)]

/-- The assignment of the value of a row. -/
def assignResult (save : String) (result : AltResult) : Option String → List Stmt
  | some var => [.assign var (resultExpr save result)]
  | none => []

/-- The turns of a repetition: the separator stands before every turn but the
first. -/
def repeatLoop (label count mark hi : String) (max : Option Bound) (separator : Option (List Stmt))
    (body : List Stmt) : Stmt :=
  let reached : List Stmt := match max with
    | some max => [.when (.bin .ge (.var count) (boundExpr hi max)) [.exit (some label)]]
    | none => []
  let separator : List Stmt := match separator with
    | some stmts => [.when (.bin .gt (.var count) (.int 0)) stmts]
    | none => []
  let progress : List Stmt := match max with
    | some _ => []
    | none => [.when (.bin .eq cursor (.var mark)) [.exit (some label)]]
  .loop (some label) none
    (reached ++ [keep mark] ++ separator ++ body ++
      [.assign count (.bin .add (.var count) (.int 1))] ++ progress)

/-- Whether the number of turns has to be checked behind the loop. -/
def needsCheck (min : Bound) : Bool :=
  min != .count 0

mutual

/-- The statements of a matcher. -/
def lowerMatcher (fail : List Stmt) (matcher : Resolved.Matcher) : Lower (List Stmt) :=
  match matcher with
  | .literal value => pure [failUnless (.call acceptString [.str value]) fail]
  | .class tests => do
    let stmt ← classStmt fail tests
    pure [stmt]
  | .anyChar => pure [failUnless (.call acceptAny []) fail]
  | .endOfInput => pure [failUnless (.call acceptEnd []) fail]
  | .call call => do
    let var ← modifyGet (fun s => s.scratch call.resultType)
    let stmt ← callRule call var fail
    pure [stmt]
  | .choice choice => do
    let (stmts, _) ← lowerChoice fail choice
    pure stmts
  | .repeat body min max separator => do
    let k ← fresh
    let label := numbered "rep" k
    let count ← integer "count" k
    let (lo, keepLo) ← keepBound "lo" k (some min)
    let (hi, keepHi) ← keepBound "hi" k max
    let save ← if needsCheck min then some <$> integer "save" k else pure none
    let mark ← integer "mark" k
    let stop := [restore mark, .exit (some label)]
    let separator ← lowerSeparator stop separator
    let body ← lowerMatcher stop body
    let loop := repeatLoop label count mark hi max separator body
    let check : List Stmt := match save with
      | some save =>
        [.when (.bin .lt (.var count) (boundExpr lo min)) (restore save :: fail)]
      | none => []
    pure (keepLo ++ keepHi ++ (save.map keep).toList ++ [.assign count (.int 0), loop] ++ check)
  | .lookahead negated body => do
    let k ← fresh
    let label := numbered "look" k
    let save ← integer "save" k
    let ok ← modifyGet (fun s => s.logical "ok" k)
    let body ← lowerMatcher [.exit (some label)] body
    pure [keep save, .assign ok (.logical false),
      .block (some label) [] (body ++ [.assign ok (.logical true)]),
      restore save, failOn negated (.var ok) fail]
  | .predicate negated call => pure [failOn negated (actionCall call) fail]

/-- The statements of a separator, if there is one. -/
def lowerSeparator (fail : List Stmt) (separator : Option Resolved.Matcher) :
    Lower (Option (List Stmt)) :=
  match separator with
  | none => pure none
  | some m => some <$> lowerMatcher fail m

/-- The statements of a choice, and the variable that keeps the cursor in front
of it; as in `choiceLoop`, the number of alternatives is not cut to 32 bits. -/
def lowerChoice (fail : List Stmt) (choice : Resolved.Choice) : Lower (List Stmt × String) :=
  match choice with
  | ⟨[a], result⟩ => do
    let (_, save) ← enterChoice result
    let stmts ← lowerAlternative save result (restore save :: fail) a
    pure (keep save :: stmts, save)
  | ⟨alternatives, result⟩ => do
    let (k, save) ← enterChoice result
    let label := numbered "alt" k
    let index ← integer "i" k
    let cases ← lowerAlternatives save result [.cycle (some label)] alternatives
    pure ([keep save, choiceLoop label index save cases fail], save)

/-- The statements of each of several alternatives. -/
def lowerAlternatives (save : String) (result : Option String) (fail : List Stmt)
    (alternatives : List Resolved.Alternative) : Lower (List (List Stmt)) :=
  match alternatives with
  | [] => pure []
  | a :: rest => do
    let a ← lowerAlternative save result fail a
    let rest ← lowerAlternatives save result fail rest
    pure (a :: rest)

/-- The statements of a row, with the assignment of its value behind them. -/
def lowerAlternative (save : String) (result : Option String) (fail : List Stmt)
    (alternative : Resolved.Alternative) : Lower (List Stmt) :=
  match alternative with
  | ⟨elements, value, type⟩ => do
    let body ← lowerElements fail elements
    pure (captureBlock (Resolved.Alternative.captures ⟨elements, value, type⟩)
      (body ++ assignResult save value result))

/-- The statements of elements one after another. -/
def lowerElements (fail : List Stmt) (elements : List Resolved.Element) : Lower (List Stmt) :=
  match elements with
  | [] => pure []
  | e :: rest => do
    let e ← lowerElement fail e
    let rest ← lowerElements fail rest
    pure (e ++ rest)

/-- The statements of an element. A captured call writes into the capture, a
captured group is copied from its variable, and anything else is captured by the
input it consumed. -/
def lowerElement (fail : List Stmt) (element : Resolved.Element) : Lower (List Stmt) :=
  match element with
  | ⟨matcher, none⟩ => lowerMatcher fail matcher
  | ⟨.call call, some ⟨var, _, .value⟩⟩ => do
    let stmt ← callRule call var fail
    pure [stmt]
  | ⟨.choice ⟨alternatives, some group⟩, some ⟨var, _, .value⟩⟩ => do
    let (stmts, _) ← lowerChoice fail ⟨alternatives, some group⟩
    pure (stmts ++ [.assign var (.var group)])
  | ⟨matcher, some capture⟩ => do
    let k ← fresh
    let mark ← integer "mark" k
    let stmts ← lowerMatcher fail matcher
    pure ([keep mark] ++ stmts ++ [.assign capture.var (consumedSince mark)])

end

end PegCompiler.Lowering
