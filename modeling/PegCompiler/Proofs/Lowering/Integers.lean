import PegCompiler.Proofs.Lowering.Modules
import PegCompiler.Proofs.Target.Spelling
/-
  The integer constants of generated code. Bounds of repetitions are compared with counters
  and the number of a choice's alternatives ends its loop; all other constants are small. So
  the constants of a function stay below a limit, unless the limit is small itself, exactly
  when the bounds and the numbers of alternatives in its rule do (`Rule.Fits`).
-/

namespace PegCompiler

namespace Target

/-! ## Constants of code -/

/-- The character codes that a character constant is written with. -/
def characterCodes (value : String) : List Nat :=
  (pieces value).filterMap fun
    | .quoted _ => none
    | .code n => some n

mutual

/-- The integers in an expression. -/
def Expr.integers : Expr → List Nat
  | .int n => [n]
  | .str value => characterCodes value
  | .call _ args => listIntegers args
  | .substring _ lo hi => lo.integers ++ hi.integers
  | .array items => listIntegers items
  | .not operand => operand.integers
  | .bin _ lhs rhs => lhs.integers ++ rhs.integers
  | .var _ | .logical _ | .verbatim _ => []

/-- Those in several expressions. -/
def listIntegers : List Expr → List Nat
  | [] => []
  | e :: rest => e.integers ++ listIntegers rest

end

mutual

/-- The integers in a statement: those in its expressions, and the values of cases. -/
def Stmt.integers : Stmt → List Nat
  | .assign _ rhs => rhs.integers
  | .cond test body elseIfs otherwise =>
    test.integers ++ stmtsIntegers body ++ branchesIntegers elseIfs ++ optionalIntegers otherwise
  | .loop _ none body => stmtsIntegers body
  | .loop _ (some range) body =>
    range.first.integers ++ range.last.integers ++ stmtsIntegers body
  | .select selector cases default =>
    selector.integers ++ casesIntegers cases ++ optionalIntegers default
  | .block _ _ body => stmtsIntegers body
  | .exit _ | .cycle _ | .return => []

/-- Those in statements. -/
def stmtsIntegers : List Stmt → List Nat
  | [] => []
  | stmt :: rest => stmt.integers ++ stmtsIntegers rest

/-- Those in further branches. -/
def branchesIntegers : List (Expr × List Stmt) → List Nat
  | [] => []
  | (test, body) :: rest => test.integers ++ stmtsIntegers body ++ branchesIntegers rest

/-- Those in statements that may be missing. -/
def optionalIntegers : Option (List Stmt) → List Nat
  | none => []
  | some body => stmtsIntegers body

/-- Those in cases. -/
def casesIntegers : List (Nat × List Stmt) → List Nat
  | [] => []
  | (value, body) :: rest => value :: stmtsIntegers body ++ casesIntegers rest

end

section
-- derives the equations of the recursion here, once: the many proofs that rewrite with them
-- would all wait for the first
attribute [local simp] Expr.integers Stmt.integers
end

/-- The integers in the statements of a function. -/
def Function.integers (f : Function) : List Nat :=
  match f.body with
  | .stmts body => stmtsIntegers body
  | .verbatim _ => []

/-- The integers in the statements of a module. -/
def Module.integers (m : Module) : List Nat :=
  m.functions.flatMap Function.integers

theorem stmtsIntegers_append (a b : List Stmt) :
    stmtsIntegers (a ++ b) = stmtsIntegers a ++ stmtsIntegers b := by
  induction a with
  | nil =>
    rw [stmtsIntegers]
    rfl
  | cons stmt rest ih =>
    rw [List.cons_append, stmtsIntegers, stmtsIntegers, ih, List.append_assoc]

theorem stmtsIntegers_single (stmt : Stmt) : stmtsIntegers [stmt] = stmt.integers := by
  rw [stmtsIntegers, stmtsIntegers, List.append_nil]

theorem integers_when (test : Expr) (body : List Stmt) :
    (Stmt.when test body).integers = test.integers ++ stmtsIntegers body := by
  rw [Stmt.when, Stmt.integers, branchesIntegers, optionalIntegers, List.append_nil,
    List.append_nil]

/-- Codes are those of control characters. -/
theorem characterCodes_lt (value : String) : ∀ n ∈ characterCodes value, n < 128 := by
  intro n hn
  obtain ⟨piece, hpiece, hcode⟩ := List.mem_filterMap.mp hn
  cases piece with
  | quoted chars => cases hcode
  | code m =>
    obtain rfl := Option.some.inj hcode
    rcases (proper_pieces value _ hpiece).2 with ⟨c, hc, rfl⟩ | ⟨-, h⟩
    · simp only [isControl, Bool.or_eq_true, decide_eq_true_eq, beq_iff_eq] at hc
      omega
    · cases h

end Target

namespace Lowering

open Resolved (Alternative AltResult Bound Choice ClassTest Element Matcher Parser Rule)
open Target (Expr Stmt branchesIntegers casesIntegers characterCodes listIntegers optionalIntegers
  stmtsIntegers)

/-! ## Numbers of a parser -/

section
variable (limit : Nat)

/-- All numbers are below a limit. -/
def Fit (ns : List Nat) : Prop :=
  ∀ n ∈ ns, n < limit

/-- A number as a bound is below a limit. -/
def BoundFits : Bound → Prop
  | .count n => n < limit
  | .code _ => True

mutual

/-- Bounds and numbers of alternatives in a matcher are below a limit. -/
def MatcherFits : Matcher → Prop
  | .choice c => ChoiceFits c
  | .repeat body min max separator =>
    BoundFits limit min ∧ (∀ b, max = some b → BoundFits limit b) ∧ MatcherFits body ∧
      SeparatorFits separator
  | .lookahead _ body => MatcherFits body
  | .literal _ | .class _ | .anyChar | .endOfInput | .call _ | .predicate _ _ => True

/-- Those in a separator, if there is one. -/
def SeparatorFits : Option Matcher → Prop
  | none => True
  | some m => MatcherFits m

/-- Those in a choice. -/
def ChoiceFits : Choice → Prop
  | ⟨alternatives, _⟩ => alternatives.length < limit ∧ AlternativesFit alternatives

/-- Those in alternatives. -/
def AlternativesFit : List Alternative → Prop
  | [] => True
  | a :: rest => AlternativeFits a ∧ AlternativesFit rest

/-- Those in a row. -/
def AlternativeFits : Alternative → Prop
  | ⟨elements, _, _⟩ => ElementsFit elements

/-- Those in elements. -/
def ElementsFit : List Element → Prop
  | [] => True
  | ⟨matcher, _⟩ :: rest => MatcherFits matcher ∧ ElementsFit rest

end

end

section
variable {limit : Nat}

theorem fit_append {a b : List Nat} : Fit limit (a ++ b) ↔ Fit limit a ∧ Fit limit b :=
  List.forall_mem_append

theorem fit_cons {n : Nat} {ns : List Nat} : Fit limit (n :: ns) ↔ n < limit ∧ Fit limit ns :=
  List.forall_mem_cons

theorem fit_nil : Fit limit [] :=
  List.forall_mem_nil _

/-! ## Statements around others -/

theorem integers_failUnless (test : Expr) (fail : List Stmt) :
    (failUnless test fail).integers = test.integers ++ stmtsIntegers fail := by
  rw [failUnless, Target.integers_when, Expr.integers]

theorem integers_failOn (negated : Bool) (test : Expr) (fail : List Stmt) :
    (failOn negated test fail).integers = test.integers ++ stmtsIntegers fail := by
  cases negated with
  | true => exact Target.integers_when test fail
  | false => exact integers_failUnless test fail

theorem integers_ruleCall (function into : String) :
    (Expr.call function [.var into]).integers = [] :=
  rfl

theorem listIntegers_vars : ∀ (args : List String), listIntegers (args.map .var) = []
  | [] => rfl
  | arg :: args => by
    rw [List.map_cons, listIntegers, listIntegers_vars args, Expr.integers]
    rfl

theorem integers_actionCall (call : Resolved.ActionCall) : (actionCall call).integers = [] := by
  rw [actionCall, Expr.integers, listIntegers_vars]

theorem integers_concatVars (vars : List String) : (concatVars vars).integers = [] := by
  have hfoldl : ∀ (vars : List String) (e : Expr),
      (vars.foldl (fun lhs v => .bin .concat lhs (.var v)) e).integers = e.integers := by
    intro vars
    induction vars with
    | nil => exact fun _ => rfl
    | cons v vars ih =>
      intro e
      rw [List.foldl_cons, ih, Expr.integers, Expr.integers, List.append_nil]
  cases vars with
  | nil => decide
  | cons v vars =>
    rw [concatVars, hfoldl, Expr.integers]

theorem integers_captureBlock (captures : List Resolved.Capture) (body : List Stmt) :
    stmtsIntegers (captureBlock captures body) = stmtsIntegers body := by
  unfold captureBlock
  split
  · rfl
  · rw [Target.stmtsIntegers_single, Stmt.integers]

/-- A lookahead has the integers of its body. -/
theorem integers_lookahead (label save ok : String) (negated : Bool) (body : List Stmt)
    {fail : List Stmt} (hfail : stmtsIntegers fail = []) :
    stmtsIntegers [keep save, .assign ok (.logical false),
      .block (some label) [] (body ++ [.assign ok (.logical true)]), restore save,
      failOn negated (.var ok) fail] = stmtsIntegers body := by
  have hkeep : (keep save).integers = [] := rfl
  have hrestore : (restore save).integers = [] := rfl
  simp only [stmtsIntegers, hkeep, hrestore, integers_failOn, hfail, Stmt.integers, Expr.integers,
    Target.stmtsIntegers_append, List.nil_append, List.append_nil]

theorem fit_boundExpr (kept : String) (b : Bound) :
    Fit limit (boundExpr kept b).integers ↔ BoundFits limit b := by
  cases b with
  | count n =>
    rw [boundExpr, Expr.integers, BoundFits, fit_cons]
    exact and_iff_left fit_nil
  | code expr =>
    rw [boundExpr, Expr.integers, BoundFits]
    exact iff_true_intro fit_nil

theorem fit_limit (k : Nat) (max : Option Bound) :
    Fit limit (stmtsIntegers (limitStmts k max)) ↔ ∀ b, max = some b → BoundFits limit b := by
  cases max with
  | none => exact iff_of_true fit_nil fun _ hb => nomatch hb
  | some b =>
    rw [limitStmts, Target.stmtsIntegers_single, Target.integers_when, Expr.integers, Expr.integers,
      List.nil_append, Target.stmtsIntegers_single, Stmt.integers, List.append_nil,
      fit_boundExpr]
    exact ⟨fun h c hc => Option.some.inj hc ▸ h, fun h => h b rfl⟩

variable (hlimit : 128 ≤ limit)
include hlimit

theorem fit_small {n : Nat} (h : n < 128) : n < limit := by
  omega

theorem fit_codes (value : String) : Fit limit (characterCodes value) := fun n hn =>
  fit_small hlimit (Target.characterCodes_lt value n hn)

theorem fit_strings : ∀ (values : List String), Fit limit (listIntegers (values.map .str))
  | [] => fit_nil
  | value :: values => by
    rw [List.map_cons, listIntegers, Expr.integers]
    exact fit_append.mpr ⟨fit_codes hlimit value, fit_strings values⟩

theorem fit_classTest (test : ClassTest) : Fit limit (classTest test).integers := by
  cases test with
  | set chars =>
    have hchars : chars.toList.map (fun c => Expr.str (String.ofList [c])) =
        (chars.toList.map fun c => String.ofList [c]).map .str := by
      rw [List.map_map]
      rfl
    rw [classTest, Expr.integers, listIntegers, Expr.integers, hchars]
    exact fit_append.mpr ⟨fit_strings hlimit _, fit_nil⟩
  | range bottom top =>
    exact fit_strings hlimit [String.ofList [bottom], String.ofList [top]]

theorem fit_class {tests : List ClassTest} {fail : List Stmt} {stmt : Stmt}
    (h : classStmt fail tests = .ok stmt) (hfail : stmtsIntegers fail = []) :
    Fit limit stmt.integers := by
  obtain ⟨test, -, rfl⟩ | ⟨test, rest, -, rfl⟩ := classStmt_cases h
  · rw [integers_failUnless, hfail, List.append_nil]
    exact fit_classTest hlimit test
  · have hbranches : ∀ (ts : List ClassTest),
        Fit limit (branchesIntegers (ts.map fun t => (classTest t, []))) := by
      intro ts
      induction ts with
      | nil => exact fit_nil
      | cons t ts ih =>
        rw [List.map_cons, branchesIntegers, stmtsIntegers, List.append_nil]
        exact fit_append.mpr ⟨fit_classTest hlimit t, ih⟩
    rw [Stmt.integers, stmtsIntegers, optionalIntegers, hfail, List.append_nil, List.append_nil]
    exact fit_append.mpr ⟨fit_classTest hlimit test, hbranches rest⟩

theorem fit_consumedSince (save : String) : Fit limit (consumedSince save).integers := by
  have hone : (consumedSince save).integers = [1] := rfl
  rw [hone]
  exact fit_cons.mpr ⟨fit_small hlimit (by decide), fit_nil⟩

theorem fit_assignResult (save : String) (value : AltResult) (result : Option String) :
    Fit limit (stmtsIntegers (assignResult save value result)) := by
  cases result with
  | none => exact fit_nil
  | some var =>
    rw [assignResult, Target.stmtsIntegers_single, Stmt.integers]
    cases value with
    | consumed => exact fit_consumedSince hlimit save
    | capture var => exact fit_nil
    | concat vars =>
      rw [resultExpr, integers_concatVars]
      exact fit_nil
    | action call =>
      rw [resultExpr, integers_actionCall]
      exact fit_nil

/-! ## Repetitions and choices -/

/-- The check behind the turns has the lower bound; without a check that is zero. -/
theorem fit_check (k : Nat) (min : Bound) {fail : List Stmt} (hfail : stmtsIntegers fail = []) :
    Fit limit (stmtsIntegers (checkStmts k min fail)) ↔ BoundFits limit min := by
  unfold checkStmts
  split
  next =>
    have hrestore : (restore (numbered "save" k)).integers = [] := rfl
    rw [Target.stmtsIntegers_single, Target.integers_when, Expr.integers, Expr.integers,
      List.nil_append, stmtsIntegers, hrestore, hfail, List.append_nil, List.append_nil,
      fit_boundExpr]
  next hcheck =>
    have hzero : min = .count 0 := by simpa [needsCheck] using hcheck
    rw [hzero]
    exact iff_of_true fit_nil (fit_small hlimit (by decide))

theorem fit_loop (k : Nat) (max : Option Bound) (between : Option (List Stmt)) (body : List Stmt) :
    Fit limit (repeatLoop (numbered "rep" k) (numbered "count" k) (numbered "mark" k)
      (boundKept "hi" k max).1 max between body).integers ↔
      (∀ b, max = some b → BoundFits limit b) ∧ Fit limit (optionalIntegers between) ∧
        Fit limit (stmtsIntegers body) := by
  have hzero : Fit limit [0] := fit_cons.mpr ⟨fit_small hlimit (by decide), fit_nil⟩
  have hone : Fit limit [1] := fit_cons.mpr ⟨fit_small hlimit (by decide), fit_nil⟩
  have hmark : (keep (numbered "mark" k)).integers = [] := rfl
  have hcount : (Stmt.assign (numbered "count" k)
      (.bin .add (.var (numbered "count" k)) (.int 1))).integers = [1] := rfl
  have hprogress : stmtsIntegers (progressStmts k max) = [] := by
    cases max <;> rfl
  have hbetween : Fit limit (stmtsIntegers (betweenStmts k between)) ↔
      Fit limit (optionalIntegers between) := by
    cases between with
    | none => exact Iff.rfl
    | some stmts =>
      rw [betweenStmts, Target.stmtsIntegers_single, Target.integers_when, Expr.integers,
        Expr.integers, Expr.integers, List.nil_append, fit_append, optionalIntegers]
      exact and_iff_right hzero
  rw [repeatLoop_eq, Stmt.integers, Target.stmtsIntegers_append, countedTurn, stmtsIntegers, hmark,
    List.nil_append, Target.stmtsIntegers_append, Target.stmtsIntegers_append, stmtsIntegers, hcount,
    hprogress, List.append_nil, fit_append, fit_append, fit_append, fit_limit, hbetween]
  exact and_congr_right fun _ => and_iff_left hone

theorem fit_repeat (k : Nat) (min : Bound) (max : Option Bound) (between : Option (List Stmt))
    (body : List Stmt) {fail : List Stmt} (hfail : stmtsIntegers fail = []) :
    Fit limit (stmtsIntegers ((boundKept "lo" k (some min)).2 ++ (boundKept "hi" k max).2 ++
      savedStmts k min ++ [.assign (numbered "count" k) (.int 0),
        repeatLoop (numbered "rep" k) (numbered "count" k) (numbered "mark" k)
          (boundKept "hi" k max).1 max between body] ++ checkStmts k min fail)) ↔
      BoundFits limit min ∧ (∀ b, max = some b → BoundFits limit b) ∧
        Fit limit (optionalIntegers between) ∧ Fit limit (stmtsIntegers body) := by
  have hkept (w : String) (b : Option Bound) : stmtsIntegers (boundKept w k b).2 = [] := by
    unfold boundKept
    split <;> rfl
  have hsaved : stmtsIntegers (savedStmts k min) = [] := by
    unfold savedStmts
    split <;> rfl
  have hzero : Fit limit [0] := fit_cons.mpr ⟨fit_small hlimit (by decide), fit_nil⟩
  have hstart : (Stmt.assign (numbered "count" k) (.int 0)).integers = [0] := rfl
  rw [Target.stmtsIntegers_append, Target.stmtsIntegers_append, Target.stmtsIntegers_append,
    Target.stmtsIntegers_append, hkept, hkept, hsaved, List.nil_append, List.nil_append,
    List.nil_append, stmtsIntegers, hstart, Target.stmtsIntegers_single, fit_append, fit_append,
    fit_check hlimit k min hfail, fit_loop hlimit, and_comm]
  exact and_congr_right fun _ => and_iff_right hzero

omit hlimit in
/-- The values of cases are below their number. -/
theorem fit_cases (label : String) : ∀ (rows : List (List Stmt)) (n : Nat),
    n + rows.length ≤ limit →
    (Fit limit (casesIntegers ((rows.zipIdx n).map fun (body, n) => (n, body ++ [.exit (some label)])))
      ↔ Fit limit (rows.flatMap stmtsIntegers))
  | [] => fun _ _ => Iff.rfl
  | row :: rows => fun n h => by
    rw [List.length_cons] at h
    have hexit : stmtsIntegers [.exit (some label)] = [] := rfl
    have hvalue : n < limit := by omega
    rw [List.zipIdx_cons, List.map_cons, casesIntegers, List.flatMap_cons, List.cons_append, fit_cons,
      fit_append, fit_append, Target.stmtsIntegers_append, hexit, List.append_nil,
      fit_cases label rows (n + 1) (by omega)]
    exact and_iff_right hvalue

theorem fit_choiceLoop (label index save : String) (rows : List (List Stmt)) {fail : List Stmt}
    (hfail : stmtsIntegers fail = []) :
    Fit limit (choiceLoop label index save rows fail).integers ↔
      rows.length < limit ∧ Fit limit (rows.flatMap stmtsIntegers) := by
  have hrestore : (restore save).integers = [] := rfl
  have hindex : (Expr.var index).integers = [] := rfl
  have hints : (choiceLoop label index save rows fail).integers = 0 :: rows.length ::
      casesIntegers (rows.zipIdx.map fun (body, n) => (n, body ++ [.exit (some label)])) := by
    rw [choiceLoop, Stmt.integers, stmtsIntegers, hrestore, Target.stmtsIntegers_single,
      Stmt.integers, hindex, optionalIntegers, hfail, List.append_nil]
    rfl
  rw [hints, fit_cons, fit_cons, and_iff_right (fit_small hlimit (by decide))]
  refine and_congr_right fun hlength => fit_cases label rows 0 ?_
  omega

end

/-! ## Every lowering -/

section
variable {limit : Nat}

mutual

theorem fit_matcher (hlimit : 128 ≤ limit) : ∀ (m : Matcher) ⦃fail stmts : List Stmt⦄
    ⦃sc sc' : Scope⦄, stmtsIntegers fail = [] → Yields (lowerMatcher fail m) sc stmts sc' →
      (Fit limit (stmtsIntegers stmts) ↔ MatcherFits limit m)
  | .literal value => fun _ _ _ _ hfail h => by
    obtain ⟨rfl, rfl⟩ := yields_literal h
    rw [Target.stmtsIntegers_single, integers_failUnless, hfail, List.append_nil, MatcherFits]
    exact iff_true_intro (fit_strings hlimit [value])
  | .class tests => fun _ _ _ _ hfail h => by
    obtain ⟨rfl, stmt, hclass, rfl⟩ := yields_class h
    rw [Target.stmtsIntegers_single, MatcherFits]
    exact iff_true_intro (fit_class hlimit hclass hfail)
  | .anyChar => fun _ _ _ _ hfail h => by
    obtain ⟨rfl, rfl⟩ := yields_anyChar h
    rw [Target.stmtsIntegers_single, integers_failUnless, hfail, List.append_nil, MatcherFits]
    exact iff_true_intro fit_nil
  | .endOfInput => fun _ _ _ _ hfail h => by
    obtain ⟨rfl, rfl⟩ := yields_endOfInput h
    rw [Target.stmtsIntegers_single, integers_failUnless, hfail, List.append_nil, MatcherFits]
    exact iff_true_intro fit_nil
  | .call call => fun _ _ _ _ hfail h => by
    obtain ⟨rfl, rfl⟩ := yields_call h
    rw [Target.stmtsIntegers_single, integers_failUnless, integers_ruleCall, hfail, MatcherFits]
    exact iff_true_intro fit_nil
  | .choice c => fun _ _ _ _ hfail h => by
    obtain ⟨entry, hchoice⟩ := yields_choice h
    rw [MatcherFits]
    exact fit_choice hlimit c hfail hchoice
  | .repeat m min max separator => fun _ _ _ _ hfail h => by
    obtain ⟨_, between, body, hbetween, hbody, rfl⟩ := yields_repeat h
    rw [fit_repeat hlimit _ min max between body hfail, fit_separator hlimit separator rfl hbetween,
      fit_matcher hlimit m rfl hbody, MatcherFits, and_comm (a := MatcherFits limit m)]
  | .lookahead negated m => fun _ _ _ _ hfail h => by
    obtain ⟨body, hbody, rfl⟩ := yields_lookahead h
    rw [integers_lookahead _ _ _ negated body hfail, MatcherFits]
    exact fit_matcher hlimit m rfl hbody
  | .predicate negated call => fun _ _ _ _ hfail h => by
    obtain ⟨rfl, rfl⟩ := yields_predicate h
    rw [Target.stmtsIntegers_single, integers_failOn, integers_actionCall, hfail, MatcherFits]
    exact iff_true_intro fit_nil

theorem fit_separator (hlimit : 128 ≤ limit) : ∀ (separator : Option Matcher) ⦃fail : List Stmt⦄
    ⦃between : Option (List Stmt)⦄ ⦃sc sc' : Scope⦄, stmtsIntegers fail = [] →
    Yields (lowerSeparator fail separator) sc between sc' →
      (Fit limit (optionalIntegers between) ↔ SeparatorFits limit separator)
  | none => fun _ _ _ _ _ h => by
    obtain ⟨rfl, rfl⟩ := yields_noSeparator h
    rw [SeparatorFits]
    exact iff_true_intro fit_nil
  | some m => fun _ _ _ _ hfail h => by
    obtain ⟨stmts, hstmts, rfl⟩ := yields_separator h
    rw [SeparatorFits]
    exact fit_matcher hlimit m hfail hstmts

theorem fit_choice (hlimit : 128 ≤ limit) : ∀ (c : Choice) ⦃fail : List Stmt⦄
    ⦃r : List Stmt × String⦄ ⦃sc sc' : Scope⦄, stmtsIntegers fail = [] →
    Yields (lowerChoice fail c) sc r sc' →
      (Fit limit (stmtsIntegers r.1) ↔ ChoiceFits limit c)
  | ⟨as, result⟩ => fun fail _ sc _ hfail h => by
    have hkeep : (keep (numbered "save" (sc.counter + 1))).integers = [] := rfl
    have halternatives := fit_alternatives hlimit as
    rw [ChoiceFits]
    by_cases hsingle : ∃ a, as = [a]
    -- one alternative is not counted, and one is below every limit
    · obtain ⟨a, rfl⟩ := hsingle
      obtain ⟨_, row, -, hrow, rfl⟩ := yields_oneRow h
      have hback : stmtsIntegers (restore (numbered "save" (sc.counter + 1)) :: fail) = [] := by
        rw [stmtsIntegers, hfail]
        rfl
      obtain ⟨-, hrows⟩ := halternatives hback (yields_singleton hrow)
      rw [List.flatMap_cons, List.flatMap_nil, List.append_nil] at hrows
      rw [stmtsIntegers, hkeep, List.nil_append, hrows]
      exact (and_iff_right (fit_small hlimit (n := 1) (by decide))).symm
    · obtain ⟨_, rows, -, hyields, rfl⟩ := yields_rows (fun a ha => hsingle ⟨a, ha⟩) h
      obtain ⟨hlength, hrows⟩ := halternatives rfl hyields
      rw [stmtsIntegers, hkeep, List.nil_append, Target.stmtsIntegers_single,
        fit_choiceLoop hlimit _ _ _ rows hfail, hlength, hrows]

/-- There is a row of statements for each alternative. -/
theorem fit_alternatives (hlimit : 128 ≤ limit) : ∀ (as : List Alternative) ⦃fail : List Stmt⦄
    ⦃own : String⦄ ⦃result : Option String⦄ ⦃rows : List (List Stmt)⦄ ⦃sc sc' : Scope⦄,
    stmtsIntegers fail = [] →
    Yields (lowerAlternatives own result fail as) sc rows sc' →
      rows.length = as.length ∧
        (Fit limit (rows.flatMap stmtsIntegers) ↔ AlternativesFit limit as)
  | [] => fun _ _ _ _ _ _ _ h => by
    obtain ⟨rfl, rfl⟩ := yields_noAlternatives h
    rw [AlternativesFit]
    exact ⟨rfl, iff_true_intro fit_nil⟩
  | a :: rest => fun _ _ _ _ _ _ hfail h => by
    obtain ⟨_, row, rows, hrow, hrows, rfl⟩ := yields_alternatives h
    obtain ⟨hlength, hrest⟩ := fit_alternatives hlimit rest hfail hrows
    rw [AlternativesFit, List.flatMap_cons, fit_append, fit_alternative hlimit a hfail hrow, hrest]
    exact ⟨congrArg Nat.succ hlength, Iff.rfl⟩

theorem fit_alternative (hlimit : 128 ≤ limit) : ∀ (a : Alternative) ⦃fail row : List Stmt⦄
    ⦃own : String⦄ ⦃result : Option String⦄ ⦃sc sc' : Scope⦄, stmtsIntegers fail = [] →
    Yields (lowerAlternative own result fail a) sc row sc' →
      (Fit limit (stmtsIntegers row) ↔ AlternativeFits limit a)
  | ⟨elements, value, type⟩ => fun _ _ own result _ _ hfail h => by
    obtain ⟨body, hbody, rfl⟩ := yields_alternative h
    rw [integers_captureBlock, Target.stmtsIntegers_append, fit_append, AlternativeFits,
      fit_elements hlimit elements hfail hbody]
    exact and_iff_left (fit_assignResult hlimit own value result)

theorem fit_elements (hlimit : 128 ≤ limit) : ∀ (es : List Element) ⦃fail stmts : List Stmt⦄
    ⦃sc sc' : Scope⦄, stmtsIntegers fail = [] → Yields (lowerElements fail es) sc stmts sc' →
      (Fit limit (stmtsIntegers stmts) ↔ ElementsFit limit es)
  | [] => fun _ _ _ _ _ h => by
    obtain ⟨rfl, rfl⟩ := yields_noElements h
    rw [ElementsFit]
    exact iff_true_intro fit_nil
  | ⟨m, capture⟩ :: rest => fun _ _ _ _ hfail h => by
    obtain ⟨_, first, others, hfirst, hothers, rfl⟩ := yields_elements h
    rw [Target.stmtsIntegers_append, fit_append, ElementsFit, fit_elements hlimit rest hfail hothers]
    refine and_congr_left fun _ => ?_
    have hmatcher := fit_matcher hlimit m
    cases capture with
    | none => exact hmatcher hfail (yields_uncaptured hfirst)
    | some capture =>
      rcases yields_captured hfirst with ⟨call, rfl, rfl, rfl⟩ |
        ⟨c, group, entry, body, rfl, hchoice, rfl⟩ | ⟨body, hbody, rfl⟩
      · rw [Target.stmtsIntegers_single, integers_failUnless, integers_ruleCall, hfail, MatcherFits]
        exact iff_true_intro fit_nil
      · have hcopy : stmtsIntegers [.assign capture.var (.var group)] = [] := rfl
        rw [Target.stmtsIntegers_append, hcopy, List.append_nil]
        exact hmatcher hfail (yields_of_choice hchoice)
      · have hkeep (k : Nat) : stmtsIntegers [keep (numbered "mark" k)] = [] := rfl
        rw [Target.stmtsIntegers_append, Target.stmtsIntegers_append, hkeep, List.nil_append,
          Target.stmtsIntegers_single, Stmt.integers, fit_append, hmatcher hfail hbody]
        exact and_iff_left (fit_consumedSince hlimit _)

end

end

/-! ## Functions and modules -/

section
variable {limit : Nat}

theorem fit_rule (hlimit : 128 ≤ limit) {rule : Rule} {f : Target.Function}
    (h : lowerRule rule = .ok f) : Fit limit f.integers ↔ ChoiceFits limit rule.body := by
  obtain ⟨choice, entry, scope, hyields, rfl⟩ := yields_rule h
  have haccept (b : Bool) : stmtsIntegers [.assign acceptVar (.logical b)] = [] := rfl
  have hend : stmtsIntegers (endTest rule.start entry) = [] := by
    unfold endTest
    split
    · rfl
    · rfl
  have hints : stmtsIntegers (ruleStmts rule.start choice entry) = stmtsIntegers choice := by
    have hfirst : (Stmt.assign acceptVar (.logical false)).integers = [] := rfl
    rw [ruleStmts, stmtsIntegers, hfirst, List.nil_append, Target.stmtsIntegers_append,
      Target.stmtsIntegers_append, hend, haccept, List.append_nil, List.append_nil]
  show Fit limit (stmtsIntegers (ruleStmts rule.start choice entry)) ↔ _
  rw [hints]
  exact fit_choice hlimit rule.body rfl hyields

/-- The integers of a module are those of its rules: extracted functions are code. -/
theorem fit_module (hlimit : 128 ≤ limit) {p : Parser} {o : Options} {m : Target.Module}
    (h : lower p o = .ok m) :
    Fit limit m.integers ↔ ∀ rule ∈ p.rules, ChoiceFits limit rule.body := by
  obtain ⟨fs, hlowered⟩ := lowered_of_lower h
  unfold Target.Module.integers
  constructor
  · intro hfit rule hrule
    obtain ⟨f, hf, hlower⟩ := exists_right hlowered.rules hrule
    refine (fit_rule hlimit hlower).mp fun n hn => hfit n ?_
    exact List.mem_flatMap.mpr ⟨f, hlowered.mem_functions hf, hn⟩
  · intro hrules n hn
    obtain ⟨f, hf, hn⟩ := List.mem_flatMap.mp hn
    rcases hlowered.function_cases hf with ⟨rule, hrule, hlower⟩ | ⟨a, -, rfl⟩
    · exact (fit_rule hlimit hlower).mpr (hrules rule hrule) n hn
    · cases hn

end

end Lowering

end PegCompiler
