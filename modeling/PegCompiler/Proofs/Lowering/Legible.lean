import PegCompiler.Proofs.Lowering.Identifiers
import PegCompiler.Proofs.Target.Legible
/-
  Lowered statements can be read back. The induction is on the matcher: its statements are
  legible if the failing statements are (`legible_matcher`), and all names in the scope
  behind it are spelled like names (`Spells`), which only the variable for values that
  nobody reads makes use of. The code of bounds is the only code in the statements of
  rules, so what is known of it is known of all code in them.
-/

namespace PegCompiler

namespace Resolved

/-! ## The code of bounds -/

/-- The code of a bound. -/
def Bound.codes : Bound → List String
  | .count _ => []
  | .code expr => [expr]

mutual

/-- The code of the bounds in a matcher. -/
def Matcher.boundCodes : Matcher → List String
  | .choice c => c.boundCodes
  | .repeat body min max separator =>
    (min :: max.toList).flatMap Bound.codes ++
      (separatorBoundCodes separator ++ body.boundCodes)
  | .lookahead _ body => body.boundCodes
  | .literal _ | .class _ | .anyChar | .endOfInput | .call _ | .predicate _ _ => []

/-- That of the bounds in a separator, if there is one. -/
def separatorBoundCodes : Option Matcher → List String
  | none => []
  | some m => m.boundCodes

/-- That of the bounds in a choice. -/
def Choice.boundCodes : Choice → List String
  | ⟨alternatives, _⟩ => alternativesBoundCodes alternatives

/-- That of the bounds in alternatives. -/
def alternativesBoundCodes : List Alternative → List String
  | [] => []
  | a :: rest => a.boundCodes ++ alternativesBoundCodes rest

/-- That of the bounds in a row. -/
def Alternative.boundCodes : Alternative → List String
  | ⟨elements, _, _⟩ => elementsBoundCodes elements

/-- That of the bounds in elements. -/
def elementsBoundCodes : List Element → List String
  | [] => []
  | e :: rest => e.boundCodes ++ elementsBoundCodes rest

/-- That of the bounds in an element. -/
def Element.boundCodes : Element → List String
  | ⟨matcher, _⟩ => matcher.boundCodes

end

/-- The code of all bounds of a parser. -/
def Parser.boundCodes (p : Parser) : List String :=
  p.rules.flatMap fun rule => rule.body.boundCodes

end Resolved

namespace Lowering

open Naming (Spelled)
open Resolved (ActionCall AltResult Alternative Bound Capture Choice ClassTest Element Matcher
  Parser Rule RuleCall alternativesTyped elementsTyped isIdentifier resultVar separatorTyped)
open Target (BinOp Expr Function IsName Stmt casesLegible characterCall exprsLegible isNameChar
  stmtsLegible)

/-! ## Names -/

theorem isName_of_spelled {name : String} (h : Spelled name) : IsName name := by
  obtain ⟨⟨n, hsmall⟩, c, cs, hname, hc⟩ := h
  refine ⟨c, cs, hname, hc, fun d hd => ?_⟩
  have hd : Naming.isSmall d = true := hsmall.chars d (hname ▸ List.mem_cons_of_mem c hd)
  rw [Naming.isSmall, Bool.or_eq_true, Bool.or_eq_true] at hd
  rcases hd with (hlower | hdigit) | hmark
  · simp [isNameChar, Char.isAlphanum, Char.isAlpha, hlower]
  · simp [isNameChar, Char.isAlphanum, hdigit]
  · simp [isNameChar, eq_of_beq hmark]

theorem isName_of_isIdentifier {name : String} (h : isIdentifier name = true) : IsName name := by
  unfold isIdentifier at h
  split at h
  · exact nomatch h
  · next c cs hname =>
    simp only [Bool.and_eq_true, List.all_eq_true] at h
    exact ⟨c, cs, hname, h.1.1, h.2⟩

theorem isName_numbered {w : String} (hw : w ∈ localWords) (k : Nat) : IsName (numbered w k) :=
  isName_of_spelled (spelled_numbered hw k)

theorem isName_captureVar (i q : Nat) : IsName (Resolved.captureVar i q) :=
  isName_of_spelled (Naming.spelled_captureVar i q)

theorem isName_groupVar (path : List (Nat × Nat)) : IsName (Resolved.groupVar path) :=
  isName_of_spelled (Naming.spelled_groupVar path)

theorem isName_shared : IsName inputVar ∧ IsName cursorVar ∧ IsName resultVar ∧ IsName acceptVar :=
  ⟨isName_of_isIdentifier (by decide), isName_of_isIdentifier (by decide),
    isName_of_isIdentifier (by decide), isName_of_isIdentifier (by decide)⟩

/-- A name that can be called: it is not the one that stands for a character. -/
structure Callable (name : String) : Prop where
  named : IsName name
  other : name ≠ characterCall

theorem callable_primitive : ∀ name ∈ [acceptString, acceptSet, acceptRange, acceptAny, acceptEnd],
    Callable name := by
  have h : ∀ name ∈ [acceptString, acceptSet, acceptRange, acceptAny, acceptEnd],
      isIdentifier name = true ∧ name ≠ characterCall := by decide
  exact fun name hname => ⟨isName_of_isIdentifier (h name hname).1, (h name hname).2⟩

/-- All names in a scope are spelled like names. -/
def Spells (sc : Scope) : Prop :=
  ∀ name ∈ sc.names, IsName name

namespace Spells

variable {sc : Scope}

theorem empty : Spells {} :=
  fun _ h => nomatch h

theorem integer (h : Spells sc) {w : String} (hw : w ∈ localWords) (k : Nat) :
    Spells (sc.integer w k).2 := fun name hname => by
  rcases List.mem_cons.mp ((names_integer sc w k).mem_iff.mp hname) with rfl | hname
  · exact isName_numbered hw k
  · exact h name hname

theorem logical (h : Spells sc) {w : String} (hw : w ∈ localWords) (k : Nat) :
    Spells (sc.logical w k).2 := fun name hname => by
  rcases List.mem_cons.mp ((names_logical sc w k).mem_iff.mp hname) with rfl | hname
  · exact isName_numbered hw k
  · exact h name hname

/-- One more variable with a type of its own. -/
theorem other (h : Spells sc) {v : String × Resolved.ValueType} (hv : IsName v.1) {t : Scope}
    (hints : t.integers = sc.integers) (hlogicals : t.logicals = sc.logicals)
    (hothers : t.others = sc.others ++ [v]) : Spells t := fun name hname => by
  rcases List.mem_cons.mp ((names_other sc v hints hlogicals hothers).mem_iff.mp hname) with
    rfl | hname
  · exact hv
  · exact h name hname

theorem declare (h : Spells sc) {name : String} (hname : IsName name) (type : Resolved.ValueType) :
    Spells (sc.declare name type) := by
  unfold Scope.declare
  split
  · exact h
  · exact h.other (v := (name, type)) hname rfl rfl rfl

theorem scratch (h : Spells sc) (type : Resolved.ValueType) : Spells (sc.scratch type).2 := by
  unfold Scope.scratch
  split
  · exact h
  · have hfresh : Spells sc.fresh.2 := h
    exact hfresh.other (v := (numbered "scratch" (sc.counter + 1), type))
      (isName_numbered (by decide) _) rfl rfl rfl

theorem bound (h : Spells sc) {w : String} (hw : w ∈ localWords) (k : Nat) (b : Option Bound) :
    Spells (boundScope w k b sc) := by
  unfold boundScope
  split
  · exact h.integer hw k
  · exact h

theorem repeat' (h : Spells sc) (min : Bound) (max : Option Bound) :
    Spells (repeatScope sc min max) := by
  have hfresh : Spells sc.fresh.2 := h
  have hcount := hfresh.integer (w := "count") (by decide) (sc.counter + 1)
  have hbounds := (hcount.bound (w := "lo") (by decide) (sc.counter + 1) (some min)).bound
    (w := "hi") (by decide) (sc.counter + 1) max
  unfold repeatScope savedScope
  split
  · exact (hbounds.integer (by decide) _).integer (by decide) _
  · exact hbounds.integer (by decide) _

/-- The variable of a group is spelled like a name, wherever it is declared. -/
theorem enterChoice (h : Spells sc) {result : Option String} (hresult : ∀ var ∈ result, IsName var)
    {r : Nat × String} {sc' : Scope} (henter : Yields (enterChoice result) sc r sc') :
    Spells sc' := by
  obtain ⟨-, -, hdeclare⟩ := yields_enter henter
  have hfresh : Spells sc.fresh.2 := h
  have hsave := hfresh.integer (w := "save") (by decide) (sc.counter + 1)
  rcases yields_declareResult hdeclare with ⟨-, rfl⟩ | ⟨var, rfl, -, rfl⟩
  · exact hsave
  · exact hsave.declare (hresult var rfl) _

end Spells

/-! ## Statements that all constructs use -/

section
variable {code : String → Prop} {fail : List Stmt} {sc sc' : Scope}

theorem legible_vars {names : List String} (h : ∀ name ∈ names, IsName name) :
    exprsLegible code (names.map .var) := by
  refine Target.exprsLegible_iff.mpr (List.forall_mem_map.mpr fun name hname => ?_)
  rw [Expr.Legible]
  exact h name hname

theorem legible_var {name : String} (h : IsName name) : (Expr.var name).Legible code := by
  rw [Expr.Legible]
  exact h

theorem legible_int (n : Nat) : (Expr.int n).Legible code := by
  rw [Expr.Legible]
  trivial

theorem legible_call {name : String} (h : Callable name) {args : List Expr}
    (hargs : exprsLegible code args) : (Expr.call name args).Legible code := by
  rw [Expr.Legible]
  exact ⟨h.named, h.other, hargs⟩

theorem legible_assign {lhs : String} {rhs : Expr} (hlhs : IsName lhs) (hrhs : rhs.Legible code) :
    (Stmt.assign lhs rhs).Legible code := by
  rw [Stmt.Legible]
  exact ⟨hlhs, hrhs⟩

theorem legible_keep {var : String} (h : IsName var) : (keep var).Legible code :=
  legible_assign h (legible_var isName_shared.2.1)

theorem legible_restore {var : String} (h : IsName var) : (restore var).Legible code :=
  legible_assign isName_shared.2.1 (legible_var h)

theorem legible_exit {label : String} (h : IsName label) :
    (Stmt.exit (some label)).Legible code := by
  rw [Stmt.Legible]
  rintro _ ⟨⟩
  exact h

theorem legible_when {test : Expr} (htest : test.Legible code) {body : List Stmt}
    (hbody : stmtsLegible code body) : (Stmt.when test body).Legible code := by
  rw [Stmt.when, Stmt.Legible, Target.branchesLegible, Target.optionalLegible]
  exact ⟨htest, hbody, trivial, trivial⟩

theorem legible_failOn (negated : Bool) {test : Expr} (htest : test.Legible code)
    (hconstant : test.isConstant = false) (hfail : stmtsLegible code fail) :
    (failOn negated test fail).Legible code := by
  cases negated with
  | true => exact legible_when htest hfail
  | false =>
    refine legible_when ?_ hfail
    rw [Expr.Legible]
    exact ⟨hconstant, htest⟩

/-- A comparison of two variables or numbers. -/
theorem legible_compare {op : BinOp} {lhs rhs : Expr}
    (hlhs : lhs.Legible code ∧ lhs.isConstant = false ∧ lhs.isRelation = false)
    (hrhs : rhs.Legible code ∧ rhs.isConstant = false) : (Expr.bin op lhs rhs).Legible code := by
  rw [Expr.Legible]
  exact ⟨⟨hlhs.2.1, hlhs.1⟩, ⟨hrhs.2, hrhs.1⟩, fun _ => hlhs.2.2⟩

theorem legible_ruleCall {function : String} (h : Callable function) {into : String}
    (hinto : IsName into) (hfail : stmtsLegible code fail) :
    (failUnless (.call function [.var into]) fail).Legible code := by
  have hargs : exprsLegible code [.var into] := ⟨legible_var hinto, trivial⟩
  exact legible_failOn false (legible_call h hargs) rfl hfail

theorem legible_classTest (test : ClassTest) : (classTest test).Legible code := by
  have hstr (s : String) : (Expr.str s).Legible code := by
    rw [Expr.Legible]
    trivial
  cases test with
  | set chars =>
    refine legible_call (callable_primitive _ (by decide)) ⟨?_, trivial⟩
    rw [Expr.Legible]
    exact Target.exprsLegible_iff.mpr (List.forall_mem_map.mpr fun c _ => hstr _)
  | range bottom top =>
    exact legible_call (callable_primitive _ (by decide)) ⟨hstr _, hstr _, trivial⟩

theorem isConstant_classTest (test : ClassTest) : (classTest test).isConstant = false := by
  cases test <;> rfl

theorem legible_class {tests : List ClassTest} (hfail : stmtsLegible code fail) {stmt : Stmt}
    (h : classStmt fail tests = .ok stmt) : stmt.Legible code := by
  obtain ⟨test, -, rfl⟩ | ⟨test, rest, -, rfl⟩ := classStmt_cases h
  · exact legible_failOn false (legible_classTest test) (isConstant_classTest test) hfail
  · rw [Stmt.Legible, Target.optionalLegible]
    refine ⟨legible_classTest test, trivial, ?_, hfail⟩
    exact Target.branchesLegible_iff.mpr (List.forall_mem_map.mpr fun t _ =>
      ⟨legible_classTest t, trivial⟩)

/-! ## Values of rows -/

theorem legible_consumed {save : String} (h : IsName save) : (consumedSince save).Legible code := by
  have hstop : (Expr.bin .sub cursor (.int 1)).Legible code :=
    legible_compare ⟨legible_var isName_shared.2.1, rfl, rfl⟩ ⟨legible_int 1, rfl⟩
  rw [consumedSince, Expr.Legible]
  exact ⟨isName_shared.1, legible_var h, hstop⟩

theorem legible_foldl {vars : List String} (hvars : ∀ var ∈ vars, IsName var) {e : Expr}
    (he : e.Legible code ∧ e.isConstant = false) :
    (vars.foldl (fun lhs v => .bin .concat lhs (.var v)) e).Legible code := by
  induction vars generalizing e with
  | nil => exact he.1
  | cons v vars ih =>
    obtain ⟨hv, hvars⟩ := List.forall_mem_cons.mp hvars
    refine ih hvars ⟨?_, rfl⟩
    rw [Expr.Legible]
    exact ⟨he.symm, ⟨rfl, legible_var hv⟩, fun h => nomatch h⟩

/-- The names that the value of a row is made of can be read. -/
def ValueNamed : AltResult → Prop
  | .consumed => True
  | .capture var => IsName var
  | .concat vars => ∀ var ∈ vars, IsName var
  | .action call => Callable call.function ∧ ∀ arg ∈ call.args, IsName arg

theorem legible_result {save : String} (hsave : IsName save) {value : AltResult}
    (h : ValueNamed value) : (resultExpr save value).Legible code := by
  cases value with
  | consumed => exact legible_consumed hsave
  | capture var => exact legible_var h
  | concat vars =>
    cases vars with
    | nil => trivial
    | cons v vars =>
      obtain ⟨hv, hvars⟩ := List.forall_mem_cons.mp h
      exact legible_foldl hvars ⟨legible_var hv, rfl⟩
  | action call => exact legible_call h.1 (legible_vars h.2)

theorem legible_assignResult {save : String} (hsave : IsName save) {value : AltResult}
    (hvalue : ValueNamed value) {result : Option String} (hresult : ∀ var ∈ result, IsName var) :
    stmtsLegible code (assignResult save value result) := by
  cases result with
  | none => trivial
  | some var =>
    exact (legible_assign (hresult var rfl) (legible_result hsave hvalue)).single

theorem legible_captureBlock {captures : List Capture} (hcaptures : ∀ c ∈ captures, IsName c.var)
    {body : List Stmt} (hbody : stmtsLegible code body) :
    stmtsLegible code (captureBlock captures body) := by
  unfold captureBlock
  split
  · exact hbody
  · refine Stmt.Legible.single ?_
    rw [Stmt.Legible]
    refine ⟨(fun _ h => nomatch h), List.forall_mem_map.mpr fun c hc => ?_, hbody⟩
    exact ⟨rfl, List.cons_ne_nil _ _, List.forall_mem_singleton.mpr (hcaptures c hc)⟩

/-! ## Choices -/

theorem legible_cases {label : String} (hlabel : IsName label) : ∀ (rows : List (List Stmt)) (n : Nat),
    (∀ row ∈ rows, stmtsLegible code row) →
    casesLegible code ((rows.zipIdx n).map fun (body, n) => (n, body ++ [.exit (some label)]))
  | [] => fun _ _ => trivial
  | row :: rows => fun n h => by
    obtain ⟨hrow, hrows⟩ := List.forall_mem_cons.mp h
    exact ⟨Target.stmtsLegible_append hrow (legible_exit hlabel).single,
      legible_cases hlabel rows (n + 1) hrows⟩

theorem legible_choiceLoop {label index save : String}
    (hnames : IsName label ∧ IsName index ∧ IsName save) {rows : List (List Stmt)}
    (hrows : ∀ row ∈ rows, stmtsLegible code row) (hfail : stmtsLegible code fail) :
    (choiceLoop label index save rows fail).Legible code := by
  obtain ⟨hlabel, hindex, hsave⟩ := hnames
  have hselect : (Stmt.select (.var index) (rows.zipIdx.map fun (body, n) =>
      (n, body ++ [.exit (some label)])) (some fail)).Legible code := by
    rw [Stmt.Legible, Target.optionalLegible]
    exact ⟨legible_var hindex, legible_cases hlabel rows 0 hrows, hfail⟩
  rw [choiceLoop, Stmt.Legible]
  refine ⟨?_, ?_, legible_restore hsave, hselect, trivial⟩
  · rintro _ ⟨⟩
    exact hlabel
  · rintro _ ⟨⟩
    exact ⟨hindex, legible_int _, legible_int _⟩

/-! ## Repetitions -/

section
variable {k : Nat}

theorem legible_boundKept {w : String} (hw : w ∈ localWords) {b : Option Bound}
    (hcode : ∀ c ∈ b.toList.flatMap Bound.codes, code c) :
    stmtsLegible code (boundKept w k b).2 := by
  match b with
  | none => trivial
  | some (.count _) => trivial
  | some (.code expr) =>
    have hexpr : (Expr.verbatim expr).Legible code := by
      rw [Expr.Legible]
      exact hcode expr (by simp [Bound.codes])
    exact (legible_assign (isName_numbered hw k) hexpr).single

theorem legible_boundExpr {w : String} (hw : w ∈ localWords) (b : Bound) :
    (boundExpr (boundKept w k (some b)).1 b).Legible code ∧
      (boundExpr (boundKept w k (some b)).1 b).isConstant = false := by
  cases b with
  | count n => exact ⟨legible_int n, rfl⟩
  | code expr => exact ⟨legible_var (isName_numbered hw k), rfl⟩

theorem legible_count : (Expr.var (numbered "count" k)).Legible code :=
  legible_var (isName_numbered (by decide) k)

theorem legible_rep : (Stmt.exit (some (numbered "rep" k))).Legible code :=
  legible_exit (isName_numbered (by decide) k)

/-- The statements that leave a repetition. -/
theorem legible_stop :
    stmtsLegible code [restore (numbered "mark" k), .exit (some (numbered "rep" k))] :=
  ⟨legible_restore (isName_numbered (by decide) k), legible_rep, trivial⟩

theorem legible_repeatLoop (max : Option Bound) {between : Option (List Stmt)} {body : List Stmt}
    (hbetween : Target.optionalLegible code between) (hbody : stmtsLegible code body) :
    (repeatLoop (numbered "rep" k) (numbered "count" k) (numbered "mark" k)
      (boundKept "hi" k max).1 max between body).Legible code := by
  have hlimit : stmtsLegible code (limitStmts k max) := by
    cases max with
    | none => trivial
    | some max =>
      exact (legible_when (legible_compare ⟨legible_count, rfl, rfl⟩
        (legible_boundExpr (by decide) max)) legible_rep.single).single
  have hseparator : stmtsLegible code (betweenStmts k between) := by
    cases between with
    | none => trivial
    | some stmts =>
      exact (legible_when (legible_compare ⟨legible_count, rfl, rfl⟩ ⟨legible_int 0, rfl⟩)
        hbetween).single
  have hcount : (Stmt.assign (numbered "count" k)
      (.bin .add (.var (numbered "count" k)) (.int 1))).Legible code :=
    legible_assign (isName_numbered (by decide) k)
      (legible_compare ⟨legible_count, rfl, rfl⟩ ⟨legible_int 1, rfl⟩)
  have hprogress : stmtsLegible code (progressStmts k max) := by
    cases max with
    | some max => trivial
    | none =>
      exact (legible_when (legible_compare ⟨legible_var isName_shared.2.1, rfl, rfl⟩
        ⟨legible_var (isName_numbered (by decide) k), rfl⟩) legible_rep.single).single
  have hturn := Target.stmtsLegible_append (Target.stmtsLegible_append hseparator hbody)
    (hcount.cons hprogress)
  rw [repeatLoop_eq, Stmt.Legible]
  refine ⟨?_, (fun _ h => nomatch h), Target.stmtsLegible_append hlimit ?_⟩
  · rintro _ ⟨⟩
    exact isName_numbered (by decide) k
  · exact (legible_keep (isName_numbered (by decide) k)).cons hturn

theorem legible_saved (min : Bound) : stmtsLegible code (savedStmts k min) := by
  unfold savedStmts
  split
  · exact (legible_keep (isName_numbered (by decide) k)).single
  · trivial

theorem legible_check (min : Bound) (hfail : stmtsLegible code fail) :
    stmtsLegible code (checkStmts k min fail) := by
  unfold checkStmts
  split
  · exact (legible_when (legible_compare ⟨legible_count, rfl, rfl⟩
      (legible_boundExpr (by decide) min))
      ((legible_restore (isName_numbered (by decide) k)).cons hfail)).single
  · trivial

theorem legible_repeat {min : Bound} {max : Option Bound} {between : Option (List Stmt)}
    {body : List Stmt} (hcode : ∀ c ∈ (min :: max.toList).flatMap Bound.codes, code c)
    (hbetween : Target.optionalLegible code between) (hbody : stmtsLegible code body)
    (hfail : stmtsLegible code fail) :
    stmtsLegible code ((boundKept "lo" k (some min)).2 ++ (boundKept "hi" k max).2 ++
      savedStmts k min ++ [.assign (numbered "count" k) (.int 0),
        repeatLoop (numbered "rep" k) (numbered "count" k) (numbered "mark" k)
          (boundKept "hi" k max).1 max between body] ++ checkStmts k min fail) := by
  rw [List.flatMap_cons, List.forall_mem_append] at hcode
  have hlo : stmtsLegible code (boundKept "lo" k (some min)).2 :=
    legible_boundKept (by decide) (by simpa using hcode.1)
  have hhi : stmtsLegible code (boundKept "hi" k max).2 := legible_boundKept (by decide) hcode.2
  have hstart : (Stmt.assign (numbered "count" k) (.int 0)).Legible code :=
    legible_assign (isName_numbered (by decide) k) (legible_int 0)
  have hbounds := Target.stmtsLegible_append (Target.stmtsLegible_append hlo hhi)
    (legible_saved (k := k) min)
  have hloop := legible_repeatLoop (k := k) max hbetween hbody
  exact Target.stmtsLegible_append (Target.stmtsLegible_append hbounds (hstart.cons hloop.single))
    (legible_check min hfail)

theorem legible_lookahead (negated : Bool) {body : List Stmt} (hbody : stmtsLegible code body)
    (hfail : stmtsLegible code fail) :
    stmtsLegible code [keep (numbered "save" k), .assign (numbered "ok" k) (.logical false),
      .block (some (numbered "look" k)) [] (body ++ [.assign (numbered "ok" k) (.logical true)]),
      restore (numbered "save" k), failOn negated (.var (numbered "ok" k)) fail] := by
  have hok : IsName (numbered "ok" k) := isName_numbered (by decide) k
  have hsave : IsName (numbered "save" k) := isName_numbered (by decide) k
  have hassign (b : Bool) : (Stmt.assign (numbered "ok" k) (.logical b)).Legible code :=
    legible_assign hok (by rw [Expr.Legible]; trivial)
  have hblock : (Stmt.block (some (numbered "look" k)) []
      (body ++ [.assign (numbered "ok" k) (.logical true)])).Legible code := by
    rw [Stmt.Legible]
    refine ⟨?_, (fun _ h => nomatch h), Target.stmtsLegible_append hbody (hassign true).single⟩
    rintro _ ⟨⟩
    exact isName_numbered (by decide) k
  exact ⟨legible_keep hsave, hassign false, hblock, legible_restore hsave,
    legible_failOn negated (legible_var hok) rfl hfail, trivial⟩

end

/-- A choice, from its rows with whatever failing statements they are lowered. -/
theorem legible_choiceOf {as : List Alternative} {result : Option String}
    (hresult : ∀ var ∈ result, IsName var)
    (hrows : ∀ {fail own}, stmtsLegible code fail → IsName own → ∀ {sc sc' rows}, Spells sc →
      Yields (lowerAlternatives own result fail as) sc rows sc' →
        (∀ row ∈ rows, stmtsLegible code row) ∧ Spells sc')
    (hfail : stmtsLegible code fail) (hsc : Spells sc) {r : List Stmt × String}
    (h : Yields (lowerChoice fail ⟨as, result⟩) sc r sc') :
    stmtsLegible code r.1 ∧ Spells sc' := by
  have hsave : IsName (numbered "save" (sc.counter + 1)) := isName_numbered (by decide) _
  by_cases hsingle : ∃ a, as = [a]
  · obtain ⟨a, rfl⟩ := hsingle
    obtain ⟨sc₁, row, henter, hrow, rfl⟩ := yields_oneRow h
    obtain ⟨hrow, hsc'⟩ := hrows ((legible_restore hsave).cons hfail) hsave
      (hsc.enterChoice hresult henter) (yields_singleton hrow)
    exact ⟨(legible_keep hsave).cons (hrow row List.mem_cons_self), hsc'⟩
  · obtain ⟨sc₁, rows, henter, hyields, rfl⟩ := yields_rows (fun a ha => hsingle ⟨a, ha⟩) h
    have hlabel : IsName (numbered "alt" (sc.counter + 1)) := isName_numbered (by decide) _
    have hindex : IsName (numbered "i" (sc.counter + 1)) := isName_numbered (by decide) _
    have hnext : (Stmt.cycle (some (numbered "alt" (sc.counter + 1)))).Legible code := by
      rw [Stmt.Legible]
      rintro _ ⟨⟩
      exact hlabel
    obtain ⟨hrows, hsc'⟩ := hrows hnext.single hsave
      ((hsc.enterChoice hresult henter).integer (by decide) _) hyields
    have hloop := legible_choiceLoop ⟨hlabel, hindex, hsave⟩ hrows hfail
    exact ⟨(legible_keep hsave).cons hloop.single, hsc'⟩

/-- A captured element, from its matcher. -/
theorem legible_captured {m : Matcher} {capture : Capture} (hcapture : IsName capture.var)
    (hcall : ∀ call, m = .call call → Callable call.function)
    (hgroup : ∀ as group, m = .choice ⟨as, some group⟩ → IsName group)
    (hm : ∀ {sc sc' stmts}, Spells sc → Yields (lowerMatcher fail m) sc stmts sc' →
      stmtsLegible code stmts ∧ Spells sc')
    (hgives : m.Gives capture) (hfail : stmtsLegible code fail) (hsc : Spells sc)
    {stmts : List Stmt} (h : Yields (lowerElement fail ⟨m, some capture⟩) sc stmts sc') :
    stmtsLegible code stmts ∧ Spells sc' := by
  rcases Resolved.gives_cases hgives with hsource | ⟨hsource, ⟨call, rfl⟩ | ⟨as, group, rfl⟩⟩
  · obtain ⟨body, hbody, rfl⟩ := yields_capturedText hsource h
    have hfresh : Spells sc.fresh.2 := hsc
    have hmark : IsName (numbered "mark" (sc.counter + 1)) := isName_numbered (by decide) _
    obtain ⟨hbody, hsc'⟩ := hm (hfresh.integer (w := "mark") (by decide) _) hbody
    have hassign : (Stmt.assign capture.var (consumedSince (numbered "mark" (sc.counter + 1)))).Legible
        code := legible_assign hcapture (legible_consumed hmark)
    exact ⟨(legible_keep hmark).cons (Target.stmtsLegible_append hbody hassign.single), hsc'⟩
  · obtain ⟨rfl, rfl⟩ := yields_capturedCall hsource h
    exact ⟨(legible_ruleCall (hcall call rfl) hcapture hfail).single, hsc⟩
  · obtain ⟨body, save, hchoice, rfl⟩ := yields_capturedGroup hsource h
    obtain ⟨hbody, hsc'⟩ := hm hsc (yields_of_choice hchoice)
    have hassign : (Stmt.assign capture.var (.var group)).Legible code :=
      legible_assign hcapture (legible_var (hgroup as group rfl))
    exact ⟨Target.stmtsLegible_append hbody hassign.single, hsc'⟩

end

/-! ## Every lowering -/

section
variable {p : Parser} {code : String → Prop}

theorem callable_of_rule (hcalls : ∀ name ∈ functionNames p, Callable name) {call : RuleCall}
    (h : call.Typed p) : Callable call.function := by
  obtain ⟨r, -, hr, -⟩ := h
  have hfunction : r.function = call.function := by simpa using hr.holds
  exact hcalls _ (hfunction ▸ List.mem_append_left _
    (List.mem_map_of_mem (f := fun r => r.function) hr.mem))

theorem callable_of_action (hcalls : ∀ name ∈ functionNames p, Callable name)
    {kind : Resolved.ActionKind} {captures : List Capture} (hnames : ∀ c ∈ captures, IsName c.var)
    {type : Resolved.ValueType} {call : ActionCall} (h : call.Typed p kind captures type) :
    Callable call.function ∧ ∀ arg ∈ call.args, IsName arg := by
  refine ⟨?_, fun arg harg => ?_⟩
  · obtain ⟨f, hf, -⟩ := h
    have hfunction : f.function = call.function := by simpa using hf.holds
    exact hcalls _ (hfunction ▸ List.mem_append_right _
      (List.mem_map_of_mem (f := fun f => f.function) hf.mem))
  · obtain ⟨c, hc, rfl⟩ := List.mem_map.mp (Resolved.ActionCall.args_mem h arg harg)
    exact hnames c hc

theorem valueNamed (hcalls : ∀ name ∈ functionNames p, Callable name) {captures : List Capture}
    (hnames : ∀ c ∈ captures, IsName c.var) {type : Resolved.ValueType} {value : AltResult}
    (h : value.Typed p captures type) : ValueNamed value := by
  have hvars : ∀ var ∈ value.variables, IsName var := fun var hvar => by
    obtain ⟨c, hc, rfl⟩ := List.mem_map.mp (Resolved.AltResult.variables_mem h var hvar)
    exact hnames c hc
  cases value with
  | consumed => trivial
  | capture var => exact hvars var List.mem_cons_self
  | concat vars => exact hvars
  | action call => exact callable_of_action hcalls hnames h

/-- Captures of a well-typed row are spelled like names. -/
theorem isName_captures {elements : List Element} : ∀ {earlier : List Capture},
    elementsTyped p earlier elements →
    ∀ c ∈ elements.filterMap (fun e => e.capture), IsName c.var := by
  induction elements with
  | nil => exact fun _ _ h => nomatch h
  | cons e rest ih =>
    intro earlier h c hc
    rw [Resolved.elementsTyped_cons] at h
    rw [Resolved.captures_cons] at hc
    rcases List.mem_append.mp hc with hc | hc
    · obtain ⟨-, i, q, hvar⟩ := h.2.1 c (Option.mem_toList.mp hc)
      exact hvar ▸ isName_captureVar i q
    · exact ih h.2.2 c hc

theorem isName_result {c : Choice} (h : c.Typed p) : ∀ var ∈ c.result, IsName var := by
  obtain ⟨as, result⟩ := c
  rw [Choice.Typed] at h
  intro var hvar
  obtain ⟨path, rfl⟩ := h.2 var hvar
  exact isName_groupVar path

mutual

theorem legible_matcher (hcalls : ∀ name ∈ functionNames p, Callable name) : ∀ (m : Matcher)
    ⦃earlier : List Capture⦄ ⦃fail stmts : List Stmt⦄ ⦃sc sc' : Scope⦄, m.Typed p earlier →
    (∀ c ∈ earlier, IsName c.var) → (∀ c ∈ m.boundCodes, code c) → stmtsLegible code fail →
    Spells sc → Yields (lowerMatcher fail m) sc stmts sc' → stmtsLegible code stmts ∧ Spells sc'
  | .literal value => fun _ _ _ _ _ _ _ _ hfail hsc h => by
    obtain ⟨rfl, rfl⟩ := yields_literal h
    have hargs : exprsLegible code [.str value] := ⟨by rw [Expr.Legible]; trivial, trivial⟩
    have htest := legible_call (callable_primitive acceptString (by decide)) hargs
    exact ⟨(legible_failOn false htest rfl hfail).single, hsc⟩
  | .class tests => fun _ _ _ _ _ _ _ _ hfail hsc h => by
    obtain ⟨rfl, stmt, hclass, rfl⟩ := yields_class h
    exact ⟨(legible_class hfail hclass).single, hsc⟩
  | .anyChar => fun _ _ _ _ _ _ _ _ hfail hsc h => by
    obtain ⟨rfl, rfl⟩ := yields_anyChar h
    have htest : (Expr.call acceptAny []).Legible code :=
      legible_call (callable_primitive acceptAny (by decide)) trivial
    exact ⟨(legible_failOn false htest rfl hfail).single, hsc⟩
  | .endOfInput => fun _ _ _ _ _ _ _ _ hfail hsc h => by
    obtain ⟨rfl, rfl⟩ := yields_endOfInput h
    have htest : (Expr.call acceptEnd []).Legible code :=
      legible_call (callable_primitive acceptEnd (by decide)) trivial
    exact ⟨(legible_failOn false htest rfl hfail).single, hsc⟩
  | .call call => fun _ _ _ sc _ htyped _ _ hfail hsc h => by
    rw [Matcher.Typed] at htyped
    obtain ⟨rfl, rfl⟩ := yields_call h
    have hscratch := hsc.scratch call.resultType
    have hinto := hscratch _ (scratch_mem sc call.resultType).1
    exact ⟨(legible_ruleCall (callable_of_rule hcalls htyped) hinto hfail).single, hscratch⟩
  | .choice ⟨as, result⟩ => fun _ _ _ _ _ htyped _ hcode hfail hsc h => by
    rw [Matcher.Typed] at htyped
    have hresult := isName_result htyped
    rw [Choice.Typed] at htyped
    rw [Matcher.boundCodes, Choice.boundCodes] at hcode
    obtain ⟨save, hchoice⟩ := yields_choice h
    exact legible_choiceOf hresult
      (fun hfail hown => legible_alternatives hcalls as htyped.1 hcode hresult hfail hown)
      hfail hsc hchoice
  | .repeat body min max separator => fun _ _ _ _ _ htyped hearlier hcode hfail hsc h => by
    rw [Matcher.Typed] at htyped
    rw [Matcher.boundCodes, List.forall_mem_append, List.forall_mem_append] at hcode
    obtain ⟨hbounds, hseparator, hbody⟩ := hcode
    obtain ⟨sc₁, between, stmts, hbetween, hstmts, rfl⟩ := yields_repeat h
    obtain ⟨hbetween, hsc₁⟩ := legible_separator hcalls separator htyped.2 hearlier hseparator
      legible_stop (hsc.repeat' min max) hbetween
    obtain ⟨hstmts, hsc'⟩ := legible_matcher hcalls body htyped.1 hearlier hbody legible_stop hsc₁
      hstmts
    exact ⟨legible_repeat hbounds hbetween hstmts hfail, hsc'⟩
  | .lookahead negated body => fun _ _ _ sc _ htyped hearlier hcode hfail hsc h => by
    rw [Matcher.Typed] at htyped
    rw [Matcher.boundCodes] at hcode
    obtain ⟨stmts, hbody, rfl⟩ := yields_lookahead h
    have hfresh : Spells sc.fresh.2 := hsc
    have hlocals := (hfresh.integer (w := "save") (by decide) (sc.counter + 1)).logical (w := "ok")
      (by decide) (sc.counter + 1)
    have hleave : (Stmt.exit (some (numbered "look" (sc.counter + 1)))).Legible code :=
      legible_exit (isName_numbered (by decide) _)
    obtain ⟨hbody, hsc'⟩ := legible_matcher hcalls body htyped hearlier hcode hleave.single hlocals
      hbody
    exact ⟨legible_lookahead negated hbody hfail, hsc'⟩
  | .predicate negated call => fun _ _ _ _ _ htyped hearlier _ hfail hsc h => by
    rw [Matcher.Typed] at htyped
    obtain ⟨rfl, rfl⟩ := yields_predicate h
    obtain ⟨hcall, hargs⟩ := callable_of_action hcalls hearlier htyped
    have htest : (actionCall call).Legible code := legible_call hcall (legible_vars hargs)
    exact ⟨(legible_failOn negated htest rfl hfail).single, hsc⟩

theorem legible_separator (hcalls : ∀ name ∈ functionNames p, Callable name) :
    ∀ (separator : Option Matcher) ⦃earlier : List Capture⦄ ⦃fail : List Stmt⦄
    ⦃between : Option (List Stmt)⦄ ⦃sc sc' : Scope⦄, separatorTyped p earlier separator →
    (∀ c ∈ earlier, IsName c.var) → (∀ c ∈ Resolved.separatorBoundCodes separator, code c) →
    stmtsLegible code fail → Spells sc → Yields (lowerSeparator fail separator) sc between sc' →
    Target.optionalLegible code between ∧ Spells sc'
  | none => fun _ _ _ _ _ _ _ _ _ hsc h => by
    obtain ⟨rfl, rfl⟩ := yields_noSeparator h
    exact ⟨trivial, hsc⟩
  | some m => fun _ _ _ _ _ htyped hearlier hcode hfail hsc h => by
    rw [separatorTyped] at htyped
    rw [Resolved.separatorBoundCodes] at hcode
    obtain ⟨stmts, hstmts, rfl⟩ := yields_separator h
    exact legible_matcher hcalls m htyped hearlier hcode hfail hsc hstmts

theorem legible_alternatives (hcalls : ∀ name ∈ functionNames p, Callable name) :
    ∀ (as : List Alternative) ⦃fail : List Stmt⦄ ⦃own : String⦄ ⦃result : Option String⦄
    ⦃rows : List (List Stmt)⦄ ⦃sc sc' : Scope⦄, alternativesTyped p as →
    (∀ c ∈ Resolved.alternativesBoundCodes as, code c) → (∀ var ∈ result, IsName var) →
    stmtsLegible code fail → IsName own → Spells sc →
    Yields (lowerAlternatives own result fail as) sc rows sc' →
    (∀ row ∈ rows, stmtsLegible code row) ∧ Spells sc'
  | [] => fun _ _ _ _ _ _ _ _ _ _ _ hsc h => by
    obtain ⟨rfl, rfl⟩ := yields_noAlternatives h
    exact ⟨(fun _ hrow => nomatch hrow), hsc⟩
  | a :: rest => fun _ _ _ _ _ _ htyped hcode hresult hfail hown hsc h => by
    rw [alternativesTyped] at htyped
    rw [Resolved.alternativesBoundCodes, List.forall_mem_append] at hcode
    obtain ⟨sc₁, row, rows, hrow, hrows, rfl⟩ := yields_alternatives h
    obtain ⟨hrow, hsc₁⟩ := legible_alternative hcalls a htyped.1 hcode.1 hresult hfail hown hsc hrow
    obtain ⟨hrows, hsc'⟩ := legible_alternatives hcalls rest htyped.2 hcode.2 hresult hfail hown
      hsc₁ hrows
    exact ⟨List.forall_mem_cons.mpr ⟨hrow, hrows⟩, hsc'⟩

theorem legible_alternative (hcalls : ∀ name ∈ functionNames p, Callable name) :
    ∀ (a : Alternative) ⦃fail : List Stmt⦄ ⦃own : String⦄ ⦃result : Option String⦄
    ⦃row : List Stmt⦄ ⦃sc sc' : Scope⦄, a.Typed p → (∀ c ∈ a.boundCodes, code c) →
    (∀ var ∈ result, IsName var) → stmtsLegible code fail → IsName own → Spells sc →
    Yields (lowerAlternative own result fail a) sc row sc' → stmtsLegible code row ∧ Spells sc'
  | ⟨elements, value, type⟩ => fun _ _ _ _ _ _ htyped hcode hresult hfail hown hsc h => by
    rw [Alternative.Typed] at htyped
    rw [Alternative.boundCodes] at hcode
    obtain ⟨body, hbody, rfl⟩ := yields_alternative h
    have hcaptures := isName_captures htyped.1
    obtain ⟨hbody, hsc'⟩ := legible_elements hcalls elements htyped.1 (fun _ h => nomatch h) hcode
      hfail hsc hbody
    have hvalue := valueNamed hcalls hcaptures htyped.2.2
    refine ⟨legible_captureBlock hcaptures (Target.stmtsLegible_append hbody ?_), hsc'⟩
    exact legible_assignResult hown hvalue hresult

theorem legible_elements (hcalls : ∀ name ∈ functionNames p, Callable name) :
    ∀ (elements : List Element) ⦃earlier : List Capture⦄ ⦃fail stmts : List Stmt⦄ ⦃sc sc' : Scope⦄,
    elementsTyped p earlier elements → (∀ c ∈ earlier, IsName c.var) →
    (∀ c ∈ Resolved.elementsBoundCodes elements, code c) → stmtsLegible code fail → Spells sc →
    Yields (lowerElements fail elements) sc stmts sc' → stmtsLegible code stmts ∧ Spells sc'
  | [] => fun _ _ _ _ _ _ _ _ _ hsc h => by
    obtain ⟨rfl, rfl⟩ := yields_noElements h
    exact ⟨trivial, hsc⟩
  | ⟨m, capture⟩ :: rest => fun earlier _ _ _ _ htyped hearlier hcode hfail hsc h => by
    rw [elementsTyped] at htyped
    rw [Resolved.elementsBoundCodes, List.forall_mem_append] at hcode
    obtain ⟨sc₁, first, others, hfirst, hothers, rfl⟩ := yields_elements h
    have hmore : ∀ c ∈ earlier ++ capture.toList, IsName c.var := by
      refine List.forall_mem_append.mpr ⟨hearlier, fun c hc => ?_⟩
      obtain ⟨-, i, q, hvar⟩ := htyped.2.1 c (Option.mem_toList.mp hc)
      exact hvar ▸ isName_captureVar i q
    obtain ⟨hfirst, hsc₁⟩ := legible_element hcalls ⟨m, capture⟩ htyped.1 htyped.2.1 hearlier
      hcode.1 hfail hsc hfirst
    obtain ⟨hothers, hsc'⟩ := legible_elements hcalls rest htyped.2.2 hmore hcode.2 hfail hsc₁
      hothers
    exact ⟨Target.stmtsLegible_append hfirst hothers, hsc'⟩

theorem legible_element (hcalls : ∀ name ∈ functionNames p, Callable name) : ∀ (e : Element)
    ⦃earlier : List Capture⦄ ⦃fail stmts : List Stmt⦄ ⦃sc sc' : Scope⦄,
    e.matcher.Typed p earlier →
    (∀ c, e.capture = some c → e.matcher.Gives c ∧ ∃ i q, c.var = Resolved.captureVar i q) →
    (∀ c ∈ earlier, IsName c.var) → (∀ c ∈ e.boundCodes, code c) → stmtsLegible code fail →
    Spells sc → Yields (lowerElement fail e) sc stmts sc' → stmtsLegible code stmts ∧ Spells sc'
  | ⟨m, none⟩ => fun _ _ _ _ _ htyped _ hearlier hcode hfail hsc h => by
    rw [Element.boundCodes] at hcode
    exact legible_matcher hcalls m htyped hearlier hcode hfail hsc (yields_uncaptured h)
  | ⟨m, some capture⟩ => fun _ _ _ _ _ htyped hgives hearlier hcode hfail hsc h => by
    obtain ⟨hgives, i, q, hvar⟩ := hgives capture rfl
    rw [Element.boundCodes] at hcode
    refine legible_captured (hvar ▸ isName_captureVar i q) ?_ ?_
      (fun hsc h => legible_matcher hcalls m htyped hearlier hcode hfail hsc h) hgives hfail hsc h
    · rintro call rfl
      rw [Matcher.Typed] at htyped
      exact callable_of_rule hcalls htyped
    · rintro as group rfl
      rw [Matcher.Typed] at htyped
      exact isName_result htyped group rfl

end

end

/-! ## Functions -/

theorem callable_functionNames {p : Parser} (hp : p.Typed)
    (hidents : ∀ name ∈ functionNames p, isIdentifier name = true) :
    ∀ name ∈ functionNames p, Callable name := by
  intro name hname
  refine ⟨isName_of_isIdentifier (hidents name hname), fun he => ?_⟩
  have hword : Naming.word name = "peg".toList ∨ Naming.word name = "action".toList ∨
      Naming.word name = "pred".toList := by
    rcases List.mem_append.mp hname with hname | hname
    · obtain ⟨r, hr, rfl⟩ := List.mem_map.mp hname
      obtain ⟨base, hbase⟩ := hp.ruleNames r hr
      exact .inl (hbase ▸ Naming.word_ruleFunction base)
    · obtain ⟨a, ha, rfl⟩ := List.mem_map.mp hname
      obtain ⟨base, k, hbase | hbase⟩ := hp.actionNames a ha
      · exact .inr (.inr (hbase ▸ Naming.word_predicateFunction base k))
      · exact .inr (.inl (hbase ▸ Naming.word_actionFunction base k))
  rw [he] at hword
  exact absurd hword (by decide)

theorem legible_ruleStmts {code : String → Prop} (start : Bool) {choice : List Stmt}
    (hchoice : stmtsLegible code choice) {entry : String} (hentry : IsName entry) :
    stmtsLegible code (ruleStmts start choice entry) := by
  have hassign (b : Bool) : (Stmt.assign acceptVar (.logical b)).Legible code :=
    legible_assign isName_shared.2.2.2 (by rw [Expr.Legible]; trivial)
  have hend : stmtsLegible code (endTest start entry) := by
    have hreturn : Stmt.return.Legible code := by
      rw [Stmt.Legible]
      trivial
    have htest : (Expr.call acceptEnd []).Legible code :=
      legible_call (callable_primitive acceptEnd (by decide)) trivial
    unfold endTest
    split
    · exact (legible_failOn false htest rfl
        ((legible_restore hentry).cons hreturn.single)).single
    · trivial
  exact (hassign false).cons (Target.stmtsLegible_append hchoice
    (Target.stmtsLegible_append hend (hassign true).single))

/-- The function of a rule can be read back. -/
theorem legible_rule {p : Parser} {code : String → Prop}
    (hcalls : ∀ name ∈ functionNames p, Callable name) {rule : Rule} (hrule : rule.Typed p)
    (hcode : ∀ c ∈ rule.body.boundCodes, code c) {f : Function} (hf : lowerRule rule = .ok f) :
    f.Legible code := by
  obtain ⟨choice, entry, scope, hyields, rfl⟩ := yields_rule hf
  obtain ⟨hentry, -⟩ := keeps_choice hyields
  obtain rfl : entry = numbered "save" 1 := hentry
  obtain ⟨id, function, start, type, ⟨as, result⟩⟩ := rule
  obtain rfl : result = some resultVar := hrule.result
  have hresult : ∀ var ∈ some resultVar, IsName var := by
    rintro _ ⟨⟩
    exact isName_shared.2.2.1
  rw [Choice.boundCodes] at hcode
  have hreturn : stmtsLegible code [.return] := by
    simp [stmtsLegible, Stmt.Legible]
  obtain ⟨hchoice, hscope⟩ := legible_choiceOf hresult
    (fun hfail hown => legible_alternatives hcalls as hrule.rows hcode hresult hfail hown)
    hreturn Spells.empty hyields
  refine ⟨List.forall_mem_singleton.mpr isName_shared.2.2.1, fun d hd name hname => ?_,
    legible_ruleStmts start hchoice (isName_numbered (by decide) 1)⟩
  rcases List.mem_append.mp hd with hd | hd
  · have hshared : name = resultVar ∨ name = acceptVar := by
      rcases List.mem_pair.mp hd with rfl | rfl
      · exact .inl (List.mem_singleton.mp hname)
      · exact .inr (List.mem_singleton.mp hname)
    exact hshared.elim (· ▸ isName_shared.2.2.1) (· ▸ isName_shared.2.2.2)
  · have hmem : name ∈ Target.declared scope.decls := List.mem_flatMap.mpr ⟨d, hd, hname⟩
    rw [declared_decls] at hmem
    exact hscope name hmem

/-- An extracted function has names only: nobody looks into its code. -/
theorem legible_action {code : String → Prop} {a : Resolved.Action}
    (h : Resolution.ParamNames (a.params.map fun q => q.name)) : (lowerAction a).Legible code := by
  have hparams : ∀ name ∈ a.params.map fun q => q.name, IsName name := fun name hname =>
    isName_of_isIdentifier (h.identifiers name hname)
  refine ⟨hparams, List.forall_mem_append.mpr ⟨List.forall_mem_map.mpr fun q hq => ?_, ?_⟩, trivial⟩
  · exact List.forall_mem_singleton.mpr (hparams q.name (List.mem_map_of_mem hq))
  · exact List.forall_mem_singleton.mpr (List.forall_mem_singleton.mpr isName_shared.2.2.1)

/-- All functions of a module can be read back, as can the code of bounds in them. -/
theorem legible_lower {g : Grammar} {types : ActionTypes} {p : Parser} {o : Options}
    {m : Target.Module} (h : Resolution.resolve g types = .ok p) (hm : lower p o = .ok m)
    {code : String → Prop} (hcode : ∀ c ∈ p.boundCodes, code c) :
    ∀ f ∈ m.functions, f.Legible code := by
  obtain ⟨fs, hlowered⟩ := lowered_of_lower hm
  have hp := Resolution.typed_of_resolve h
  have hcalls := callable_functionNames hp hlowered.identifiers
  intro f hf
  rcases hlowered.function_cases hf with ⟨rule, hrule, hlower⟩ | ⟨a, ha, rfl⟩
  · exact legible_rule hcalls (hp.rules rule hrule)
      (fun c hc => hcode c (List.mem_flatMap.mpr ⟨rule, hrule, hc⟩)) hlower
  · exact legible_action (Resolution.paramNames_of_resolve h a ha)

end Lowering

end PegCompiler
