import PegCompiler.Proofs.Lowering.References
import PegCompiler.Proofs.Resolution.Silent
/-
  What silent matchers are lowered to. Their statements read and set the cursor and the
  numbered variables of their own constructs, and hand out variables for values that nobody
  reads; no block of captures stands among them (`Internal`). So a lookahead or a separator
  leaves every capture, every variable of a group and the result of its rule as they were.
-/

namespace PegCompiler.Lowering

open Naming (word)
open Resolved (Alternative Bound Choice Element Matcher Parser captureVar groupVar resultVar)
open Target (Binding Expr Stmt branchesBindings optionalBindings stmtsBindings uses)

/-- The variables that lowering keeps for itself. -/
inductive Working (name : String) : Prop where
  | cursor (h : name = cursorVar)
  /-- An integer or logical variable of a construct. -/
  | own {w : String} (hw : w ∈ ownWords) {k : Nat} (h : name = numbered w k)
  /-- A variable for values that nobody reads. -/
  | scratch {rest : String} (h : name = "scratch_" ++ rest)

/-- The variables that the value of a rule is made in. -/
inductive HoldsValue (name : String) : Prop where
  | result (h : name = resultVar)
  | capture {alternative position : Nat} (h : name = captureVar alternative position)
  | group {path : List (Nat × Nat)} (h : name = groupVar path)

theorem HoldsValue.word {name : String} (h : HoldsValue name) :
    word name ∈ ["res".toList, "capture".toList, "group".toList] := by
  cases h with
  | result h => subst h; decide
  | capture h => subst h; rw [Naming.word_captureVar]; decide
  | group h => subst h; rw [Naming.word_groupVar]; decide

theorem Working.not_holdsValue {name : String} (h : Working name) : ¬ HoldsValue name := by
  intro hvalue
  have hword := hvalue.word
  cases h with
  | cursor h => subst h; revert hword; decide
  | own hw h =>
    subst h
    rw [word_own hw] at hword
    exact (by decide : ∀ w ∈ ownWords, w.toList ∉ ["res".toList, "capture".toList, "group".toList])
      _ hw hword
  | @scratch rest h =>
    have hscratch : word name = "scratch".toList := by
      subst h
      exact Naming.word_append (w := "scratch") rest (by decide)
    rw [hscratch] at hword
    revert hword
    decide

theorem working_scratch (sc : Scope) (type : Resolved.ValueType) :
    Working (sc.scratch type).1 := by
  unfold Scope.scratch
  split
  next v hv =>
    have hfound := List.find?_some hv
    rw [Bool.and_eq_true] at hfound
    obtain ⟨rest, hrest⟩ := String.startsWith_string_iff.mp hfound.1
    have hname : v.1 = "scratch_" ++ String.ofList rest := by
      have hchars : (String.ofList rest).toList = rest := String.toList_ofList
      rw [← String.toList_inj, String.toList_append, hchars]
      exact hrest.symm
    exact .scratch hname
  next => exact .scratch rfl

/-- All references are to working variables, and no block declares captures. -/
def Internal (bs : List Binding) : Prop :=
  ∃ names, bs = uses names ∧ ∀ name ∈ names, Working name

namespace Internal

variable {a b : List Binding} {stmts fail : List Stmt}

theorem nil : Internal [] :=
  ⟨[], rfl, fun _ h => nomatch h⟩

theorem append (ha : Internal a) (hb : Internal b) : Internal (a ++ b) := by
  obtain ⟨names, rfl, hnames⟩ := ha
  obtain ⟨more, rfl, hmore⟩ := hb
  refine ⟨names ++ more, List.map_append.symm, fun name hname => ?_⟩
  exact (List.mem_append.mp hname).elim (hnames name) (hmore name)

theorem vars {names : List String} (h : ∀ name ∈ names, Working name) : Internal (uses names) :=
  ⟨names, rfl, h⟩

/-! ## Statements -/

theorem cons {stmt : Stmt} (h : Internal stmt.bindings) (hrest : Internal (stmtsBindings stmts)) :
    Internal (stmtsBindings (stmt :: stmts)) := by
  rw [stmtsBindings]
  exact h.append hrest

theorem single {stmt : Stmt} (h : Internal stmt.bindings) : Internal (stmtsBindings [stmt]) :=
  h.cons nil

theorem concat {others : List Stmt} (h : Internal (stmtsBindings stmts))
    (hothers : Internal (stmtsBindings others)) : Internal (stmtsBindings (stmts ++ others)) := by
  rw [Target.stmtsBindings_append]
  exact h.append hothers

theorem assign {lhs : String} {rhs : Expr} (hrhs : ∀ name ∈ rhs.variables, Working name)
    (hlhs : Working lhs) : Internal (Stmt.assign lhs rhs).bindings := by
  rw [Stmt.bindings]
  exact (vars hrhs).append (vars (List.forall_mem_singleton.mpr hlhs))

theorem keep {var : String} (h : Working var) : Internal (Lowering.keep var).bindings :=
  assign (List.forall_mem_singleton.mpr (.cursor rfl)) h

theorem restore {var : String} (h : Working var) : Internal (Lowering.restore var).bindings :=
  assign (List.forall_mem_singleton.mpr h) (.cursor rfl)

theorem exit (label : Option String) : Internal (stmtsBindings [.exit label]) := nil

theorem cycle (label : Option String) : Internal (stmtsBindings [.cycle label]) := nil

theorem when {test : Expr} (htest : ∀ name ∈ test.variables, Working name)
    (h : Internal (stmtsBindings stmts)) : Internal (stmtsBindings [.when test stmts]) := by
  refine single ?_
  rw [Stmt.when, Stmt.bindings, branchesBindings, optionalBindings, List.append_nil, List.append_nil]
  exact (vars htest).append h

theorem failOn {test : Expr} (htest : ∀ name ∈ test.variables, Working name)
    (hfail : Internal (stmtsBindings fail)) (negated : Bool) :
    Internal (stmtsBindings [failOn negated test fail]) := by
  cases negated with
  | true => exact when htest hfail
  | false =>
    have hnot : ∀ name ∈ (Expr.not test).variables, Working name := by
      rw [Expr.variables]
      exact htest
    exact when hnot hfail

/-- A test without variables. -/
theorem failUnless {test : Expr} (htest : test.variables = [])
    (hfail : Internal (stmtsBindings fail)) : Internal (stmtsBindings [failUnless test fail]) := by
  refine failOn (fun name hname => ?_) hfail false
  rw [htest] at hname
  cases hname

theorem class' {tests : List Resolved.ClassTest} {stmt : Stmt}
    (h : classStmt fail tests = .ok stmt) (hfail : Internal (stmtsBindings fail)) :
    Internal (stmtsBindings [stmt]) := by
  obtain ⟨test, -, rfl⟩ | ⟨test, rest, -, rfl⟩ := classStmt_cases h
  · exact failUnless (variables_classTest test) hfail
  · rw [Target.stmtsBindings_single, Stmt.bindings, variables_classTest, branchesBindings_class,
      optionalBindings]
    exact hfail

/-- A call whose value goes into a working variable. -/
theorem ruleCall (function : String) {into : String} (hinto : Working into)
    (hfail : Internal (stmtsBindings fail)) :
    Internal (stmtsBindings [Lowering.failUnless (.call function [.var into]) fail]) := by
  have hcall : ∀ name ∈ (Expr.call function [.var into]).variables, Working name :=
    List.forall_mem_singleton.mpr hinto
  exact failOn hcall hfail false

/-- Failing statements that leave an endless loop. -/
theorem leave (k : Nat) : Internal (stmtsBindings
    [Lowering.restore (numbered "mark" k), .exit (some (numbered "rep" k))]) :=
  (restore (.own (by decide) rfl)).cons (exit _)

end Internal

/-! ## Repetitions and lookaheads -/

section
variable {k : Nat} {fail body : List Stmt}

theorem internal_boundKept {w : String} (hw : w ∈ ownWords) (b : Option Bound) :
    Internal (stmtsBindings (boundKept w k b).2) := by
  match b with
  | none => exact .nil
  | some (.count _) => exact .nil
  | some (.code expr) => exact .single (.assign (fun _ hname => nomatch hname) (.own hw rfl))

theorem working_boundExpr {w : String} (hw : w ∈ ownWords) (b : Bound) :
    ∀ name ∈ (boundExpr (boundKept w k (some b)).1 b).variables, Working name := by
  cases b with
  | count n => exact fun _ hname => nomatch hname
  | code expr => exact List.forall_mem_singleton.mpr (.own hw rfl)

/-- Statements under a comparison of working variables. -/
theorem internal_compare {op : Target.BinOp} {lhs rhs : Expr}
    (hlhs : ∀ name ∈ lhs.variables, Working name) (hrhs : ∀ name ∈ rhs.variables, Working name)
    (h : Internal (stmtsBindings body)) :
    Internal (stmtsBindings [.when (.bin op lhs rhs) body]) := by
  refine .when (fun name hname => ?_) h
  rw [Expr.variables] at hname
  exact (List.mem_append.mp hname).elim (hlhs name) (hrhs name)

theorem working_var {name : String} (h : Working name) :
    ∀ n ∈ (Expr.var name).variables, Working n :=
  List.forall_mem_singleton.mpr h

theorem working_int (n : Nat) : ∀ name ∈ (Expr.int n).variables, Working name :=
  fun _ hname => nomatch hname

theorem internal_loop (max : Option Bound) {between : Option (List Stmt)}
    (hbetween : Internal (optionalBindings between)) (hbody : Internal (stmtsBindings body)) :
    Internal (repeatLoop (numbered "rep" k) (numbered "count" k) (numbered "mark" k)
      (boundKept "hi" k max).1 max between body).bindings := by
  have hcount : Working (numbered "count" k) := .own (by decide) rfl
  have hmark : Working (numbered "mark" k) := .own (by decide) rfl
  have hlimit : Internal (stmtsBindings (limitStmts k max)) := by
    cases max with
    | none => exact .nil
    | some max =>
      exact internal_compare (working_var hcount) (working_boundExpr (by decide) max) (.exit _)
  have hseparator : Internal (stmtsBindings (betweenStmts k between)) := by
    cases between with
    | none => exact hbetween
    | some stmts => exact internal_compare (working_var hcount) (working_int 0) hbetween
  have hnext : Internal (Stmt.assign (numbered "count" k)
      (.bin .add (.var (numbered "count" k)) (.int 1))).bindings :=
    .assign (working_var hcount) hcount
  have hprogress : Internal (stmtsBindings (progressStmts k max)) := by
    cases max with
    | none => exact internal_compare (working_var (.cursor rfl)) (working_var hmark) (.exit _)
    | some max => exact .nil
  rw [repeatLoop_eq, Stmt.bindings]
  exact hlimit.concat ((Internal.keep hmark).cons
    ((hseparator.concat hbody).concat (hnext.cons hprogress)))

theorem internal_repeat (min : Bound) (max : Option Bound) {between : Option (List Stmt)}
    (hbetween : Internal (optionalBindings between)) (hbody : Internal (stmtsBindings body))
    (hfail : Internal (stmtsBindings fail)) :
    Internal (stmtsBindings ((boundKept "lo" k (some min)).2 ++ (boundKept "hi" k max).2 ++
      savedStmts k min ++ [.assign (numbered "count" k) (.int 0),
        repeatLoop (numbered "rep" k) (numbered "count" k) (numbered "mark" k)
          (boundKept "hi" k max).1 max between body] ++ checkStmts k min fail)) := by
  have hcount : Working (numbered "count" k) := .own (by decide) rfl
  have hsave : Working (numbered "save" k) := .own (by decide) rfl
  have hsaved : Internal (stmtsBindings (savedStmts k min)) := by
    unfold savedStmts
    split
    · exact .single (.keep hsave)
    · exact .nil
  have hcheck : Internal (stmtsBindings (checkStmts k min fail)) := by
    unfold checkStmts
    split
    · exact internal_compare (working_var hcount) (working_boundExpr (by decide) min)
        ((Internal.restore hsave).cons hfail)
    · exact .nil
  have hprepared := ((internal_boundKept (k := k) (w := "lo") (by decide) (some min)).concat
    (internal_boundKept (k := k) (w := "hi") (by decide) max)).concat hsaved
  have hzero : Internal (Stmt.assign (numbered "count" k) (.int 0)).bindings :=
    .assign (working_int 0) hcount
  have hturns := hzero.cons (.single (internal_loop (k := k) max hbetween hbody))
  exact (hprepared.concat hturns).concat hcheck

theorem internal_lookahead (negated : Bool) (h : Internal (stmtsBindings body))
    (hfail : Internal (stmtsBindings fail)) :
    Internal (stmtsBindings [keep (numbered "save" k), .assign (numbered "ok" k) (.logical false),
      .block (some (numbered "look" k)) [] (body ++ [.assign (numbered "ok" k) (.logical true)]),
      restore (numbered "save" k), failOn negated (.var (numbered "ok" k)) fail]) := by
  have hsave : Working (numbered "save" k) := .own (by decide) rfl
  have hok : Working (numbered "ok" k) := .own (by decide) rfl
  have hassign (b : Bool) : Internal (Stmt.assign (numbered "ok" k) (.logical b)).bindings :=
    .assign (fun _ hname => nomatch hname) hok
  have hblock : Internal (Stmt.block (some (numbered "look" k)) []
      (body ++ [.assign (numbered "ok" k) (.logical true)])).bindings := by
    rw [Stmt.bindings]
    exact h.concat (.single (hassign true))
  exact (Internal.keep hsave).cons ((hassign false).cons (hblock.cons ((Internal.restore hsave).cons
    (.failOn (working_var hok) hfail negated))))

theorem internal_choiceLoop (label : String) {rows : List (List Stmt)}
    (h : Internal (rows.flatMap stmtsBindings)) (hfail : Internal (stmtsBindings fail)) :
    Internal (choiceLoop label (numbered "i" k) (numbered "save" k) rows fail).bindings := by
  have hindex : Internal (uses [numbered "i" k]) :=
    .vars (List.forall_mem_singleton.mpr (.own (by decide) rfl))
  unfold choiceLoop
  rw [Stmt.bindings]
  refine hindex.append (.cons (.restore (.own (by decide) rfl)) (.single ?_))
  rw [Stmt.bindings, casesBindings_rows, optionalBindings]
  exact (hindex.append h).append hfail

end

/-! ## Every silent matcher -/

mutual

theorem internal_matcher : ∀ (m : Matcher) ⦃fail stmts : List Stmt⦄ ⦃sc sc' : Scope⦄, m.Silent →
    Internal (stmtsBindings fail) → Yields (lowerMatcher fail m) sc stmts sc' →
      Internal (stmtsBindings stmts)
  | .literal value => fun _ _ _ _ _ hfail h => by
    obtain ⟨rfl, rfl⟩ := yields_literal h
    exact .failUnless rfl hfail
  | .class tests => fun _ _ _ _ _ hfail h => by
    obtain ⟨rfl, stmt, hclass, rfl⟩ := yields_class h
    exact .class' hclass hfail
  | .anyChar => fun _ _ _ _ _ hfail h => by
    obtain ⟨rfl, rfl⟩ := yields_anyChar h
    exact .failUnless rfl hfail
  | .endOfInput => fun _ _ _ _ _ hfail h => by
    obtain ⟨rfl, rfl⟩ := yields_endOfInput h
    exact .failUnless rfl hfail
  | .call call => fun _ _ sc _ _ hfail h => by
    obtain ⟨rfl, rfl⟩ := yields_call h
    exact .ruleCall call.function (working_scratch sc call.resultType) hfail
  | .choice c => fun _ _ _ _ hsilent hfail h => by
    rw [Matcher.Silent] at hsilent
    obtain ⟨entry, hchoice⟩ := yields_choice h
    exact internal_choice c hsilent hfail hchoice
  | .repeat m min max separator => fun _ _ _ _ hsilent hfail h => by
    rw [Matcher.Silent] at hsilent
    obtain ⟨_, between, body, hbetween, hbody, rfl⟩ := yields_repeat h
    exact internal_repeat min max (internal_separator separator hsilent.2 (.leave _) hbetween)
      (internal_matcher m hsilent.1 (.leave _) hbody) hfail
  | .lookahead negated m => fun _ _ _ _ hsilent hfail h => by
    rw [Matcher.Silent] at hsilent
    obtain ⟨body, hbody, rfl⟩ := yields_lookahead h
    exact internal_lookahead negated (internal_matcher m hsilent (.exit _) hbody) hfail
  | .predicate negated call => fun _ _ _ _ hsilent hfail h => by
    rw [Matcher.Silent] at hsilent
    obtain ⟨rfl, rfl⟩ := yields_predicate h
    refine .failOn (fun name hname => ?_) hfail negated
    rw [actionCall, Expr.variables, listVariables_vars, hsilent] at hname
    cases hname

theorem internal_separator : ∀ (separator : Option Matcher) ⦃fail : List Stmt⦄
    ⦃between : Option (List Stmt)⦄ ⦃sc sc' : Scope⦄, Resolved.separatorSilent separator →
    Internal (stmtsBindings fail) → Yields (lowerSeparator fail separator) sc between sc' →
      Internal (optionalBindings between)
  | none => fun _ _ _ _ _ _ h => by
    obtain ⟨rfl, rfl⟩ := yields_noSeparator h
    exact .nil
  | some m => fun _ _ _ _ hsilent hfail h => by
    rw [Resolved.separatorSilent] at hsilent
    obtain ⟨stmts, hstmts, rfl⟩ := yields_separator h
    exact internal_matcher m hsilent hfail hstmts

theorem internal_choice : ∀ (c : Choice) ⦃fail : List Stmt⦄ ⦃r : List Stmt × String⦄
    ⦃sc sc' : Scope⦄, c.Silent → Internal (stmtsBindings fail) →
    Yields (lowerChoice fail c) sc r sc' → Internal (stmtsBindings r.1)
  | ⟨as, result⟩ => fun _ _ sc _ hsilent hfail h => by
    rw [Choice.Silent] at hsilent
    obtain ⟨rfl, hrows⟩ := hsilent
    have hsave : Working (numbered "save" (sc.counter + 1)) := .own (by decide) rfl
    have halternatives := internal_alternatives as
    by_cases hsingle : ∃ a, as = [a]
    · obtain ⟨a, rfl⟩ := hsingle
      obtain ⟨_, row, -, hrow, rfl⟩ := yields_oneRow h
      have hall := halternatives hrows ((Internal.restore hsave).cons hfail) (yields_singleton hrow)
      rw [List.flatMap_cons, List.flatMap_nil, List.append_nil] at hall
      exact (Internal.keep hsave).cons hall
    · obtain ⟨_, rows, -, hyields, rfl⟩ := yields_rows (fun a ha => hsingle ⟨a, ha⟩) h
      exact (Internal.keep hsave).cons
        (.single (internal_choiceLoop _ (halternatives hrows (.cycle _) hyields) hfail))

theorem internal_alternatives : ∀ (as : List Alternative) ⦃fail : List Stmt⦄ ⦃own : String⦄
    ⦃rows : List (List Stmt)⦄ ⦃sc sc' : Scope⦄, Resolved.alternativesSilent as →
    Internal (stmtsBindings fail) → Yields (lowerAlternatives own none fail as) sc rows sc' →
      Internal (rows.flatMap stmtsBindings)
  | [] => fun _ _ _ _ _ _ _ h => by
    obtain ⟨rfl, rfl⟩ := yields_noAlternatives h
    exact .nil
  | a :: rest => fun _ _ _ _ _ hsilent hfail h => by
    rw [Resolved.alternativesSilent] at hsilent
    obtain ⟨_, row, rows, hrow, hrows, rfl⟩ := yields_alternatives h
    rw [List.flatMap_cons]
    exact (internal_alternative a hsilent.1 hfail hrow).append
      (internal_alternatives rest hsilent.2 hfail hrows)

theorem internal_alternative : ∀ (a : Alternative) ⦃fail : List Stmt⦄ ⦃own : String⦄
    ⦃row : List Stmt⦄ ⦃sc sc' : Scope⦄, a.Silent → Internal (stmtsBindings fail) →
    Yields (lowerAlternative own none fail a) sc row sc' → Internal (stmtsBindings row)
  | ⟨elements, value, type⟩ => fun _ _ _ _ _ hsilent hfail h => by
    rw [Alternative.Silent] at hsilent
    obtain ⟨body, hbody, rfl⟩ := yields_alternative h
    obtain ⟨hnone, hinternal⟩ := internal_elements elements hsilent.2 hfail hbody
    -- a row without captures has no block of its own, and its value goes nowhere
    rw [stmtsBindings_captureBlock, Alternative.captures, hnone]
    exact hinternal.concat .nil

/-- Elements without captures. -/
theorem internal_elements : ∀ (elements : List Element) ⦃fail stmts : List Stmt⦄ ⦃sc sc' : Scope⦄,
    Resolved.elementsSilent elements → Internal (stmtsBindings fail) →
    Yields (lowerElements fail elements) sc stmts sc' →
      (elements.filterMap fun e => e.capture) = [] ∧ Internal (stmtsBindings stmts)
  | [] => fun _ _ _ _ _ _ h => by
    obtain ⟨rfl, rfl⟩ := yields_noElements h
    exact ⟨rfl, .nil⟩
  | ⟨m, capture⟩ :: rest => fun _ _ _ _ hsilent hfail h => by
    rw [Resolved.elementsSilent] at hsilent
    obtain ⟨rfl, hm, hrest⟩ := hsilent
    obtain ⟨_, first, others, hfirst, hothers, rfl⟩ := yields_elements h
    have hmatcher := internal_matcher m hm hfail (yields_uncaptured hfirst)
    obtain ⟨hnone, hinternal⟩ := internal_elements rest hrest hfail hothers
    exact ⟨hnone, hmatcher.concat hinternal⟩

end

/-- Nothing remains of a match: the matcher keeps no value, and neither do its statements,
wherever it is lowered. -/
structure Unseen (m : Matcher) : Prop where
  silent : m.Silent
  statements : ∀ {fail stmts : List Stmt} {sc sc' : Scope}, Internal (stmtsBindings fail) →
    Yields (lowerMatcher fail m) sc stmts sc' → ∃ names, stmtsBindings stmts = uses names ∧
      ∀ name ∈ names, Working name ∧ ¬ HoldsValue name

theorem unseen_of_silent {m : Matcher} (h : m.Silent) : Unseen m where
  silent := h
  statements hfail hyields := by
    obtain ⟨names, hnames, hworking⟩ := internal_matcher m h hfail hyields
    exact ⟨names, hnames, fun name hname => ⟨hworking name hname, (hworking name hname).not_holdsValue⟩⟩

/-- **Lookaheads and separators leave nothing behind.** In every rule that resolution makes, at
any depth, nothing in the body of a lookahead or in a separator keeps a value, and in a
separator there is no predicate; and the variables that the statements of a lookahead, of its
body or of a separator read or set are the cursor and those that lowering keeps for itself,
never a capture, the variable of a group or the result of the rule. -/
theorem unseen_lookaheads_and_separators {g : Grammar} {types : ActionTypes} {p : Parser}
    (h : Resolution.resolve g types = .ok p) : ∀ rule ∈ p.rules, ∀ m ∈ rule.body.matchers,
      (∀ negated body, m = .lookahead negated body → Unseen m ∧ Unseen body) ∧
      (∀ body min max s, m = .repeat body min max (some s) →
        Unseen s ∧ ∀ inner ∈ s.matchers, inner.isPredicate = false) := by
  intro rule hrule m hm
  obtain ⟨hlookahead, hseparator⟩ := Resolution.guarded_of_resolve h hrule m hm
  constructor
  · rintro negated body rfl
    have hbody := hlookahead negated body rfl
    exact ⟨unseen_of_silent hbody, unseen_of_silent hbody⟩
  · intro body min max s hs
    obtain ⟨hsilent, hplain⟩ := hseparator body min max s hs
    exact ⟨unseen_of_silent hsilent, hplain⟩

/-- Two letters behind a word, with a word in between; labels, plucks and a predicate stand in
a lookahead, and a pluck in the separator. -/
def watchful : Grammar where
  rules := [
    ⟨"Pair", true, [⟨[
      .item true none ⟨.ruleRef "Word", .one⟩,
      .check true (.lookahead ⟨.group [⟨[.item true (some "w") ⟨.ruleRef "Word", .one⟩,
        .check false (.predicate ⟨[], "", "res = cursor > 3"⟩)], none⟩], .one⟩),
      .item false none ⟨.anyChar, .separated 2
        (.group [⟨[.item true none ⟨.ruleRef "Word", .one⟩], none⟩])⟩], none⟩]⟩,
    ⟨"Word", false, [⟨[.item false none ⟨.class [.range 'a' 'z'], .oneOrMore⟩], none⟩]⟩]

def watchfulParser : Parser where
  rules := [
    ⟨"Pair", "peg_pair", true, .text, ⟨[⟨[
        ⟨.call ⟨"Word", "peg_word", .text⟩, some ⟨"capture_0_0", .text, .value⟩⟩,
        ⟨.lookahead true (.choice ⟨[⟨[⟨.call ⟨"Word", "peg_word", .text⟩, none⟩,
          ⟨.predicate false ⟨"pred_pair_0", []⟩, none⟩], .consumed, .text⟩], none⟩), none⟩,
        ⟨.repeat .anyChar (.count 2) (some (.count 2)) (some (.choice ⟨[
          ⟨[⟨.call ⟨"Word", "peg_word", .text⟩, none⟩], .consumed, .text⟩], none⟩)), none⟩],
      .capture "capture_0_0", .text⟩], some "res"⟩⟩,
    ⟨"Word", "peg_word", false, .text,
      ⟨[⟨[⟨.repeat (.class [.range 'a' 'z']) (.count 1) none none, none⟩], .consumed, .text⟩],
        some "res"⟩⟩]
  actions := [⟨.predicate, "pred_pair_0", [], .declared "logical", "res = cursor > 3"⟩]

theorem unseen_watchful : Resolution.resolve watchful {} = .ok watchfulParser ∧
    ∀ rule ∈ watchfulParser.rules, ∀ m ∈ rule.body.matchers,
      (∀ negated body, m = .lookahead negated body → Unseen m ∧ Unseen body) ∧
      (∀ body min max s, m = .repeat body min max (some s) →
        Unseen s ∧ ∀ inner ∈ s.matchers, inner.isPredicate = false) := by
  have hresolve : Resolution.resolve watchful {} = .ok watchfulParser := by cbv
  exact ⟨hresolve, unseen_lookaheads_and_separators hresolve⟩

end PegCompiler.Lowering
