import PegCompiler.Proofs.Lowering.Backtracking
import PegCompiler.Proofs.Lowering.Modules
/-
  Lowering emits statements that backtrack. The induction is on the matcher; what it
  carries about failing statements (`Fails`) is that they hold no construct, jump only to
  constructs around the place where they are put, and return with the cursor set back. A
  construct hands failing statements of its own to what it is made of, so the condition
  on them is met anew at every depth. Nothing here needs a parser to be well-typed.
-/

namespace PegCompiler.Lowering

open Resolved (Alternative Bound Choice Element Matcher Parser Rule)
open Target (Construct Expr Function Stmt labelsOf sites stmtsPath)

/-- Statements that can stand inside some constructs and return with the cursor set back;
their labels have numbers above `lo` and up to `hi`. -/
structure Emits (save : String) (around : List Construct) (lo hi : Nat) (stmts : List Stmt) :
    Prop where
  placed : Placed around lo hi stmts
  returning : Returning save stmts

/-- Failing statements: they hold no construct, so they can be put in many places. -/
def Fails (save : String) (around : List Construct) (fail : List Stmt) : Prop :=
  ∀ n, Emits save around n n fail

namespace Emits

variable {save own : String} {around : List Construct} {lo mid hi n : Nat}
  {a b body fail stmts : List Stmt}

theorem nil (n : Nat) : Emits save around n n [] :=
  ⟨.nil n, .nil⟩

theorem append (ha : Emits save around lo mid a) (hb : Emits save around mid hi b) :
    Emits save around lo hi (a ++ b) :=
  ⟨ha.placed.append hb.placed, ha.returning.append hb.returning⟩

theorem mono {lo' hi' : Nat} (h : Emits save around lo hi stmts) (hlo : lo' ≤ lo) (hhi : hi ≤ hi') :
    Emits save around lo' hi' stmts :=
  ⟨h.placed.mono hlo hhi, h.returning⟩

theorem assign (lhs : String) (rhs : Expr) (n : Nat) : Emits save around n n [.assign lhs rhs] :=
  ⟨.assign lhs rhs n, .assign lhs rhs⟩

theorem exit {c : Construct} (hc : c ∈ around) (n : Nat) :
    Emits save around n n [.exit (some c.label)] :=
  ⟨.exit hc n, .exit _⟩

theorem when (test : Expr) (h : Emits save around lo hi stmts) :
    Emits save around lo hi [.when test stmts] :=
  ⟨h.placed.when test, h.returning.when test⟩

theorem failUnless (test : Expr) (h : Emits save around lo hi fail) :
    Emits save around lo hi [failUnless test fail] :=
  h.when (.not test)

theorem failOn (negated : Bool) (test : Expr) (h : Emits save around lo hi fail) :
    Emits save around lo hi [failOn negated test fail] := by
  cases negated with
  | true => exact h.when test
  | false => exact h.failUnless test

theorem class' {tests : List Resolved.ClassTest} {stmt : Stmt} (h : Emits save around lo hi fail)
    (hclass : classStmt fail tests = .ok stmt) : Emits save around lo hi [stmt] := by
  obtain ⟨test, -, rfl⟩ | ⟨test, rest, -, rfl⟩ := classStmt_cases hclass
  · exact h.failUnless _
  · have hrest : rest.map (fun t => (classTest t, ([] : List Stmt))) =
        (rest.map classTest).map fun t => (t, []) := by
      rw [List.map_map]
      rfl
    rw [hrest]
    exact ⟨h.placed.tests _ _, h.returning.tests _ _⟩

theorem captureBlock (captures : List Resolved.Capture) (h : Emits save around lo hi body) :
    Emits save around lo hi (captureBlock captures body) := by
  unfold Lowering.captureBlock
  split
  · exact h
  · exact ⟨h.placed.block _, h.returning.block _ _⟩

theorem assignResult (own : String) (value : Resolved.AltResult) (result : Option String) (n : Nat) :
    Emits save around n n (assignResult own value result) := by
  cases result with
  | none => exact .nil n
  | some var => exact .assign var _ n

end Emits

namespace Fails

variable {save own : String} {around : List Construct} {fail : List Stmt}

/-- Failing statements of a row: the cursor goes back to where its choice started. -/
theorem restore (hplaced : ∀ n, Placed around n n fail) (hbehind : ReturningBehind save own fail) :
    Fails save around (restore own :: fail) :=
  fun n => ⟨(Placed.assign _ _ n).append (hplaced n), .restore hbehind⟩

/-- Those inside an endless loop leave it. -/
theorem leave {c : Construct} (mark : String) :
    Fails save (c :: around) [Lowering.restore mark, .exit (some c.label)] :=
  fun n => (Emits.assign _ _ n).append (.exit (List.mem_cons_self ..) n)

/-- Those of an alternative go on to the next one. -/
theorem next (label : String) : Fails save (⟨label, true⟩ :: around) [.cycle (some label)] :=
  fun n => ⟨.cycle (c := ⟨label, true⟩) (List.mem_cons_self ..) rfl n, .cycle _⟩

end Fails

/-! ## Choices -/

section
variable {save : String} {around : List Construct} {fail : List Stmt} {sc sc' : Scope}

/-- The rows of a choice can stand in its loop. -/
structure EmitsRows (save : String) (around : List Construct) (lo hi : Nat)
    (rows : List (List Stmt)) : Prop where
  placed : AllPlaced around lo hi rows
  returning : ∀ row ∈ rows, Returning save row

/-- A choice, from its rows with whatever failing statements they are lowered. -/
theorem emits_choiceOf {as : List Alternative} {result : Option String}
    (hrows : ∀ {around fail own}, Fails save around fail → ∀ {sc sc' rows},
      Yields (lowerAlternatives own result fail as) sc rows sc' →
        EmitsRows save around sc.counter sc'.counter rows)
    (hplaced : ∀ n, Placed around n n fail)
    (hbehind : ReturningBehind save (numbered "save" (sc.counter + 1)) fail)
    {r : List Stmt × String} (h : Yields (lowerChoice fail ⟨as, result⟩) sc r sc') :
    Emits save around sc.counter sc'.counter r.1 := by
  by_cases hsingle : ∃ a, as = [a]
  · obtain ⟨a, rfl⟩ := hsingle
    obtain ⟨sc₁, row, henter, hrow, rfl⟩ := yields_oneRow h
    obtain ⟨-, hcounter, -⟩ := yields_enter henter
    have hemitted := hrows (.restore hplaced hbehind) (yields_singleton hrow)
    rw [hcounter] at hemitted
    have hemits : Emits save around sc.counter sc'.counter row :=
      ⟨hemitted.placed.placed.mono (Nat.le_succ _) (Nat.le_refl _),
        hemitted.returning row (List.mem_singleton_self row)⟩
    exact (Emits.assign _ _ sc.counter).append hemits
  · obtain ⟨sc₁, rows, henter, hyields, rfl⟩ := yields_rows (fun a ha => hsingle ⟨a, ha⟩) h
    obtain ⟨-, hcounter, -⟩ := yields_enter henter
    have hnext : Fails save (⟨numbered "alt" (sc.counter + 1), true⟩ :: around)
      [.cycle (some (numbered "alt" (sc.counter + 1)))] := .next _
    have hall := hrows hnext hyields
    have hstart : (sc₁.integer "i" (sc.counter + 1)).2.counter = sc.counter + 1 := hcounter
    rw [hstart] at hall
    refine ⟨.choiceLoop hall.placed (hplaced _) _, ?_⟩
    exact (Returning.assign _ _).append (.choiceLoop hall.returning hbehind)

/-! ## Repetitions and lookaheads -/

theorem emits_boundKept (w : String) (k : Nat) (b : Option Bound) (n : Nat) :
    Emits save around n n (boundKept w k b).2 := by
  unfold boundKept
  split
  · exact .assign _ _ n
  · exact .nil n

theorem emits_saved (k : Nat) (min : Bound) (n : Nat) : Emits save around n n (savedStmts k min) := by
  unfold savedStmts
  split
  · exact .assign _ _ n
  · exact .nil n

theorem emits_check (hfail : Fails save around fail) (k : Nat) (min : Bound) (n : Nat) :
    Emits save around n n (checkStmts k min fail) := by
  unfold checkStmts
  split
  · exact ((Emits.assign _ _ n).append (hfail n)).when _
  · exact .nil n

/-- The turns of a repetition, with what is done between two of them. -/
theorem emits_turns {k lo mid hi : Nat} (max : Option Bound) {between : Option (List Stmt)}
    {body : List Stmt} (hbetween : Emits save (⟨numbered "rep" k, true⟩ :: around) lo mid
      (between.getD []))
    (hbody : Emits save (⟨numbered "rep" k, true⟩ :: around) mid hi body) :
    Emits save (⟨numbered "rep" k, true⟩ :: around) lo hi
      (limitStmts k max ++ countedTurn k max between body) := by
  have hexit (n : Nat) : Emits save (⟨numbered "rep" k, true⟩ :: around) n n
      [.exit (some (numbered "rep" k))] :=
    .exit (c := ⟨numbered "rep" k, true⟩) (List.mem_cons_self ..) n
  have hlimit : Emits save (⟨numbered "rep" k, true⟩ :: around) lo lo (limitStmts k max) := by
    unfold limitStmts
    split
    · exact (hexit lo).when _
    · exact .nil lo
  have hprogress : Emits save (⟨numbered "rep" k, true⟩ :: around) hi hi (progressStmts k max) := by
    unfold progressStmts
    split
    · exact .nil hi
    · exact (hexit hi).when _
  have hseparator : Emits save (⟨numbered "rep" k, true⟩ :: around) lo mid
      (betweenStmts k between) := by
    cases between with
    | none => exact hbetween
    | some stmts => exact hbetween.when _
  have hcount := (Emits.assign (numbered "count" k)
    (.bin .add (.var (numbered "count" k)) (.int 1)) hi).append hprogress
  exact hlimit.append ((Emits.assign (numbered "mark" k) _ lo).append
    ((hseparator.append hbody).append hcount))

/-- A repetition, from its body and its separator. -/
theorem emits_repeat {m : Matcher} {min : Bound} {max : Option Bound} {separator : Option Matcher}
    (hseparator : ∀ {around fail}, Fails save around fail → ∀ {sc sc' between},
      Yields (lowerSeparator fail separator) sc between sc' →
        Emits save around sc.counter sc'.counter (between.getD []))
    (hm : ∀ {around fail}, Fails save around fail → ∀ {sc sc' stmts},
      Yields (lowerMatcher fail m) sc stmts sc' → Emits save around sc.counter sc'.counter stmts)
    (hfail : Fails save around fail) {stmts : List Stmt}
    (h : Yields (lowerMatcher fail (.repeat m min max separator)) sc stmts sc') :
    Emits save around sc.counter sc'.counter stmts := by
  obtain ⟨sc₁, between, body, hbetween, hbody, rfl⟩ := yields_repeat h
  have hstart := (repeatScope_spec sc min max).1
  have hleave : Fails save (⟨numbered "rep" (sc.counter + 1), true⟩ :: around)
      [restore (numbered "mark" (sc.counter + 1)), .exit (some (numbered "rep" (sc.counter + 1)))] :=
    .leave (c := ⟨numbered "rep" (sc.counter + 1), true⟩) _
  have hturns := emits_turns max (hseparator hleave hbetween) (hm hleave hbody)
  rw [hstart] at hturns
  have hloop : Emits save around sc.counter sc'.counter [repeatLoop (numbered "rep" (sc.counter + 1))
      (numbered "count" (sc.counter + 1)) (numbered "mark" (sc.counter + 1))
      (boundKept "hi" (sc.counter + 1) max).1 max between body] := by
    rw [repeatLoop_eq]
    exact ⟨.endless hturns.placed, hturns.returning.loop _ _⟩
  have hbounds : Emits save around sc.counter sc.counter
      ((boundKept "lo" (sc.counter + 1) (some min)).2 ++ (boundKept "hi" (sc.counter + 1) max).2) :=
    (emits_boundKept ..).append (emits_boundKept ..)
  exact ((hbounds.append (emits_saved _ _ _)).append ((Emits.assign _ _ _).append hloop)).append
    (emits_check hfail _ _ _)

/-- A lookahead, from its body. -/
theorem emits_lookahead {m : Matcher} {negated : Bool}
    (hm : ∀ {around fail}, Fails save around fail → ∀ {sc sc' stmts},
      Yields (lowerMatcher fail m) sc stmts sc' → Emits save around sc.counter sc'.counter stmts)
    (hfail : Fails save around fail) {stmts : List Stmt}
    (h : Yields (lowerMatcher fail (.lookahead negated m)) sc stmts sc') :
    Emits save around sc.counter sc'.counter stmts := by
  obtain ⟨body, hbody, rfl⟩ := yields_lookahead h
  have hleave : Fails save (⟨numbered "look" (sc.counter + 1), false⟩ :: around)
      [.exit (some (numbered "look" (sc.counter + 1)))] :=
    fun n => .exit (c := ⟨numbered "look" (sc.counter + 1), false⟩) (List.mem_cons_self ..) n
  have hinside := (hm hleave hbody).append
    (.assign (numbered "ok" (sc.counter + 1)) (.logical true) _)
  have hblock := (hinside.returning.block (some (numbered "look" (sc.counter + 1))) []).append
    (.assign cursorVar (.var (numbered "save" (sc.counter + 1))))
  have hall : Emits save around sc.counter sc'.counter _ :=
    ⟨.lookahead hinside.placed,
      (Returning.assign _ _).append ((Returning.assign _ _).append hblock)⟩
  exact hall.append ((hfail sc'.counter).failOn negated _)

/-! ## Elements -/

/-- A captured element, from its matcher. -/
theorem emits_captured {m : Matcher} {capture : Resolved.Capture}
    (hm : ∀ {sc sc' stmts}, Yields (lowerMatcher fail m) sc stmts sc' →
      Emits save around sc.counter sc'.counter stmts)
    (hfail : Fails save around fail) {stmts : List Stmt}
    (h : Yields (lowerElement fail ⟨m, some capture⟩) sc stmts sc') :
    Emits save around sc.counter sc'.counter stmts := by
  rcases yields_captured h with ⟨call, rfl, rfl, rfl⟩ |
    ⟨c, group, entry, body, rfl, hchoice, rfl⟩ | ⟨body, hbody, rfl⟩
  · exact (hfail _).failUnless _
  · exact (hm (yields_of_choice hchoice)).append (.assign _ _ _)
  · have hinside : Emits save around sc.counter sc'.counter body :=
      (hm hbody).mono (Nat.le_succ sc.counter) (Nat.le_refl _)
    exact ((Emits.assign _ _ _).append hinside).append (.assign _ _ _)

end

/-! ## Every lowering -/

section
variable {save : String}

mutual

theorem emits_matcher : ∀ (m : Matcher) {around : List Construct} {fail : List Stmt},
    Fails save around fail → ∀ {sc sc' : Scope} {stmts : List Stmt},
      Yields (lowerMatcher fail m) sc stmts sc' → Emits save around sc.counter sc'.counter stmts
  | .literal value, _, _, hfail, _, _, _, h => by
    obtain ⟨rfl, rfl⟩ := yields_literal h
    exact (hfail _).failUnless _
  | .class tests, _, _, hfail, _, _, _, h => by
    obtain ⟨rfl, stmt, hclass, rfl⟩ := yields_class h
    exact (hfail _).class' hclass
  | .anyChar, _, _, hfail, _, _, _, h => by
    obtain ⟨rfl, rfl⟩ := yields_anyChar h
    exact (hfail _).failUnless _
  | .endOfInput, _, _, hfail, _, _, _, h => by
    obtain ⟨rfl, rfl⟩ := yields_endOfInput h
    exact (hfail _).failUnless _
  | .call call, _, _, hfail, sc, _, _, h => by
    obtain ⟨rfl, rfl⟩ := yields_call h
    have hgrows : sc.counter ≤ (sc.scratch call.resultType).2.counter := (Grows.scratch ..).counter
    exact ((hfail sc.counter).failUnless _).mono (Nat.le_refl _) hgrows
  | .choice c, _, _, hfail, _, _, _, h => by
    obtain ⟨entry, hchoice⟩ := yields_choice h
    exact emits_choice c (fun n => (hfail n).placed) ((hfail 0).returning.anyBehind _) hchoice
  | .repeat m min max separator, _, _, hfail, _, _, _, h =>
    emits_repeat (fun hfail => emits_separator separator hfail) (fun hfail => emits_matcher m hfail)
      hfail h
  | .lookahead negated m, _, _, hfail, _, _, _, h =>
    emits_lookahead (fun hfail => emits_matcher m hfail) hfail h
  | .predicate negated call, _, _, hfail, _, _, _, h => by
    obtain ⟨rfl, rfl⟩ := yields_predicate h
    exact (hfail _).failOn negated _

theorem emits_separator : ∀ (separator : Option Matcher) {around : List Construct}
    {fail : List Stmt}, Fails save around fail → ∀ {sc sc' : Scope} {between : Option (List Stmt)},
      Yields (lowerSeparator fail separator) sc between sc' →
        Emits save around sc.counter sc'.counter (between.getD [])
  | none, _, _, _, _, _, _, h => by
    obtain ⟨rfl, rfl⟩ := yields_noSeparator h
    exact .nil _
  | some m, _, _, hfail, _, _, _, h => by
    obtain ⟨stmts, hstmts, rfl⟩ := yields_separator h
    exact emits_matcher m hfail hstmts

theorem emits_choice : ∀ (c : Choice) {around : List Construct} {fail : List Stmt} {sc sc' : Scope},
    (∀ n, Placed around n n fail) →
    ReturningBehind save (numbered "save" (sc.counter + 1)) fail →
    ∀ {r : List Stmt × String}, Yields (lowerChoice fail c) sc r sc' →
      Emits save around sc.counter sc'.counter r.1
  | ⟨as, _⟩, _, _, _, _, hplaced, hbehind, _, h =>
    emits_choiceOf (fun hfail => emits_alternatives as hfail) hplaced hbehind h

theorem emits_alternatives : ∀ (as : List Alternative) {around : List Construct} {fail : List Stmt}
    {own : String} {result : Option String}, Fails save around fail →
    ∀ {sc sc' : Scope} {rows : List (List Stmt)},
      Yields (lowerAlternatives own result fail as) sc rows sc' →
        EmitsRows save around sc.counter sc'.counter rows
  | [], _, _, _, _, _, _, _, _, h => by
    obtain ⟨rfl, rfl⟩ := yields_noAlternatives h
    exact ⟨.nil _, fun _ hrow => nomatch hrow⟩
  | a :: rest, _, _, _, _, hfail, _, _, _, h => by
    obtain ⟨sc₁, row, more, hrow, hmore, rfl⟩ := yields_alternatives h
    have hfirst := emits_alternative a hfail hrow
    have hrest := emits_alternatives rest hfail hmore
    exact ⟨.cons hfirst.placed hrest.placed,
      List.forall_mem_cons.mpr ⟨hfirst.returning, hrest.returning⟩⟩

theorem emits_alternative : ∀ (a : Alternative) {around : List Construct} {fail : List Stmt}
    {own : String} {result : Option String}, Fails save around fail →
    ∀ {sc sc' : Scope} {stmts : List Stmt},
      Yields (lowerAlternative own result fail a) sc stmts sc' →
        Emits save around sc.counter sc'.counter stmts
  | ⟨es, value, type⟩, _, _, own, result, hfail, _, _, _, h => by
    obtain ⟨body, hbody, rfl⟩ := yields_alternative h
    exact ((emits_elements es hfail hbody).append (.assignResult own value result _)).captureBlock _

theorem emits_elements : ∀ (es : List Element) {around : List Construct} {fail : List Stmt},
    Fails save around fail → ∀ {sc sc' : Scope} {stmts : List Stmt},
      Yields (lowerElements fail es) sc stmts sc' → Emits save around sc.counter sc'.counter stmts
  | [], _, _, _, _, _, _, h => by
    obtain ⟨rfl, rfl⟩ := yields_noElements h
    exact .nil _
  | e :: rest, _, _, hfail, _, _, _, h => by
    obtain ⟨sc₁, first, later, hfirst, hlater, rfl⟩ := yields_elements h
    exact (emits_element e hfail hfirst).append (emits_elements rest hfail hlater)

theorem emits_element : ∀ (e : Element) {around : List Construct} {fail : List Stmt},
    Fails save around fail → ∀ {sc sc' : Scope} {stmts : List Stmt},
      Yields (lowerElement fail e) sc stmts sc' → Emits save around sc.counter sc'.counter stmts
  | ⟨m, none⟩, _, _, hfail, _, _, _, h => emits_matcher m hfail (yields_uncaptured h)
  | ⟨m, some _⟩, _, _, hfail, _, _, _, h =>
    emits_captured (fun h => emits_matcher m hfail h) hfail h

end

end

/-! ## Functions of rules -/

/-- A choice keeps the cursor first, in the variable that it gives. -/
theorem keeps_choice {c : Choice} {fail : List Stmt} {sc sc' : Scope} {r : List Stmt × String}
    (h : Yields (lowerChoice fail c) sc r sc') :
    r.2 = numbered "save" (sc.counter + 1) ∧ ∃ rest, r.1 = keep r.2 :: rest := by
  obtain ⟨as, result⟩ := c
  by_cases hsingle : ∃ a, as = [a]
  · obtain ⟨a, rfl⟩ := hsingle
    obtain ⟨_, row, -, -, rfl⟩ := yields_oneRow h
    exact ⟨rfl, row, rfl⟩
  · obtain ⟨_, rows, -, -, rfl⟩ := yields_rows (fun a ha => hsingle ⟨a, ha⟩) h
    exact ⟨rfl, _, rfl⟩

/-- Statements of a function backtrack, where `entry` keeps the cursor for the outermost
choice. -/
structure Backtracks (entry : String) (body : List Stmt) : Prop where
  labels : Target.DistinctNames (labelsOf (sites body))
  jumps : ∀ site ∈ sites body, JumpsOut site
  choices : ∀ site ∈ sites body, StartsBack site
  lookaheads : ∀ site ∈ sites body, PutsBack site
  returns : Returning entry body

theorem Emits.backtracks {save : String} {hi : Nat} {body : List Stmt}
    (h : Emits save [] 0 hi body) : Backtracks save body where
  labels := (h.placed.labels [] [] []).distinct
  jumps site hsite := (h.placed.sound (List.Subset.refl []) site hsite).jump
  choices site hsite := (h.placed.sound (List.Subset.refl []) site hsite).choice
  lookaheads site hsite := (h.placed.sound (List.Subset.refl []) site hsite).lookahead
  returns := h.returning

/-- The function of a rule backtracks: its outermost choice, which makes up its body but
for the result and the test of the end, keeps the cursor in the variable that every return
puts it back from. -/
def RuleBacktracks (rule : Rule) (f : Function) : Prop :=
  ∃ choice entry scope, Yields (lowerChoice [.return] rule.body) {} (choice, entry) scope ∧
    (∃ rest, choice = keep entry :: rest) ∧
    f.body = .stmts (ruleStmts rule.start choice entry) ∧
    Backtracks entry (ruleStmts rule.start choice entry)

/-- The statements of a rule, which return with the cursor set back. -/
theorem emits_ruleStmts {rule : Rule} {choice : List Stmt} {entry : String} {scope : Scope}
    (h : Yields (lowerChoice [.return] rule.body) {} (choice, entry) scope) :
    Emits entry [] 0 scope.counter (ruleStmts rule.start choice entry) := by
  obtain ⟨hentry, -⟩ := keeps_choice h
  obtain rfl : entry = numbered "save" 1 := hentry
  have hchoice : Emits (numbered "save" 1) [] 0 scope.counter choice :=
    emits_choice rule.body (fun n => .return' n) (returningBehind_return _) h
  have hend : Emits (numbered "save" 1) [] scope.counter scope.counter
      (endTest rule.start (numbered "save" 1)) := by
    have hback : Fails (numbered "save" 1) [] [restore (numbered "save" 1), .return] :=
      .restore (fun n => .return' n) (returningBehind_return _)
    unfold endTest
    split
    · exact (hback _).when _
    · exact .nil _
  exact (Emits.assign acceptVar (.logical false) 0).append
    (hchoice.append (hend.append (.assign acceptVar (.logical true) _)))

theorem backtracks_rule {rule : Rule} {f : Function} (h : lowerRule rule = .ok f) :
    RuleBacktracks rule f := by
  obtain ⟨choice, entry, scope, hyields, rfl⟩ := yields_rule h
  exact ⟨choice, entry, scope, hyields, (keeps_choice hyields).2, rfl,
    (emits_ruleStmts hyields).backtracks⟩

/-- **Emitted statements backtrack.** In the function of every rule labels differ, jumps
name constructs around them, alternatives start where their choice did, lookaheads put the
cursor back, and whatever way the function returns, it has put the cursor back to where the
outermost choice started. -/
theorem backtracking_lower {p : Parser} {o : Options} {m : Target.Module} (h : lower p o = .ok m) :
    ∃ fs, m.functions = fs ++ p.actions.map lowerAction ∧
      List.Forall₂ (fun rule f => f.name = rule.function ∧ RuleBacktracks rule f) p.rules fs := by
  obtain ⟨fs, hlowered⟩ := lowered_of_lower h
  exact ⟨fs, hlowered.functions_eq,
    hlowered.rules.imp fun rule f hf => ⟨name_lowerRule hf, backtracks_rule hf⟩⟩

/-- A parser that no grammar resolves to: a capture takes a value from what has none, and
nobody reads the value of the rule. -/
def handWritten : Parser where
  rules := [⟨"S", "f", true, .text, ⟨[
    ⟨[⟨.repeat (.choice ⟨[⟨[⟨.literal "a", none⟩], .consumed, .text⟩,
          ⟨[⟨.anyChar, some ⟨"c", .text, .value⟩⟩], .capture "c", .text⟩], none⟩)
        (.count 1) none (some (.literal ",")), none⟩,
      ⟨.lookahead true (.literal ";"), none⟩], .consumed, .text⟩,
    ⟨[⟨.endOfInput, none⟩], .consumed, .text⟩], none⟩⟩]
  actions := []

/-- The labels in a function. -/
def functionLabels (f : Function) : List String :=
  match f.body with
  | .stmts body => labelsOf (sites body)
  | .verbatim _ => []

theorem handWritten_backtracks : ∃ m, lower handWritten {} = .ok m ∧
    (∃ fs, m.functions = fs ++ handWritten.actions.map lowerAction ∧
      List.Forall₂ (fun rule f => f.name = rule.function ∧ RuleBacktracks rule f)
        handWritten.rules fs) ∧
    m.functions.map functionLabels = [["alt_1", "rep_2", "alt_3", "look_5"]] := by
  have hmodules : moduleFailure {} = none :=
    moduleFailure_eq_none.mpr ⟨by decide, by decide, by cbv⟩
  have hfunctions : functionFailure [] (functionNames handWritten) = none := by decide
  have hlabels : ((handWritten.rules.mapM lowerRule).map fun fs => fs.map functionLabels).toOption =
      some [["alt_1", "rep_2", "alt_3", "look_5"]] := by decide +kernel
  obtain ⟨fs, hfs, hlabels⟩ := exists_ok_of_map hlabels
  have hm := lower_eq hmodules hfunctions hfs
  refine ⟨_, hm, backtracking_lower hm, ?_⟩
  show (fs ++ []).map functionLabels = _
  rw [List.append_nil]
  exact hlabels

end PegCompiler.Lowering
