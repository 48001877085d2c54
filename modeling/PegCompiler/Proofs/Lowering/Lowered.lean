import PegCompiler.Proofs.Lowering.Elements
import PegCompiler.Proofs.Lowering.Loops
/-
  What lowering makes of a construct, read back: the number that it draws, the variables
  that are in the scope by then, and the statements around those of what it is made of.
-/

namespace PegCompiler.Lowering

open Resolved (ActionCall Alternative AltResult Bound Choice ClassTest Element Matcher RuleCall)
open Target (Stmt)

variable {sc sc' : Scope} {fail : List Stmt}

theorem yields_fresh {k : Nat} (h : Yields fresh sc k sc') :
    k = sc.counter + 1 ∧ sc' = sc.fresh.2 := by
  obtain ⟨rfl, rfl⟩ := Prod.mk.inj (Yields.modifyGet_iff.mp h)
  exact ⟨rfl, rfl⟩

theorem yields_integer {w var : String} {k : Nat} (h : Yields (integer w k) sc var sc') :
    var = numbered w k ∧ sc' = (sc.integer w k).2 := by
  obtain ⟨rfl, rfl⟩ := Prod.mk.inj (Yields.modifyGet_iff.mp h)
  exact ⟨rfl, rfl⟩

/-! ## Choices -/

/-- The scope in which the alternatives of a choice are lowered. -/
structure Entered (result : Option String) (sc sc' : Scope) : Prop where
  counter : sc'.counter = sc.counter + 1
  grows : Grows sc sc'
  save : numbered "save" (sc.counter + 1) ∈ sc'.names
  result : ∀ var, result = some var → var = Resolved.resultVar ∨ var ∈ sc'.names

theorem declare_counter (sc : Scope) (name : String) (type : Resolved.ValueType) :
    (sc.declare name type).counter = sc.counter := by
  unfold Scope.declare
  split <;> rfl

/-- A choice without a variable, or with that of the function, declares none. -/
theorem yields_declareResult {result : Option String}
    (h : Yields (declareResult result) sc () sc') :
    (∀ var, result = some var → var = Resolved.resultVar) ∧ sc' = sc ∨
      ∃ var, result = some var ∧ var ≠ Resolved.resultVar ∧ sc' = sc.declare var .text := by
  cases result with
  | none =>
    obtain ⟨-, rfl⟩ := Yields.pure_iff.mp h
    exact .inl ⟨fun _ h => (nomatch h), rfl⟩
  | some var =>
    unfold declareResult at h
    dsimp only at h
    split at h
    next heq =>
      obtain ⟨-, rfl⟩ := Yields.pure_iff.mp h
      exact .inl ⟨fun _ h => Option.some.inj h ▸ eq_of_beq heq, rfl⟩
    next hne =>
      obtain rfl := Yields.modify_iff.mp h
      exact .inr ⟨var, rfl, by simpa using hne, rfl⟩

/-- A choice draws one number, whatever its result is named. -/
theorem yields_enter {result : Option String} {r : Nat × String}
    (h : Yields (enterChoice result) sc r sc') :
    r = (sc.counter + 1, numbered "save" (sc.counter + 1)) ∧ sc'.counter = sc.counter + 1 ∧
      Yields (declareResult result) (sc.fresh.2.integer "save" (sc.counter + 1)).2 () sc' := by
  unfold enterChoice at h
  simp only [Yields.bind_iff, Yields.pure_iff] at h
  obtain ⟨k, sc₁, hfresh, save, sc₂, hsave, ⟨⟩, sc₃, hdeclare, rfl, rfl⟩ := h
  obtain ⟨rfl, rfl⟩ := yields_fresh hfresh
  obtain ⟨rfl, rfl⟩ := yields_integer hsave
  refine ⟨rfl, ?_, hdeclare⟩
  rcases yields_declareResult hdeclare with ⟨-, rfl⟩ | ⟨var, -, -, rfl⟩
  · rfl
  · exact declare_counter ..

theorem yields_enterChoice {result : Option String} (hnamed : ResultNamed result)
    {r : Nat × String} (h : Yields (enterChoice result) sc r sc') :
    r = (sc.counter + 1, numbered "save" (sc.counter + 1)) ∧ Entered result sc sc' := by
  have hgrows := (Makes.enterChoice hnamed).grows h
  obtain ⟨rfl, hcounter, hdeclare⟩ := yields_enter h
  have hmem := integer_mem sc.fresh.2 "save" (sc.counter + 1)
  refine ⟨rfl, ?_⟩
  rcases yields_declareResult hdeclare with ⟨hfunction, rfl⟩ | ⟨var, rfl, hne, rfl⟩
  · exact ⟨hcounter, hgrows, hmem, fun var hvar => .inl (hfunction var hvar)⟩
  · have hword := (hnamed var rfl).resolve_left hne
    refine ⟨hcounter, hgrows, (Grows.declare _ _ hword).names hmem, fun other hother => .inr ?_⟩
    obtain rfl := Option.some.inj hother
    exact declare_mem ..

theorem yields_noAlternatives {own : String} {result : Option String} {rows : List (List Stmt)}
    (h : Yields (lowerAlternatives own result fail []) sc rows sc') : sc' = sc ∧ rows = [] := by
  rw [lowerAlternatives] at h
  obtain ⟨rfl, rfl⟩ := Yields.pure_iff.mp h
  exact ⟨rfl, rfl⟩

theorem yields_alternatives {a : Alternative} {rest : List Alternative} {own : String}
    {result : Option String} {rows : List (List Stmt)}
    (h : Yields (lowerAlternatives own result fail (a :: rest)) sc rows sc') :
    ∃ sc₁ row more, Yields (lowerAlternative own result fail a) sc row sc₁ ∧
      Yields (lowerAlternatives own result fail rest) sc₁ more sc' ∧ rows = row :: more := by
  rw [lowerAlternatives] at h
  simp only [Yields.bind_iff, Yields.pure_iff] at h
  obtain ⟨row, sc₁, hrow, more, _, hmore, rfl, rfl⟩ := h
  exact ⟨sc₁, row, more, hrow, hmore, rfl⟩

theorem yields_alternative {elements : List Element} {value : AltResult}
    {type : Resolved.ValueType} {own : String} {result : Option String} {row : List Stmt}
    (h : Yields (lowerAlternative own result fail ⟨elements, value, type⟩) sc row sc') :
    ∃ body, Yields (lowerElements fail elements) sc body sc' ∧
      row = captureBlock (Alternative.captures ⟨elements, value, type⟩)
        (body ++ assignResult own value result) := by
  rw [lowerAlternative] at h
  simp only [Yields.bind_iff, Yields.pure_iff] at h
  obtain ⟨body, _, hbody, rfl, rfl⟩ := h
  exact ⟨body, hbody, rfl⟩

theorem yields_singleton {a : Alternative} {result : Option String} {own : String}
    {row : List Stmt} (h : Yields (lowerAlternative own result fail a) sc row sc') :
    Yields (lowerAlternatives own result fail [a]) sc [row] sc' := by
  rw [lowerAlternatives, Yields.bind_iff]
  refine ⟨row, sc', h, ?_⟩
  rw [lowerAlternatives]
  simp

theorem yields_oneRow {a : Alternative} {result : Option String} {r : List Stmt × String}
    (h : Yields (lowerChoice fail ⟨[a], result⟩) sc r sc') :
    ∃ sc₁ row,
      Yields (enterChoice result) sc (sc.counter + 1, numbered "save" (sc.counter + 1)) sc₁ ∧
      Yields (lowerAlternative (numbered "save" (sc.counter + 1)) result
        (restore (numbered "save" (sc.counter + 1)) :: fail) a) sc₁ row sc' ∧
      r = (keep (numbered "save" (sc.counter + 1)) :: row, numbered "save" (sc.counter + 1)) := by
  rw [lowerChoice] at h
  simp only [Yields.bind_iff, Yields.pure_iff] at h
  obtain ⟨_, sc₁, henter, row, sc₂, hrow, rfl, rfl⟩ := h
  obtain ⟨rfl, -⟩ := yields_enter henter
  exact ⟨sc₁, row, henter, hrow, rfl⟩

theorem yields_rows {as : List Alternative} (has : ∀ a, as ≠ [a]) {result : Option String}
    {r : List Stmt × String} (h : Yields (lowerChoice fail ⟨as, result⟩) sc r sc') :
    ∃ sc₁ rows,
      Yields (enterChoice result) sc (sc.counter + 1, numbered "save" (sc.counter + 1)) sc₁ ∧
      Yields (lowerAlternatives (numbered "save" (sc.counter + 1)) result
        [.cycle (some (numbered "alt" (sc.counter + 1)))] as)
        (sc₁.integer "i" (sc.counter + 1)).2 rows sc' ∧
      r = ([keep (numbered "save" (sc.counter + 1)),
        choiceLoop (numbered "alt" (sc.counter + 1)) (numbered "i" (sc.counter + 1))
          (numbered "save" (sc.counter + 1)) rows fail], numbered "save" (sc.counter + 1)) := by
  rw [lowerChoice] at h
  · simp only [Yields.bind_iff, Yields.pure_iff] at h
    obtain ⟨_, sc₁, henter, i, sc₂, hi, rows, sc₃, hrows, rfl, rfl⟩ := h
    obtain ⟨rfl, -⟩ := yields_enter henter
    obtain ⟨rfl, rfl⟩ := yields_integer hi
    exact ⟨sc₁, rows, henter, hrows, rfl⟩
  · exact fun a he => has a he

theorem yields_single {a : Alternative} {result : Option String} (hnamed : ResultNamed result)
    {r : List Stmt × String} (h : Yields (lowerChoice fail ⟨[a], result⟩) sc r sc') :
    ∃ sc₁ row,
      Yields (enterChoice result) sc (sc.counter + 1, numbered "save" (sc.counter + 1)) sc₁ ∧
      Entered result sc sc₁ ∧
      Yields (lowerAlternative (numbered "save" (sc.counter + 1)) result
        (restore (numbered "save" (sc.counter + 1)) :: fail) a) sc₁ row sc' ∧
      r = (keep (numbered "save" (sc.counter + 1)) :: row, numbered "save" (sc.counter + 1)) := by
  obtain ⟨sc₁, row, henter, hrow, hr⟩ := yields_oneRow h
  exact ⟨sc₁, row, henter, (yields_enterChoice hnamed henter).2, hrow, hr⟩

theorem yields_several {as : List Alternative} (has : ∀ a, as ≠ [a]) {result : Option String}
    (hnamed : ResultNamed result) {r : List Stmt × String}
    (h : Yields (lowerChoice fail ⟨as, result⟩) sc r sc') :
    ∃ sc₁ rows,
      Yields (enterChoice result) sc (sc.counter + 1, numbered "save" (sc.counter + 1)) sc₁ ∧
      Entered result sc sc₁ ∧
      Yields (lowerAlternatives (numbered "save" (sc.counter + 1)) result
        [.cycle (some (numbered "alt" (sc.counter + 1)))] as)
        (sc₁.integer "i" (sc.counter + 1)).2 rows sc' ∧
      r = ([keep (numbered "save" (sc.counter + 1)),
        choiceLoop (numbered "alt" (sc.counter + 1)) (numbered "i" (sc.counter + 1))
          (numbered "save" (sc.counter + 1)) rows fail], numbered "save" (sc.counter + 1)) := by
  obtain ⟨sc₁, rows, henter, hrows, hr⟩ := yields_rows has h
  exact ⟨sc₁, rows, henter, (yields_enterChoice hnamed henter).2, hrows, hr⟩

/-! ## Matchers -/

/-- A class tests its parts one after another, and a single part by itself. -/
theorem classStmt_cases {tests : List ClassTest} {stmt : Stmt}
    (h : classStmt fail tests = .ok stmt) :
    (∃ test, tests = [test] ∧ stmt = failUnless (classTest test) fail) ∨
      ∃ test rest, tests = test :: rest ∧
        stmt = .cond (classTest test) [] (rest.map fun t => (classTest t, [])) (some fail) := by
  unfold classStmt at h
  split at h
  next => cases h
  next test => exact .inl ⟨test, rfl, (Except.ok.inj h).symm⟩
  next test rest _ => exact .inr ⟨test, rest, rfl, (Except.ok.inj h).symm⟩

theorem callRule_eq {call : RuleCall} {into : String} {stmt : Stmt}
    (h : callRule call into fail = .ok stmt) :
    stmt = failUnless (.call call.function [.var into]) fail := by
  unfold callRule at h
  split at h
  · cases h
  · exact (Except.ok.inj h).symm

theorem yields_literal {value : String} {stmts : List Stmt}
    (h : Yields (lowerMatcher fail (.literal value)) sc stmts sc') :
    sc' = sc ∧ stmts = [failUnless (.call acceptString [.str value]) fail] := by
  rw [lowerMatcher] at h
  obtain ⟨rfl, rfl⟩ := Yields.pure_iff.mp h
  exact ⟨rfl, rfl⟩

theorem yields_class {tests : List ClassTest} {stmts : List Stmt}
    (h : Yields (lowerMatcher fail (.class tests)) sc stmts sc') :
    sc' = sc ∧ ∃ stmt, classStmt fail tests = .ok stmt ∧ stmts = [stmt] := by
  rw [lowerMatcher] at h
  simp only [Yields.bind_iff, Yields.pure_iff] at h
  obtain ⟨stmt, _, hlift, rfl, rfl⟩ := h
  obtain ⟨hstmt, rfl⟩ := Yields.lift_iff.mp hlift
  exact ⟨rfl, stmt, hstmt, rfl⟩

theorem yields_anyChar {stmts : List Stmt} (h : Yields (lowerMatcher fail .anyChar) sc stmts sc') :
    sc' = sc ∧ stmts = [failUnless (.call acceptAny []) fail] := by
  rw [lowerMatcher] at h
  obtain ⟨rfl, rfl⟩ := Yields.pure_iff.mp h
  exact ⟨rfl, rfl⟩

theorem yields_endOfInput {stmts : List Stmt}
    (h : Yields (lowerMatcher fail .endOfInput) sc stmts sc') :
    sc' = sc ∧ stmts = [failUnless (.call acceptEnd []) fail] := by
  rw [lowerMatcher] at h
  obtain ⟨rfl, rfl⟩ := Yields.pure_iff.mp h
  exact ⟨rfl, rfl⟩

theorem yields_predicate {negated : Bool} {call : ActionCall} {stmts : List Stmt}
    (h : Yields (lowerMatcher fail (.predicate negated call)) sc stmts sc') :
    sc' = sc ∧ stmts = [failOn negated (actionCall call) fail] := by
  rw [lowerMatcher] at h
  obtain ⟨rfl, rfl⟩ := Yields.pure_iff.mp h
  exact ⟨rfl, rfl⟩

theorem yields_call {call : RuleCall} {stmts : List Stmt}
    (h : Yields (lowerMatcher fail (.call call)) sc stmts sc') :
    sc' = (sc.scratch call.resultType).2 ∧
      stmts = [failUnless (.call call.function [.var (sc.scratch call.resultType).1]) fail] := by
  rw [lowerMatcher] at h
  simp only [Yields.bind_iff, Yields.pure_iff, Yields.modifyGet_iff] at h
  obtain ⟨var, sc₁, hscratch, stmt, sc₂, hlift, rfl, rfl⟩ := h
  obtain ⟨hstmt, hsc⟩ := Yields.lift_iff.mp hlift
  rw [hscratch, callRule_eq hstmt]
  exact ⟨hsc.symm, rfl⟩

theorem yields_choice {c : Choice} {stmts : List Stmt}
    (h : Yields (lowerMatcher fail (.choice c)) sc stmts sc') :
    ∃ save, Yields (lowerChoice fail c) sc (stmts, save) sc' := by
  rw [lowerMatcher] at h
  simp only [Yields.bind_iff, Yields.pure_iff] at h
  obtain ⟨⟨stmts', save⟩, sc₁, hchoice, rfl, rfl⟩ := h
  exact ⟨save, hchoice⟩

theorem yields_of_choice {c : Choice} {stmts : List Stmt} {save : String}
    (h : Yields (lowerChoice fail c) sc (stmts, save) sc') :
    Yields (lowerMatcher fail (.choice c)) sc stmts sc' := by
  rw [lowerMatcher]
  simp only [Yields.bind_iff, Yields.pure_iff]
  exact ⟨_, sc', h, rfl, rfl⟩

theorem yields_lookahead {negated : Bool} {m : Matcher} {stmts : List Stmt}
    (h : Yields (lowerMatcher fail (.lookahead negated m)) sc stmts sc') :
    ∃ body, Yields (lowerMatcher [.exit (some (numbered "look" (sc.counter + 1)))] m)
        ((sc.fresh.2.integer "save" (sc.counter + 1)).2.logical "ok" (sc.counter + 1)).2 body sc' ∧
      stmts = [keep (numbered "save" (sc.counter + 1)),
        .assign (numbered "ok" (sc.counter + 1)) (.logical false),
        .block (some (numbered "look" (sc.counter + 1))) []
          (body ++ [.assign (numbered "ok" (sc.counter + 1)) (.logical true)]),
        restore (numbered "save" (sc.counter + 1)),
        failOn negated (.var (numbered "ok" (sc.counter + 1))) fail] := by
  rw [lowerMatcher] at h
  simp only [Yields.bind_iff, Yields.pure_iff, Yields.modifyGet_iff] at h
  obtain ⟨k, sc₁, hfresh, save, sc₂, hsave, ok, sc₃, hok, body, sc₄, hbody, rfl, rfl⟩ := h
  obtain ⟨rfl, rfl⟩ := yields_fresh hfresh
  obtain ⟨rfl, rfl⟩ := yields_integer hsave
  obtain ⟨rfl, rfl⟩ := Prod.mk.inj hok
  exact ⟨body, hbody, rfl⟩

/-! ## Elements -/

theorem yields_noElements {stmts : List Stmt} (h : Yields (lowerElements fail []) sc stmts sc') :
    sc' = sc ∧ stmts = [] := by
  rw [lowerElements] at h
  obtain ⟨rfl, rfl⟩ := Yields.pure_iff.mp h
  exact ⟨rfl, rfl⟩

theorem yields_elements {e : Element} {rest : List Element} {stmts : List Stmt}
    (h : Yields (lowerElements fail (e :: rest)) sc stmts sc') :
    ∃ sc₁ first others, Yields (lowerElement fail e) sc first sc₁ ∧
      Yields (lowerElements fail rest) sc₁ others sc' ∧ stmts = first ++ others := by
  rw [lowerElements] at h
  simp only [Yields.bind_iff, Yields.pure_iff] at h
  obtain ⟨first, sc₁, hfirst, others, _, hothers, rfl, rfl⟩ := h
  exact ⟨sc₁, first, others, hfirst, hothers, rfl⟩

theorem yields_uncaptured {m : Matcher} {stmts : List Stmt}
    (h : Yields (lowerElement fail ⟨m, none⟩) sc stmts sc') :
    Yields (lowerMatcher fail m) sc stmts sc' := by
  rwa [lowerElement] at h

theorem yields_capturedCall {call : RuleCall} {capture : Resolved.Capture} {stmts : List Stmt}
    (hsource : capture.source = .value)
    (h : Yields (lowerElement fail ⟨.call call, some capture⟩) sc stmts sc') :
    sc' = sc ∧ stmts = [failUnless (.call call.function [.var capture.var]) fail] := by
  rw [lowerElement_call _ _ hsource] at h
  simp only [Yields.bind_iff, Yields.pure_iff] at h
  obtain ⟨stmt, _, hlift, rfl, rfl⟩ := h
  obtain ⟨hstmt, rfl⟩ := Yields.lift_iff.mp hlift
  exact ⟨rfl, by rw [callRule_eq hstmt]⟩

theorem yields_capturedGroup {as : List Alternative} {group : String} {capture : Resolved.Capture}
    {stmts : List Stmt} (hsource : capture.source = .value)
    (h : Yields (lowerElement fail ⟨.choice ⟨as, some group⟩, some capture⟩) sc stmts sc') :
    ∃ body save, Yields (lowerChoice fail ⟨as, some group⟩) sc (body, save) sc' ∧
      stmts = body ++ [.assign capture.var (.var group)] := by
  rw [lowerElement_group _ _ _ hsource] at h
  simp only [Yields.bind_iff, Yields.pure_iff] at h
  obtain ⟨⟨body, save⟩, _, hchoice, rfl, rfl⟩ := h
  exact ⟨body, save, hchoice, rfl⟩

/-- What an element captured by the input that it consumed is lowered to. -/
theorem yields_text {m : Matcher} {var : String} {stmts : List Stmt}
    (h : Yields (do
      let k ← fresh
      let mark ← integer "mark" k
      let stmts ← lowerMatcher fail m
      pure ([keep mark] ++ stmts ++ [.assign var (consumedSince mark)])) sc stmts sc') :
    ∃ body, Yields (lowerMatcher fail m) (sc.fresh.2.integer "mark" (sc.counter + 1)).2 body sc' ∧
      stmts = [keep (numbered "mark" (sc.counter + 1))] ++ body ++
        [.assign var (consumedSince (numbered "mark" (sc.counter + 1)))] := by
  simp only [Yields.bind_iff, Yields.pure_iff] at h
  obtain ⟨k, sc₁, hfresh, mark, sc₂, hmark, body, sc₃, hbody, rfl, rfl⟩ := h
  obtain ⟨rfl, rfl⟩ := yields_fresh hfresh
  obtain ⟨rfl, rfl⟩ := yields_integer hmark
  exact ⟨body, hbody, rfl⟩

theorem yields_capturedText {m : Matcher} {capture : Resolved.Capture} {stmts : List Stmt}
    (hsource : capture.source = .text)
    (h : Yields (lowerElement fail ⟨m, some capture⟩) sc stmts sc') :
    ∃ body, Yields (lowerMatcher fail m) (sc.fresh.2.integer "mark" (sc.counter + 1)).2 body sc' ∧
      stmts = [keep (numbered "mark" (sc.counter + 1))] ++ body ++
        [.assign capture.var (consumedSince (numbered "mark" (sc.counter + 1)))] := by
  rw [lowerElement_text _ _ hsource] at h
  exact yields_text h

/-- The ways in which a captured element is lowered, also one that no resolution makes. -/
theorem yields_captured {m : Matcher} {capture : Resolved.Capture} {stmts : List Stmt}
    (h : Yields (lowerElement fail ⟨m, some capture⟩) sc stmts sc') :
    (∃ call, m = .call call ∧ sc' = sc ∧
      stmts = [failUnless (.call call.function [.var capture.var]) fail]) ∨
    (∃ c group save body, m = .choice c ∧ Yields (lowerChoice fail c) sc (body, save) sc' ∧
      stmts = body ++ [.assign capture.var (.var group)]) ∨
    ∃ body, Yields (lowerMatcher fail m) (sc.fresh.2.integer "mark" (sc.counter + 1)).2 body sc' ∧
      stmts = [keep (numbered "mark" (sc.counter + 1))] ++ body ++
        [.assign capture.var (consumedSince (numbered "mark" (sc.counter + 1)))] := by
  by_cases hother : (∃ call, m = .call call) ∨ ∃ as group, m = .choice ⟨as, some group⟩
  · cases hsource : capture.source with
    | text => exact .inr (.inr (yields_capturedText hsource h))
    | value =>
      rcases hother with ⟨call, rfl⟩ | ⟨as, group, rfl⟩
      · obtain ⟨rfl, rfl⟩ := yields_capturedCall hsource h
        exact .inl ⟨call, rfl, rfl, rfl⟩
      · obtain ⟨body, save, hchoice, rfl⟩ := yields_capturedGroup hsource h
        exact .inr (.inl ⟨_, group, save, body, rfl, hchoice, rfl⟩)
  · rw [not_or, not_exists, not_exists] at hother
    rw [lowerElement] at h
    · exact .inr (.inr (yields_text h))
    · rintro call var type rfl -
      exact hother.1 call rfl
    · rintro as group var type rfl -
      exact hother.2 as ⟨group, rfl⟩

/-! ## Repetitions -/

theorem yields_noSeparator {between : Option (List Stmt)}
    (h : Yields (lowerSeparator fail none) sc between sc') : sc' = sc ∧ between = none := by
  rw [lowerSeparator] at h
  obtain ⟨rfl, rfl⟩ := Yields.pure_iff.mp h
  exact ⟨rfl, rfl⟩

theorem yields_separator {m : Matcher} {between : Option (List Stmt)}
    (h : Yields (lowerSeparator fail (some m)) sc between sc') :
    ∃ stmts, Yields (lowerMatcher fail m) sc stmts sc' ∧ between = some stmts := by
  rw [lowerSeparator] at h
  obtain ⟨stmts, hstmts, rfl⟩ := Yields.map_iff.mp h
  exact ⟨stmts, hstmts, rfl⟩

/-- The scope behind the variable of a bound. -/
def boundScope (w : String) (k : Nat) (b : Option Bound) (sc : Scope) : Scope :=
  match b with
  | some (.code _) => (sc.integer w k).2
  | _ => sc

theorem yields_keepBound {w : String} {k : Nat} {b : Option Bound} {r : String × List Stmt}
    (h : Yields (keepBound w k b) sc r sc') : r = boundKept w k b ∧ sc' = boundScope w k b sc := by
  match b with
  | none =>
    obtain ⟨rfl, rfl⟩ := Yields.pure_iff.mp h
    exact ⟨rfl, rfl⟩
  | some (.count _) =>
    obtain ⟨rfl, rfl⟩ := Yields.pure_iff.mp h
    exact ⟨rfl, rfl⟩
  | some (.code expr) =>
    unfold keepBound at h
    simp only [Yields.bind_iff, Yields.pure_iff, Yields.modifyGet_iff] at h
    obtain ⟨var, sc₁, hvar, rfl, rfl⟩ := h
    obtain ⟨rfl, rfl⟩ := Prod.mk.inj hvar
    exact ⟨rfl, rfl⟩

theorem Grows.bound (sc : Scope) (w : String) (k : Nat) (b : Option Bound) :
    Grows sc (boundScope w k b sc) := by
  unfold boundScope
  split
  · exact .integer sc w k
  · exact .refl sc

theorem boundScope_counter (sc : Scope) (w : String) (k : Nat) (b : Option Bound) :
    (boundScope w k b sc).counter = sc.counter := by
  unfold boundScope
  split <;> rfl

theorem boundScope_mem {w : String} {k : Nat} {b : Option Bound} {expr : String}
    (h : b = some (.code expr)) (sc : Scope) : numbered w k ∈ (boundScope w k b sc).names := by
  subst h
  exact integer_mem sc w k

theorem RepeatVars.mono {full more : Scope} {k : Nat} {min : Bound} {max : Option Bound}
    (h : RepeatVars full k min max) (hsub : full.names ⊆ more.names) :
    RepeatVars more k min max where
  count := hsub h.count
  mark := hsub h.mark
  lo expr he := hsub (h.lo expr he)
  hi expr he := hsub (h.hi expr he)
  save he := hsub (h.save he)

/-- The scope behind the variable for the cursor in front of a repetition. -/
def savedScope (k : Nat) (min : Bound) (sc : Scope) : Scope :=
  if needsCheck min then (sc.integer "save" k).2 else sc

/-- The scope in which the parts of a repetition are lowered. -/
def repeatScope (sc : Scope) (min : Bound) (max : Option Bound) : Scope :=
  let k := sc.counter + 1
  let bounds := boundScope "hi" k max (boundScope "lo" k (some min) (sc.fresh.2.integer "count" k).2)
  ((savedScope k min bounds).integer "mark" k).2

theorem repeatScope_spec (sc : Scope) (min : Bound) (max : Option Bound) :
    (repeatScope sc min max).counter = sc.counter + 1 ∧ Grows sc (repeatScope sc min max) ∧
      RepeatVars (repeatScope sc min max) (sc.counter + 1) min max := by
  unfold repeatScope
  dsimp only
  generalize hk : sc.counter + 1 = k
  let counted := (sc.fresh.2.integer "count" k).2
  let lower := boundScope "lo" k (some min) counted
  let upper := boundScope "hi" k max lower
  let saved := savedScope k min upper
  have hlower : Grows counted lower := .bound ..
  have hupper : Grows lower upper := .bound ..
  have hsaved : Grows upper saved := by
    unfold saved savedScope
    split
    · exact .integer ..
    · exact .refl _
  have hmark : Grows saved (saved.integer "mark" k).2 := .integer ..
  refine ⟨?_, ?_, ?_, ?_, ?_, ?_, ?_⟩
  · have hcounter : saved.counter = upper.counter := by
      unfold saved savedScope
      split <;> rfl
    show saved.counter = k
    rw [hcounter, boundScope_counter, boundScope_counter, ← hk]
    rfl
  · exact (Grows.fresh sc).trans ((Grows.integer ..).trans (hlower.trans (hupper.trans
      (hsaved.trans hmark))))
  · exact (hlower.trans (hupper.trans (hsaved.trans hmark))).names (integer_mem sc.fresh.2 "count" k)
  · exact integer_mem saved "mark" k
  · intro expr he
    exact (hupper.trans (hsaved.trans hmark)).names (boundScope_mem (by rw [he]) counted)
  · intro expr he
    exact (hsaved.trans hmark).names (boundScope_mem he lower)
  · intro hcheck
    have hmem : numbered "save" k ∈ saved.names := by
      unfold saved savedScope
      rw [if_pos hcheck]
      exact integer_mem upper "save" k
    exact hmark.names hmem

theorem yields_repeat {m : Matcher} {min : Bound} {max : Option Bound}
    {separator : Option Matcher} {stmts : List Stmt}
    (h : Yields (lowerMatcher fail (.repeat m min max separator)) sc stmts sc') :
    ∃ sc₁ between body,
      Yields (lowerSeparator [restore (numbered "mark" (sc.counter + 1)),
        .exit (some (numbered "rep" (sc.counter + 1)))] separator)
        (repeatScope sc min max) between sc₁ ∧
      Yields (lowerMatcher [restore (numbered "mark" (sc.counter + 1)),
        .exit (some (numbered "rep" (sc.counter + 1)))] m) sc₁ body sc' ∧
      stmts = (boundKept "lo" (sc.counter + 1) (some min)).2 ++
        (boundKept "hi" (sc.counter + 1) max).2 ++ savedStmts (sc.counter + 1) min ++
        [.assign (numbered "count" (sc.counter + 1)) (.int 0),
          repeatLoop (numbered "rep" (sc.counter + 1)) (numbered "count" (sc.counter + 1))
            (numbered "mark" (sc.counter + 1)) (boundKept "hi" (sc.counter + 1) max).1 max
            between body] ++ checkStmts (sc.counter + 1) min fail := by
  rw [lowerMatcher] at h
  simp only [Yields.bind_iff] at h
  obtain ⟨k, _, hfresh, count, _, hcount, lo, _, hlo, hi, _, hhi, h⟩ := h
  obtain ⟨rfl, rfl⟩ := yields_fresh hfresh
  obtain ⟨rfl, rfl⟩ := yields_integer hcount
  obtain ⟨rfl, rfl⟩ := yields_keepBound hlo
  obtain ⟨rfl, rfl⟩ := yields_keepBound hhi
  unfold repeatScope savedScope savedStmts checkStmts
  split at h
  next hcheck =>
    simp only [Yields.bind_iff, Yields.map_iff, Yields.pure_iff] at h
    obtain ⟨_, _, ⟨save, hsave, rfl⟩, mark, _, hmark, between, sc₁, hbetween, body, _, hbody, rfl,
      rfl⟩ := h
    obtain ⟨rfl, rfl⟩ := yields_integer hsave
    obtain ⟨rfl, rfl⟩ := yields_integer hmark
    simp only [if_pos hcheck]
    exact ⟨sc₁, between, body, hbetween, hbody, rfl⟩
  next hcheck =>
    simp only [Yields.bind_iff, Yields.pure_iff] at h
    obtain ⟨_, _, ⟨rfl, rfl⟩, mark, _, hmark, between, sc₁, hbetween, body, _, hbody, rfl, rfl⟩ := h
    obtain ⟨rfl, rfl⟩ := yields_integer hmark
    simp only [if_neg hcheck]
    exact ⟨sc₁, between, body, hbetween, hbody, rfl⟩

end PegCompiler.Lowering
