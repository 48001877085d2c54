import PegCompiler.Proofs.Lowering.Runs
import PegCompiler.Proofs.Resolved.Typed
import PegCompiler.Proofs.Resolved.Within
/-
  Expressions of generated code. Each comes to what it stands for in the parser: a
  primitive match to where a terminal stops, a call of a rule's function to the outcome
  of the rule, a call of extracted code to the value of the action or predicate, and the
  value of a row to that of its captures.
-/

namespace PegCompiler.Target

open Semantics (stopChar stopEnd stopText)

/-- The result of a primitive match that stops somewhere, or nowhere: the cursor counts
from 1 and stays where it is when nothing matched. -/
def moved (pos : Nat) : Option Nat → Bool × Int
  | some stop => (true, stop + 1)
  | none => (false, pos + 1)

/-- The primitive matches do what the runtime module documents, with the cursor within
the input or right behind it. -/
structure Runtime.Faithful (R : Runtime) (input : List Char) : Prop where
  acceptString : ∀ text, ∀ pos ≤ input.length,
    R.acceptString input text (pos + 1) = moved pos (stopText input text pos)
  acceptSet : ∀ chars, ∀ pos ≤ input.length,
    R.acceptSet input chars (pos + 1) = moved pos (stopChar input (fun c => chars.contains c) pos)
  acceptRange : ∀ bottom top, ∀ pos ≤ input.length,
    R.acceptRange input [bottom] [top] (pos + 1) =
      moved pos (stopChar input (fun c => bottom ≤ c && c ≤ top) pos)
  acceptAny : ∀ pos ≤ input.length,
    R.acceptAny input (pos + 1) = moved pos (stopChar input (fun _ => true) pos)
  acceptEnd : ∀ pos ≤ input.length, R.acceptEnd input (pos + 1) = moved pos (stopEnd input pos)

end PegCompiler.Target

namespace PegCompiler.Lowering

open Naming (word)
open Resolved (ActionCall AltResult Captured ClassTest Parser ValueType)
open Semantics (Host Outcome consumed slice stopChar stopEnd stopText)
open Target (Datum Expr Frame Machine Return Signal State Stmt moved runBranches runOptional
  runStmts)

section
variable {V : Type}

/-! ## Generated code beside its parser -/

/-- What a call of a rule's function returns, for the outcome of the rule. -/
inductive Answers (pos : Nat) : Option (Outcome V) → Option (Return V) → Prop
  | unknown : Answers pos none none
  | failed (value : Option V) : Answers pos (some .failed) (some ⟨false, pos + 1, value⟩)
  | matched (stop : Nat) (value : V) :
      Answers pos (some (.matched stop value)) (some ⟨true, stop + 1, some value⟩)

/-- A machine has the code of a parser, and its calls answer those of the parser. -/
structure Linked (p : Parser) (T : Machine V) (calls : String → Nat → Option (Outcome V)) :
    Prop where
  faithful : T.runtime.Faithful T.input
  primitive : ∀ name ∈ [acceptString, acceptSet, acceptRange, acceptAny, acceptEnd],
    T.functions.find? (fun f => f.name == name) = none
  rule : ∀ r ∈ p.rules, ∃ f body, T.functions.find? (fun f => f.name == r.function) = some f ∧
    f.body = .stmts body
  action : ∀ a ∈ p.actions, T.functions.find? (fun f => f.name == a.function) =
    some (lowerAction a)
  answers : ∀ r ∈ p.rules, ∀ pos ≤ T.input.length,
    Answers pos (calls r.id pos) (T.call r.function (pos + 1))
  within : ∀ id, ∀ pos ≤ T.input.length, Resolved.Within T.input pos (calls id pos)

/-- The machine of the parser. -/
def source (p : Parser) (T : Machine V) (calls : String → Nat → Option (Outcome V)) :
    Resolved.Machine V :=
  ⟨T.host, T.input, p.actions, calls⟩

variable {p : Parser} {T : Machine V} {calls : String → Nat → Option (Outcome V)}

/-! ## Primitive matches -/

theorem eval_primitive {name : String} {args : List Expr} {s : State V} (ds : List (Datum V))
    {b : Bool} {c : Int} (hfind : T.functions.find? (fun f => f.name == name) = none)
    (hargs : Target.evalList T args s = some (ds, s))
    (hprimitive : T.primitive name ds s.cursor = some (b, c)) :
    (Expr.call name args).eval T s = some (.logical b, withCursor s c) := by
  rw [Expr.eval, hfind]
  dsimp only
  rw [hargs]
  show (T.primitive name ds s.cursor).bind _ = _
  rw [hprimitive]
  rfl

/-- A test that matches a terminal from a place on. -/
def Tests (T : Machine V) (test : Expr) (s : State V) (pos : Nat) (stop : Option Nat) : Prop :=
  test.test T s = some ((moved pos stop).1, withCursor s (moved pos stop).2)

/-- Goes on behind a terminal, or fails in front of it. -/
noncomputable def afterTerminal (T : Machine V) (fail : List Stmt) (s : State V) :
    Option Nat → Option (Signal × State V)
  | some stop => some (.next, withCursor s (stop + 1))
  | none => runStmts T fail s

theorem run_failUnless_terminal {test : Expr} {s : State V} {pos : Nat} {stop : Option Nat}
    (fail : List Stmt) (hcursor : s.cursor = pos + 1) (h : Tests T test s pos stop) :
    (failUnless test fail).run T s = afterTerminal T fail s stop := by
  have htest : test.test T s = _ := h
  rw [run_failUnless htest]
  cases stop with
  | some stop => rfl
  | none =>
    have hself : withCursor s (moved pos none).2 = s := withCursor_self hcursor
    rw [hself]
    rfl

/-- A terminal is matched as the parser matches it. -/
theorem ends_terminal {fail : List Stmt} {s : State V} {n pos : Nat} {sig : Signal}
    {back : Option Int} {H : Host V} {stop : Option Nat} (hcursor : s.cursor = pos + 1)
    (hblocks : OnlyCaptures s.blocks) (hesc : Escapes T fail n s sig back) :
    Ends n s pos sig back (fun _ _ => True) (some (consumed H T.input pos stop))
      (afterTerminal T fail s stop) := by
  cases stop with
  | some stop => exact .matched (.withCursor _) rfl trivial
  | none =>
    have hrun : afterTerminal T fail s none = _ := hesc.run s (.refl n s) hblocks
    rw [hrun]
    exact .failed (.withCursor _) (by rw [withCursor_cursor, hcursor])

theorem evalList_strings : ∀ (chars : List Char) (s : State V),
    Target.evalList T (chars.map fun c => .str (String.ofList [c])) s =
      some (chars.map fun c => .value (T.host.ofText [c]), s)
  | [], _ => rfl
  | c :: chars, s => by
    rw [List.map_cons, Target.evalList, Expr.eval]
    show (Target.evalList T _ s).bind _ = _
    rw [evalList_strings chars s]
    simp

theorem mapM_values : ∀ (vs : List V), (vs.map Datum.value).mapM Datum.value? = some vs
  | [] => rfl
  | v :: vs => by
    rw [List.map_cons, List.mapM_cons, mapM_values vs]
    rfl

theorem stopChar_or (input : List Char) (kind kind' : Char → Bool) (pos : Nat) :
    stopChar input (fun c => kind c || kind' c) pos =
      (stopChar input kind pos).or (stopChar input kind' pos) := by
  unfold stopChar
  cases input[pos]? with
  | none => rfl
  | some c => cases hk : kind c <;> simp [hk]

section
variable (hl : Linked p T calls) {s : State V} {pos : Nat} (hcursor : s.cursor = pos + 1)
  (hpos : pos ≤ T.input.length)
include hl hcursor hpos

theorem tests_string (text : String) : Tests T (.call acceptString [.str text]) s pos
    (stopText T.input text.toList pos) := by
  refine test_of_eval (eval_primitive [.value (T.host.ofText text.toList)]
    (hl.primitive _ (by decide)) rfl ?_) rfl
  show some (T.runtime.acceptString T.input (T.host.toText (T.host.ofText text.toList)) s.cursor) = _
  rw [T.host.toText_ofText, hcursor, hl.faithful.acceptString _ pos hpos]

theorem tests_any : Tests T (.call acceptAny []) s pos (stopChar T.input (fun _ => true) pos) := by
  refine test_of_eval (eval_primitive [] (hl.primitive _ (by decide)) rfl ?_) rfl
  show some (T.runtime.acceptAny T.input s.cursor) = _
  rw [hcursor, hl.faithful.acceptAny pos hpos]

theorem tests_end : Tests T (.call acceptEnd []) s pos (stopEnd T.input pos) := by
  refine test_of_eval (eval_primitive [] (hl.primitive _ (by decide)) rfl ?_) rfl
  show some (T.runtime.acceptEnd T.input s.cursor) = _
  rw [hcursor, hl.faithful.acceptEnd pos hpos]

theorem tests_class (test : ClassTest) : Tests T (classTest test) s pos
    (stopChar T.input (fun c => test.holds c) pos) := by
  cases test with
  | set chars =>
    have harray : (Expr.array (chars.toList.map fun c => .str (String.ofList [c]))).eval T s =
        some (.array (chars.toList.map fun c => T.host.ofText [c]), s) := by
      rw [Expr.eval, evalList_strings]
      show ((chars.toList.map _).mapM Datum.value?).bind _ = _
      have hmap : (chars.toList.map fun c => Datum.value (T.host.ofText [c])) =
          (chars.toList.map fun c => T.host.ofText [c]).map Datum.value := by
        rw [List.map_map]
        rfl
      rw [hmap, mapM_values]
      rfl
    refine test_of_eval (eval_primitive [.array (chars.toList.map fun c => T.host.ofText [c])]
      (hl.primitive _ (by decide)) ?_ ?_) rfl
    · rw [Target.evalList, harray]
      rfl
    · show some (T.runtime.acceptSet T.input ((chars.toList.map fun c =>
        T.host.ofText [c]).flatMap T.host.toText) s.cursor) = _
      have hchars : (chars.toList.map fun c => T.host.ofText [c]).flatMap T.host.toText =
          chars.toList := by
        rw [List.flatMap_map]
        simp only [T.host.toText_ofText]
        exact List.flatMap_singleton' _
      rw [hchars, hcursor, hl.faithful.acceptSet _ pos hpos]
      rfl
  | range bottom top =>
    refine test_of_eval (eval_primitive [.value (T.host.ofText [bottom]),
      .value (T.host.ofText [top])] (hl.primitive _ (by decide)) ?_ ?_) rfl
    · simp [Target.evalList, Expr.eval]
    · show some (T.runtime.acceptRange T.input (T.host.toText (T.host.ofText [bottom]))
        (T.host.toText (T.host.ofText [top])) s.cursor) = _
      rw [T.host.toText_ofText, T.host.toText_ofText, hcursor,
        hl.faithful.acceptRange _ _ pos hpos]
      rfl

theorem runBranches_class (fail : List Stmt) : ∀ (tests : List ClassTest),
    runBranches T (runOptional T (some fail)) (tests.map fun t => (classTest t, [])) s =
      afterTerminal T fail s (stopChar T.input (fun c => tests.any (ClassTest.holds c)) pos)
  | [] => by
    rw [List.map_nil, runBranches, runOptional]
    have hnone : stopChar T.input (fun c => ([] : List ClassTest).any (ClassTest.holds c)) pos =
        none := by
      unfold stopChar
      split <;> rfl
    rw [hnone]
    rfl
  | t :: tests => by
    have htest : (classTest t).test T s = _ := tests_class hl hcursor hpos t
    rw [List.map_cons, runBranches, htest]
    simp only [List.any_cons]
    rw [stopChar_or]
    cases hstop : stopChar T.input (fun c => t.holds c) pos with
    | some stop =>
      show runStmts T [] _ = _
      rw [runStmts_nil]
      rfl
    | none =>
      have hself : withCursor s (moved pos none).2 = s := withCursor_self hcursor
      rw [hself]
      exact runBranches_class fail tests

theorem run_class {fail : List Stmt} {stmt : Stmt} : ∀ {tests : List ClassTest},
    classStmt fail tests = .ok stmt → stmt.run T s =
      afterTerminal T fail s (stopChar T.input (fun c => tests.any (ClassTest.holds c)) pos)
  | [], h => nomatch h
  | [t], h => by
    obtain rfl := Except.ok.inj h
    rw [run_failUnless_terminal fail hcursor (tests_class hl hcursor hpos t)]
    simp
  | t :: u :: tests, h => by
    obtain rfl := Except.ok.inj h
    rw [← runBranches_class hl hcursor hpos fail (t :: u :: tests)]
    show _ = runBranches T _ ((classTest t, []) :: (u :: tests).map _) s
    rw [runBranches, Stmt.run]

end

end

end PegCompiler.Lowering
