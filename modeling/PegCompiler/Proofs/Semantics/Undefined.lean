import PegCompiler.Proofs.Semantics.Target
/-!
  Runs that come to a variable without a value. `Faults` follows a run as far as it
  gets and says that it reads a variable that has not been set, or that is not declared;
  a call of a rule may also never end, and then the run gets no further.

  A run that faults has no outcome, whatever the calls come to that it did not get to
  (`runStmts_of_faults`, `Function.run_of_faults`). So a run does not fault if it would
  have an outcome with calls that do end.
-/

namespace PegCompiler.Target

/-! ## Results that may be missing -/

/-- One result is another, where the other is not missing. -/
def Extends {α : Type} (x y : Option α) : Prop :=
  ∀ r, x = some r → y = some r

namespace Extends

variable {α β : Type}

theorem refl (x : Option α) : Extends x x :=
  fun _ h => h

theorem bind {x y : Option α} {f g : α → Option β} (hx : Extends x y)
    (hf : ∀ a, Extends (f a) (g a)) : Extends (x.bind f) (y.bind g) := by
  intro r h
  obtain ⟨a, ha, hr⟩ := Option.bind_eq_some_iff.mp h
  exact Option.bind_eq_some_iff.mpr ⟨a, hx a ha, hf a r hr⟩

theorem ite {c : Prop} [Decidable c] {x y x' y' : Option α} (hx : Extends x y)
    (hx' : Extends x' y') : Extends (if c then x else x') (if c then y else y') := by
  split
  · exact hx
  · exact hx'

end Extends

/-- Something holds of a result, which is not missing. -/
def Behind {α : Type} (x : Option α) (P : α → Prop) : Prop :=
  ∃ r, x = some r ∧ P r

section
variable {α β : Type} {x y : Option α} {P : α → Prop} {f : α → Option β} {faults : Prop}

/-- Where what follows a result is missing, so is the whole. -/
theorem bind_eq_none_of_behind (hxy : Extends x y) (hf : ∀ a, P a → f a = none)
    (h : Behind x P) : y.bind f = none := by
  obtain ⟨r, hr, hP⟩ := h
  rw [hxy r hr, Option.bind_some, hf r hP]

/-- A result is missing at once, or what follows it is. -/
theorem bind_eq_none_of_or (hy : faults → y = none) (hxy : Extends x y)
    (hf : ∀ a, P a → f a = none) (h : faults ∨ Behind x P) : y.bind f = none := by
  rcases h with h | h
  · rw [hy h, Option.bind_none]
  · exact bind_eq_none_of_behind hxy hf h

theorem bind_eq_none_of_left (h : y = none) : y.bind f = none := by
  rw [h, Option.bind_none]

theorem ite_eq_none {c P Q : Prop} [Decidable c] (hx : P → x = none) (hy : Q → y = none)
    (h : if c then P else Q) : (if c then x else y) = none := by
  split at h
  next hc => rw [if_pos hc, hx h]
  next hc => rw [if_neg hc, hy h]

end

section
variable {V : Type} (M : Machine V)

/-! ## Faults -/

mutual

/-- Evaluating an expression reads a variable without a value. The argument of a rule's
function is set by the call, and not read. -/
def Expr.Faults : Expr → State V → Prop
  | .var name, s => s.read name = none
  | .call name args, s =>
    match M.functions.find? (fun f => f.name == name) with
    | some f =>
      match f.body with
      | .stmts _ => False
      | .verbatim _ => listFaults args s
    | none => listFaults args s
  | .substring _ lo hi, s => lo.Faults s ∨ Behind (lo.eval M s) fun r => hi.Faults r.2
  | .array items, s => listFaults items s
  | .not operand, s => operand.Faults s
  | .bin _ lhs rhs, s => lhs.Faults s ∨ Behind (lhs.eval M s) fun r => rhs.Faults r.2
  | _, _ => False

/-- Evaluating expressions one after another does. -/
def listFaults : List Expr → State V → Prop
  | [], _ => False
  | e :: rest, s => e.Faults s ∨ Behind (e.eval M s) fun r => listFaults rest r.2

end

/-- A turn of an endless loop faults. -/
inductive EndlessFaults (label : Option String) (body : State V → Option (Signal × State V))
    (faults : State V → Prop) : State V → Prop
  | now {s : State V} (h : faults s) : EndlessFaults label body faults s
  | later {s s' : State V} {signal : Signal} (turn : body s = some (signal, s'))
      (goes : signal.afterTurn label = none) (h : EndlessFaults label body faults s') :
      EndlessFaults label body faults s

/-- A turn of a counted loop faults. -/
def CountedFaults (label : Option String) (var : String)
    (body : State V → Option (Signal × State V)) (faults : State V → Prop) :
    (left : Nat) → (index : Int) → State V → Prop
  | 0, _, _ => False
  | left + 1, index, s => Behind (s.write var (some (.int index))) fun s =>
    faults s ∨ Behind (body s) fun r =>
      r.1.afterTurn label = none ∧ CountedFaults label var body faults left (index + 1) r.2

mutual

/-- Running a statement reads a variable without a value. -/
def Stmt.Faults : Stmt → State V → Prop
  | .assign _ rhs, s => rhs.Faults M s
  | .cond test body elseIfs otherwise, s =>
    test.Faults M s ∨ Behind (test.test M s) fun r =>
      if r.1 then stmtsFault body r.2 else branchesFault (optionalFaults otherwise) elseIfs r.2
  | .loop label none body, s => EndlessFaults label (runStmts M body) (stmtsFault body) s
  | .loop label (some range) body, s =>
    range.first.Faults M s ∨ Behind (range.first.eval M s) fun first =>
      range.last.Faults M first.2 ∨ Behind (range.last.eval M first.2) fun last =>
        Behind first.1.int? fun a => Behind last.1.int? fun b =>
          CountedFaults label range.var (runStmts M body) (stmtsFault body) (b - a + 1).toNat a
            last.2
  | .select selector cases default, s =>
    selector.Faults M s ∨ Behind (selector.eval M s) fun r =>
      Behind r.1.int? fun n => casesFault n (optionalFaults default) cases r.2
  | .block _ decls body, s => stmtsFault body { s with blocks := Frame.ofDecls decls :: s.blocks }
  | _, _ => False

/-- Running statements does. -/
def stmtsFault : List Stmt → State V → Prop
  | [], _ => False
  | stmt :: rest, s => stmt.Faults s ∨ Behind (stmt.run M s) fun r =>
    r.1 = .next ∧ stmtsFault rest r.2

/-- Running the first of further branches whose condition holds does, or else
`otherwise`. -/
def branchesFault (otherwise : State V → Prop) : List (Expr × List Stmt) → State V → Prop
  | [], s => otherwise s
  | (test, body) :: rest, s =>
    test.Faults M s ∨ Behind (test.test M s) fun r =>
      if r.1 then stmtsFault body r.2 else branchesFault otherwise rest r.2

/-- Running statements that may be missing does. -/
def optionalFaults : Option (List Stmt) → State V → Prop
  | none, _ => False
  | some body, s => stmtsFault body s

/-- Running the case of a number does, or else `default`. -/
def casesFault (n : Int) (default : State V → Prop) : List (Nat × List Stmt) → State V → Prop
  | [], s => default s
  | (value, body) :: rest, s =>
    if (value : Int) = n then stmtsFault body s else casesFault n default rest s

end

/-- Running the function of a rule from a cursor reads a variable without a value, or ends
without a value for its result. -/
def Function.Faults (f : Function) (cursor : Int) : Prop :=
  match f.body with
  | .stmts body => stmtsFault M body ⟨cursor, [], Frame.ofDecls f.decls⟩ ∨
    Behind (runStmts M body ⟨cursor, [], Frame.ofDecls f.decls⟩) fun r => r.2.read f.result = none
  | .verbatim _ => False

end

/-! ## More calls that end -/

section
variable {V : Type} {M : Machine V} {call : String → Int → Option (Return V)}

/-- The machine with other calls of rules. -/
def Machine.withCall (M : Machine V) (call : String → Int → Option (Return V)) : Machine V :=
  { M with call }

/-- Calls come to what those of a machine do, where these end. -/
def CallsExtend (M : Machine V) (call : String → Int → Option (Return V)) : Prop :=
  ∀ name c, Extends (M.call name c) (call name c)

theorem callRule_extends (hcall : CallsExtend M call) (name : String) (args : List Expr)
    (s : State V) : Extends (M.callRule name args s) ((M.withCall call).callRule name args s) := by
  unfold Machine.callRule
  split
  · exact (hcall name s.cursor).bind fun _ => .refl _
  · exact .refl _

mutual

theorem Expr.eval_extends (hcall : CallsExtend M call) : ∀ (e : Expr) (s : State V),
    Extends (e.eval M s) (e.eval (M.withCall call) s)
  | .var name, s => by
    rw [Expr.eval, Expr.eval]
    exact .refl _
  | .int n, s => by
    rw [Expr.eval, Expr.eval]
    exact .refl _
  | .logical b, s => by
    rw [Expr.eval, Expr.eval]
    exact .refl _
  | .str value, s => by
    rw [Expr.eval, Expr.eval]
    exact .refl _
  | .call name args, s => by
    rw [Expr.eval, Expr.eval]
    show Extends (match M.functions.find? (fun f => f.name == name) with | some f => _ | none => _)
      (match M.functions.find? (fun f => f.name == name) with | some f => _ | none => _)
    split
    · split
      · exact callRule_extends hcall name args s
      · exact (evalList_extends hcall args s).bind fun _ => .refl _
    · exact (evalList_extends hcall args s).bind fun _ => .refl _
  | .substring var lo hi, s => by
    rw [Expr.eval, Expr.eval]
    exact (lo.eval_extends hcall s).bind fun r => (hi.eval_extends hcall r.2).bind fun _ => .refl _
  | .array items, s => by
    rw [Expr.eval, Expr.eval]
    exact (evalList_extends hcall items s).bind fun _ => .refl _
  | .not operand, s => by
    rw [Expr.eval, Expr.eval]
    exact (operand.eval_extends hcall s).bind fun _ => .refl _
  | .bin op lhs rhs, s => by
    rw [Expr.eval, Expr.eval]
    exact (lhs.eval_extends hcall s).bind fun r => (rhs.eval_extends hcall r.2).bind fun _ => .refl _
  | .verbatim code, s => by
    rw [Expr.eval, Expr.eval]
    exact .refl _

theorem evalList_extends (hcall : CallsExtend M call) : ∀ (es : List Expr) (s : State V),
    Extends (evalList M es s) (evalList (M.withCall call) es s)
  | [], s => by
    rw [evalList, evalList]
    exact .refl _
  | e :: rest, s => by
    rw [evalList, evalList]
    exact (e.eval_extends hcall s).bind fun r =>
      (evalList_extends hcall rest r.2).bind fun _ => .refl _

end

theorem Expr.test_extends (hcall : CallsExtend M call) (e : Expr) (s : State V) :
    Extends (e.test M s) (e.test (M.withCall call) s) :=
  (e.eval_extends hcall s).bind fun _ => .refl _

/-! ### Loops -/

/-- What a loop does behind a turn. -/
theorem afterTurn_extends {signal : Option Signal} {s : State V}
    {next next' : Option (Signal × State V)} (h : Extends next next') :
    Extends (match signal with | some signal => some (signal, s) | none => next)
      (match signal with | some signal => some (signal, s) | none => next') := by
  cases signal with
  | some signal => exact .refl _
  | none => exact h

theorem turnsUpTo_extends {label : Option String}
    {body body' : State V → Option (Signal × State V)} (hbody : ∀ s, Extends (body s) (body' s)) :
    ∀ (left : Nat) (s : State V),
    Extends (turnsUpTo label body left s) (turnsUpTo label body' left s)
  | 0, _ => .refl _
  | left + 1, s => by
    rw [turnsUpTo, turnsUpTo]
    exact (hbody s).bind fun x => afterTurn_extends (turnsUpTo_extends hbody left x.2)

/-- The turns of a loop go on as long as its body has outcomes. -/
theorem endless_extends {label : Option String} {body body' : State V → Option (Signal × State V)}
    (hbody : ∀ s, Extends (body s) (body' s)) (s : State V) :
    Extends (endless label body s) (endless label body' s) := by
  intro r h
  obtain ⟨left, h⟩ := endless_eq_some.mp h
  exact endless_eq_some.mpr ⟨left, turnsUpTo_extends hbody left s r h⟩

theorem counted_extends {label : Option String} {var : String}
    {body body' : State V → Option (Signal × State V)} (hbody : ∀ s, Extends (body s) (body' s)) :
    ∀ (left : Nat) (index : Int) (s : State V),
    Extends (counted label var body left index s) (counted label var body' left index s)
  | 0, index, s => .refl _
  | left + 1, index, s => by
    rw [counted, counted]
    exact (Extends.refl _).bind fun s => (hbody s).bind fun x =>
      afterTurn_extends (counted_extends hbody left (index + 1) x.2)

/-- A loop whose body has no outcome in some turn has none. -/
theorem endless_of_faults {label : Option String} {body body' : State V → Option (Signal × State V)}
    {faults : State V → Prop} (hbody : ∀ s, Extends (body s) (body' s))
    (hfaults : ∀ s, faults s → body' s = none) {s : State V}
    (h : EndlessFaults label body faults s) : endless label body' s = none := by
  induction h with
  | now h =>
    rw [endless_eq, hfaults _ h]
    rfl
  | @later s s' signal turn goes _ ih =>
    rw [endless_eq, hbody s _ turn, Option.bind_some]
    dsimp only
    rw [goes]
    exact ih

theorem counted_of_faults {label : Option String} {var : String}
    {body body' : State V → Option (Signal × State V)} {faults : State V → Prop}
    (hbody : ∀ s, Extends (body s) (body' s)) (hfaults : ∀ s, faults s → body' s = none) :
    ∀ (left : Nat) (index : Int) (s : State V), CountedFaults label var body faults left index s →
    counted label var body' left index s = none
  | 0, index, s, h => h.elim
  | left + 1, index, s, h => by
    rw [counted]
    refine bind_eq_none_of_behind (.refl _) (fun s h => ?_) h
    refine bind_eq_none_of_or (hfaults s) (hbody s) (fun ⟨signal, s⟩ ⟨goes, h⟩ => ?_) h
    dsimp only at goes h ⊢
    rw [goes]
    exact counted_of_faults hbody hfaults left (index + 1) s h

/-! ### Statements -/

mutual

theorem Stmt.run_extends (hcall : CallsExtend M call) : ∀ (stmt : Stmt) (s : State V),
    Extends (stmt.run M s) (stmt.run (M.withCall call) s)
  | .assign lhs rhs, s => by
    rw [Stmt.run, Stmt.run]
    exact (rhs.eval_extends hcall s).bind fun _ => .refl _
  | .cond test body elseIfs otherwise, s => by
    rw [Stmt.run, Stmt.run]
    refine (test.test_extends hcall s).bind fun r => ?_
    exact .ite (runStmts_extends hcall body r.2) (runBranches_extends hcall
      (fun s => runOptional_extends hcall otherwise s) elseIfs r.2)
  | .loop label none body, s => by
    rw [Stmt.run, Stmt.run]
    exact endless_extends (fun s => runStmts_extends hcall body s) s
  | .loop label (some range) body, s => by
    rw [Stmt.run, Stmt.run]
    refine (range.first.eval_extends hcall s).bind fun first =>
      (range.last.eval_extends hcall first.2).bind fun last =>
      (Extends.refl _).bind fun a => (Extends.refl _).bind fun b => ?_
    exact counted_extends (fun s => runStmts_extends hcall body s) _ _ _
  | .select selector cases default, s => by
    rw [Stmt.run, Stmt.run]
    refine (selector.eval_extends hcall s).bind fun r => (Extends.refl _).bind fun n => ?_
    exact runCases_extends hcall n (fun s => runOptional_extends hcall default s) cases r.2
  | .block label decls body, s => by
    rw [Stmt.run, Stmt.run]
    exact (runStmts_extends hcall body _).bind fun _ => .refl _
  | .exit label, s => by
    rw [Stmt.run, Stmt.run]
    exact .refl _
  | .cycle label, s => by
    rw [Stmt.run, Stmt.run]
    exact .refl _
  | .return, s => by
    rw [Stmt.run, Stmt.run]
    exact .refl _

theorem runStmts_extends (hcall : CallsExtend M call) : ∀ (stmts : List Stmt) (s : State V),
    Extends (runStmts M stmts s) (runStmts (M.withCall call) stmts s)
  | [], s => by
    rw [runStmts, runStmts]
    exact .refl _
  | stmt :: rest, s => by
    rw [runStmts, runStmts]
    refine (stmt.run_extends hcall s).bind fun r => ?_
    split
    · exact runStmts_extends hcall rest _
    · exact .refl _

theorem runBranches_extends (hcall : CallsExtend M call)
    {otherwise otherwise' : State V → Option (Signal × State V)}
    (hotherwise : ∀ s, Extends (otherwise s) (otherwise' s)) :
    ∀ (branches : List (Expr × List Stmt)) (s : State V),
    Extends (runBranches M otherwise branches s) (runBranches (M.withCall call) otherwise' branches s)
  | [], s => by
    rw [runBranches, runBranches]
    exact hotherwise s
  | (test, body) :: rest, s => by
    rw [runBranches, runBranches]
    refine (test.test_extends hcall s).bind fun r => ?_
    exact .ite (runStmts_extends hcall body r.2) (runBranches_extends hcall hotherwise rest r.2)

theorem runOptional_extends (hcall : CallsExtend M call) : ∀ (body : Option (List Stmt))
    (s : State V), Extends (runOptional M body s) (runOptional (M.withCall call) body s)
  | none, s => by
    rw [runOptional, runOptional]
    exact .refl _
  | some body, s => by
    rw [runOptional, runOptional]
    exact runStmts_extends hcall body s

theorem runCases_extends (hcall : CallsExtend M call) (n : Int)
    {default default' : State V → Option (Signal × State V)}
    (hdefault : ∀ s, Extends (default s) (default' s)) :
    ∀ (cases : List (Nat × List Stmt)) (s : State V),
    Extends (runCases M n default cases s) (runCases (M.withCall call) n default' cases s)
  | [], s => by
    rw [runCases, runCases]
    exact hdefault s
  | (value, body) :: rest, s => by
    rw [runCases, runCases]
    exact .ite (runStmts_extends hcall body s) (runCases_extends hcall n hdefault rest s)

end

/-! ## A fault has no outcome -/

mutual

theorem Expr.eval_of_faults (hcall : CallsExtend M call) : ∀ (e : Expr) (s : State V),
    e.Faults M s → e.eval (M.withCall call) s = none
  | .var name, s, h => by
    rw [Expr.Faults] at h
    rw [Expr.eval, h]
    rfl
  | .call name args, s, h => by
    rw [Expr.Faults] at h
    rw [Expr.eval]
    -- both machines have the same functions
    show (match M.functions.find? (fun f => f.name == name) with | some f => _ | none => _) = none
    split
    next f hf =>
      rw [hf] at h
      dsimp only at h
      split
      next body hbody =>
        rw [hbody] at h
        exact h.elim
      next code hbody =>
        rw [hbody] at h
        exact bind_eq_none_of_left (evalList_of_faults hcall args s h)
    next hf =>
      rw [hf] at h
      exact bind_eq_none_of_left (evalList_of_faults hcall args s h)
  | .substring var lo hi, s, h => by
    rw [Expr.Faults] at h
    rw [Expr.eval]
    exact bind_eq_none_of_or (lo.eval_of_faults hcall s) (lo.eval_extends hcall s)
      (fun r hr => bind_eq_none_of_left (hi.eval_of_faults hcall r.2 hr)) h
  | .array items, s, h => by
    rw [Expr.Faults] at h
    rw [Expr.eval]
    exact bind_eq_none_of_left (evalList_of_faults hcall items s h)
  | .not operand, s, h => by
    rw [Expr.Faults] at h
    rw [Expr.eval]
    exact bind_eq_none_of_left (operand.eval_of_faults hcall s h)
  | .bin op lhs rhs, s, h => by
    rw [Expr.Faults] at h
    rw [Expr.eval]
    exact bind_eq_none_of_or (lhs.eval_of_faults hcall s) (lhs.eval_extends hcall s)
      (fun r hr => bind_eq_none_of_left (rhs.eval_of_faults hcall r.2 hr)) h
  | .int _, _, h => absurd h (by simp [Expr.Faults])
  | .logical _, _, h => absurd h (by simp [Expr.Faults])
  | .str _, _, h => absurd h (by simp [Expr.Faults])
  | .verbatim _, _, h => absurd h (by simp [Expr.Faults])

theorem evalList_of_faults (hcall : CallsExtend M call) : ∀ (es : List Expr) (s : State V),
    listFaults M es s → evalList (M.withCall call) es s = none
  | [], _, h => absurd h (by simp [listFaults])
  | e :: rest, s, h => by
    rw [listFaults] at h
    rw [evalList]
    exact bind_eq_none_of_or (e.eval_of_faults hcall s) (e.eval_extends hcall s)
      (fun r hr => bind_eq_none_of_left (evalList_of_faults hcall rest r.2 hr)) h

end

theorem Expr.test_of_faults (hcall : CallsExtend M call) {e : Expr} {s : State V}
    (h : e.Faults M s) : e.test (M.withCall call) s = none :=
  bind_eq_none_of_left (e.eval_of_faults hcall s h)

mutual

theorem Stmt.run_of_faults (hcall : CallsExtend M call) : ∀ (stmt : Stmt) (s : State V),
    stmt.Faults M s → stmt.run (M.withCall call) s = none
  | .assign lhs rhs, s, h => by
    rw [Stmt.Faults] at h
    rw [Stmt.run]
    exact bind_eq_none_of_left (rhs.eval_of_faults hcall s h)
  | .cond test body elseIfs otherwise, s, h => by
    rw [Stmt.Faults] at h
    rw [Stmt.run]
    exact bind_eq_none_of_or (Expr.test_of_faults hcall) (test.test_extends hcall s)
      (fun r => ite_eq_none (runStmts_of_faults hcall body r.2) (runBranches_of_faults hcall
        (fun s => runOptional_of_faults hcall otherwise s) elseIfs r.2)) h
  | .loop label none body, s, h => by
    rw [Stmt.Faults] at h
    rw [Stmt.run]
    exact endless_of_faults (fun s => runStmts_extends hcall body s)
      (fun s => runStmts_of_faults hcall body s) h
  | .loop label (some range) body, s, h => by
    rw [Stmt.Faults] at h
    rw [Stmt.run]
    refine bind_eq_none_of_or (range.first.eval_of_faults hcall s)
      (range.first.eval_extends hcall s) (fun first => ?_) h
    refine bind_eq_none_of_or (range.last.eval_of_faults hcall first.2)
      (range.last.eval_extends hcall first.2) (fun last => ?_)
    -- the bounds are read once, in front of the turns
    refine bind_eq_none_of_behind (.refl _) fun a => bind_eq_none_of_behind (.refl _) fun b => ?_
    exact counted_of_faults (fun s => runStmts_extends hcall body s)
      (fun s => runStmts_of_faults hcall body s) _ _ _
  | .select selector cases default, s, h => by
    rw [Stmt.Faults] at h
    rw [Stmt.run]
    refine bind_eq_none_of_or (selector.eval_of_faults hcall s) (selector.eval_extends hcall s)
      (fun r => bind_eq_none_of_behind (.refl _) fun n => ?_) h
    exact runCases_of_faults hcall n (fun s => runOptional_of_faults hcall default s) cases r.2
  | .block label decls body, s, h => by
    rw [Stmt.Faults] at h
    rw [Stmt.run]
    exact bind_eq_none_of_left (runStmts_of_faults hcall body _ h)
  | .exit _, _, h => absurd h (by simp [Stmt.Faults])
  | .cycle _, _, h => absurd h (by simp [Stmt.Faults])
  | .return, _, h => absurd h (by simp [Stmt.Faults])

theorem runStmts_of_faults (hcall : CallsExtend M call) : ∀ (stmts : List Stmt) (s : State V),
    stmtsFault M stmts s → runStmts (M.withCall call) stmts s = none
  | [], _, h => absurd h (by simp [stmtsFault])
  | stmt :: rest, s, h => by
    rw [stmtsFault] at h
    rw [runStmts]
    refine bind_eq_none_of_or (stmt.run_of_faults hcall s) (stmt.run_extends hcall s)
      (fun ⟨signal, s⟩ ⟨hnext, h⟩ => ?_) h
    obtain rfl : signal = .next := hnext
    exact runStmts_of_faults hcall rest s h

theorem runBranches_of_faults (hcall : CallsExtend M call) {faults : State V → Prop}
    {otherwise : State V → Option (Signal × State V)}
    (hotherwise : ∀ s, faults s → otherwise s = none) :
    ∀ (branches : List (Expr × List Stmt)) (s : State V), branchesFault M faults branches s →
    runBranches (M.withCall call) otherwise branches s = none
  | [], s, h => by
    rw [branchesFault] at h
    rw [runBranches]
    exact hotherwise s h
  | (test, body) :: rest, s, h => by
    rw [branchesFault] at h
    rw [runBranches]
    exact bind_eq_none_of_or (Expr.test_of_faults hcall) (test.test_extends hcall s)
      (fun r => ite_eq_none (runStmts_of_faults hcall body r.2)
        (runBranches_of_faults hcall hotherwise rest r.2)) h

theorem runOptional_of_faults (hcall : CallsExtend M call) : ∀ (body : Option (List Stmt))
    (s : State V), optionalFaults M body s → runOptional (M.withCall call) body s = none
  | none, _, h => absurd h (by simp [optionalFaults])
  | some body, s, h => by
    rw [optionalFaults] at h
    rw [runOptional]
    exact runStmts_of_faults hcall body s h

theorem runCases_of_faults (hcall : CallsExtend M call) (n : Int) {faults : State V → Prop}
    {default : State V → Option (Signal × State V)} (hdefault : ∀ s, faults s → default s = none) :
    ∀ (cases : List (Nat × List Stmt)) (s : State V), casesFault M n faults cases s →
    runCases (M.withCall call) n default cases s = none
  | [], s, h => by
    rw [casesFault] at h
    rw [runCases]
    exact hdefault s h
  | (value, body) :: rest, s, h => by
    rw [casesFault] at h
    rw [runCases]
    exact ite_eq_none (runStmts_of_faults hcall body s)
      (runCases_of_faults hcall n hdefault rest s) h

end

/-- A function that faults does not return. -/
theorem Function.run_of_faults (hcall : CallsExtend M call) {f : Function} {cursor : Int}
    (h : f.Faults M cursor) : f.run (M.withCall call) cursor = none := by
  unfold Function.Faults at h
  unfold Function.run
  split at h
  next body hbody =>
    rw [hbody]
    split
    next body' arg hbody' hargs =>
      obtain rfl := Body.stmts.inj hbody'
      refine bind_eq_none_of_or (runStmts_of_faults hcall body _) (runStmts_extends hcall body _)
        (fun r hr => ?_) h
      dsimp only
      rw [hr]
      split <;> rfl
    next => rfl
  next => exact h.elim

end

end PegCompiler.Target
