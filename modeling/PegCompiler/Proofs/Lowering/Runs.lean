import PegCompiler.Proofs.Lowering.States
import PegCompiler.Proofs.Semantics.Resolved
/-
  Runs of statements, and how they fail. Failing statements put the cursor back and
  leave the construct that they belong to; that they do so from every state that keeps
  the variables of the construct is all that the constructs inside need to know of them
  (`Escapes`). `Ends` says what a run of the statements of a matcher comes to, for an
  outcome of the matcher.
-/

namespace PegCompiler.Lowering

open Naming (word)
open Resolved (Captured)
open Semantics (Outcome)
open Target (Datum Expr Frame Machine Signal State Stmt readBlocks runStmts)

section
variable {V : Type} {T : Machine V}

/-! ## One after another -/

/-- Goes on behind a run that goes on. -/
def andThen (x : Option (Signal × State V)) (f : State V → Option (Signal × State V)) :
    Option (Signal × State V) :=
  x.bind fun
    | (.next, s) => f s
    | ended => some ended

@[simp] theorem andThen_none (f : State V → Option (Signal × State V)) : andThen none f = none :=
  rfl

@[simp] theorem andThen_next (s : State V) (f : State V → Option (Signal × State V)) :
    andThen (some (.next, s)) f = f s :=
  rfl

theorem andThen_ended {sig : Signal} (h : sig ≠ .next) (s : State V)
    (f : State V → Option (Signal × State V)) : andThen (some (sig, s)) f = some (sig, s) := by
  cases sig with
  | next => exact absurd rfl h
  | _ => rfl

theorem andThen_assoc (x : Option (Signal × State V)) (f g : State V → Option (Signal × State V)) :
    andThen (andThen x f) g = andThen x fun s => andThen (f s) g := by
  rcases x with _ | ⟨_ | _ | _ | _, _⟩ <;> rfl

theorem runStmts_nil (s : State V) : runStmts T [] s = some (.next, s) := by
  rw [runStmts]

theorem runStmts_cons (stmt : Stmt) (rest : List Stmt) (s : State V) :
    runStmts T (stmt :: rest) s = andThen (stmt.run T s) (runStmts T rest) := by
  rw [runStmts]
  rcases stmt.run T s with _ | ⟨_ | _ | _ | _, _⟩ <;> rfl

theorem runStmts_append : ∀ (xs ys : List Stmt) (s : State V),
    runStmts T (xs ++ ys) s = andThen (runStmts T xs s) (runStmts T ys)
  | [], ys, s => by rw [List.nil_append, runStmts_nil, andThen_next]
  | x :: xs, ys, s => by
    rw [List.cons_append, runStmts_cons, runStmts_cons, andThen_assoc]
    congr 1
    funext t
    exact runStmts_append xs ys t

theorem runStmts_single (stmt : Stmt) (s : State V) : runStmts T [stmt] s = stmt.run T s := by
  rw [runStmts_cons]
  rcases stmt.run T s with _ | ⟨_ | _ | _ | _, t⟩
  · rfl
  · rw [andThen_next, runStmts_nil]
  · rfl
  · rfl
  · rfl

/-! ## Simple statements -/

theorem run_assign {var : String} {e : Expr} {s t u : State V} {d : Datum V}
    (he : e.eval T s = some (d, t)) (hwrite : t.write var (some d) = some u) :
    (Stmt.assign var e).run T s = some (.next, u) := by
  rw [Stmt.run, he]
  show (t.write var (some d)).map _ = _
  rw [hwrite]
  rfl

theorem eval_var {name : String} {s : State V} {d : Datum V} (h : s.read name = some d) :
    (Expr.var name).eval T s = some (d, s) := by
  rw [Expr.eval, h]
  rfl

theorem eval_int (n : Nat) (s : State V) : (Expr.int n).eval T s = some (.int n, s) := by
  rw [Expr.eval]

theorem eval_bin {op : Target.BinOp} {lhs rhs : Expr} {s t u : State V} {a b d : Datum V}
    (ha : lhs.eval T s = some (a, t)) (hb : rhs.eval T t = some (b, u))
    (hd : op.apply T.host a b = some d) : (Expr.bin op lhs rhs).eval T s = some (d, u) := by
  rw [Expr.eval, ha, Option.bind_eq_bind, Option.bind_some]
  dsimp only
  rw [hb, Option.bind_eq_bind, Option.bind_some]
  dsimp only
  rw [hd]
  rfl

theorem eval_cursor (s : State V) : cursor.eval T s = some (.int s.cursor, s) :=
  eval_var (read_cursor s)

theorem run_keep {var : String} {s : State V} (hvar : Plain var) (hblocks : OnlyCaptures s.blocks)
    (h : (s.locals var).isSome) :
    (keep var).run T s = some (.next, withLocal s var (some (.int s.cursor))) :=
  run_assign (eval_cursor s) (write_plain _ hvar hblocks h)

theorem run_restore {var : String} {s : State V} {c : Int} (hvar : Plain var)
    (hblocks : OnlyCaptures s.blocks) (h : s.locals var = some (some (.int c))) :
    (restore var).run T s = some (.next, withCursor s c) :=
  run_assign (eval_var (read_local hvar hblocks h)) (write_cursor s c)

theorem test_of_eval {e : Expr} {s t : State V} {d : Datum V} {b : Bool}
    (he : e.eval T s = some (d, t)) (hd : d.truth T.host = some b) :
    e.test T s = some (b, t) := by
  rw [Expr.test, he]
  show (d.truth T.host).bind _ = _
  rw [hd]
  rfl

theorem test_not {e : Expr} {s t : State V} {b : Bool} (h : e.test T s = some (b, t)) :
    (Expr.not e).test T s = some (!b, t) := by
  obtain ⟨⟨d, u⟩, he, hb⟩ := Option.bind_eq_some_iff.mp h
  obtain ⟨b', hd, hb⟩ := Option.bind_eq_some_iff.mp hb
  obtain ⟨rfl, rfl⟩ := Prod.mk.inj (Option.some.inj hb)
  refine test_of_eval (d := .logical !b') ?_ rfl
  rw [Expr.eval, he]
  show (d.truth T.host).bind _ = _
  rw [hd]
  rfl

theorem test_none {e : Expr} {s : State V} (h : e.eval T s = none) : e.test T s = none := by
  rw [Expr.test, h]
  rfl

theorem run_when {test : Expr} {body : List Stmt} {s t : State V} {b : Bool}
    (h : test.test T s = some (b, t)) : (Stmt.when test body).run T s =
      if b then runStmts T body t else some (.next, t) := by
  rw [Stmt.when, Stmt.run, h]
  cases b <;> rfl

theorem run_when_none {test : Expr} {body : List Stmt} {s : State V} (h : test.test T s = none) :
    (Stmt.when test body).run T s = none := by
  rw [Stmt.when, Stmt.run, h]
  rfl

theorem run_failOn {negated : Bool} {test : Expr} {fail : List Stmt} {s t : State V} {b : Bool}
    (h : test.test T s = some (b, t)) : (failOn negated test fail).run T s =
      if b != negated then some (.next, t) else runStmts T fail t := by
  cases negated with
  | true =>
    rw [failOn, if_pos rfl, run_when h]
    cases b <;> rfl
  | false =>
    rw [failOn, if_neg Bool.false_ne_true, failUnless, run_when (test_not h)]
    cases b <;> rfl

theorem run_failUnless {test : Expr} {fail : List Stmt} {s t : State V} {b : Bool}
    (h : test.test T s = some (b, t)) : (failUnless test fail).run T s =
      if b then some (.next, t) else runStmts T fail t := by
  rw [failUnless, run_when (test_not h)]
  cases b <;> rfl

theorem run_failUnless_none {test : Expr} {fail : List Stmt} {s : State V}
    (h : test.eval T s = none) : (failUnless test fail).run T s = none := by
  refine run_when_none (test_none ?_)
  rw [Expr.eval, h]
  rfl

/-! ## Failing -/

/-- A signal that is for a construct with a number up to `n`, or for the function. -/
inductive Leaves (n : Nat) : Signal → Prop
  | exit {w : String} {j : Nat} (h : j ≤ n) : Leaves n (.exit (some (numbered w j)))
  | cycle {w : String} {j : Nat} (h : j ≤ n) : Leaves n (.cycle (some (numbered w j)))
  | return : Leaves n .return

namespace Leaves

variable {n : Nat} {sig : Signal}

theorem ne_next (h : Leaves n sig) : sig ≠ .next := by
  cases h <;> nofun

theorem mono {m : Nat} (h : Leaves n sig) (hmn : n ≤ m) : Leaves m sig := by
  cases h with
  | exit h => exact .exit (Nat.le_trans h hmn)
  | cycle h => exact .cycle (Nat.le_trans h hmn)
  | «return» => exact .return

theorem label_ne {w w' : String} {j k : Nat} (hj : j ≤ n) (hk : n < k) :
    numbered w j ≠ numbered w' k := fun he => by
  have := (Naming.append_number_inj he).2
  omega

/-- A construct with a higher number hands the signal on. -/
theorem afterTurn (h : Leaves n sig) {w : String} {k : Nat} (hk : n < k) :
    sig.afterTurn (some (numbered w k)) = some sig := by
  cases h with
  | exit h => simp [Signal.afterTurn, label_ne h hk]
  | cycle h => simp [Signal.afterTurn, label_ne h hk]
  | «return» => rfl

theorem afterBlock_none (h : Leaves n sig) : sig.afterBlock none = sig := by
  cases h with
  | exit h => simp [Signal.afterBlock]
  | cycle h => rfl
  | «return» => rfl

end Leaves

/-- Failing statements give a signal from every state that keeps what a state has, and
put the cursor back to a place or leave it. -/
structure Escapes (T : Machine V) (fail : List Stmt) (n : Nat) (s : State V) (sig : Signal)
    (back : Option Int) : Prop where
  run : ∀ s', Kept n s s' → OnlyCaptures s'.blocks →
    runStmts T fail s' = some (sig, withCursor s' (back.getD s'.cursor))
  leaves : Leaves n sig

namespace Escapes

variable {fail : List Stmt} {m n : Nat} {s s' : State V} {sig : Signal} {back : Option Int}

/-- What runs inside can still fail. -/
theorem of_kept (h : Escapes T fail n s sig back) (hkept : Kept n s s') (hnm : n ≤ m) :
    Escapes T fail m s' sig back :=
  ⟨fun t ht hblocks => h.run t (hkept.trans (ht.mono hnm)) hblocks, h.leaves.mono hnm⟩

/-- Failing by a signal alone. -/
theorem of_signal {stmt : Stmt} (hstmt : ∀ t, stmt.run T t = some (sig, t)) (h : Leaves n sig) :
    Escapes T [stmt] n s sig none where
  run t _ _ := by
    rw [runStmts_single, hstmt]
    rfl
  leaves := h

/-- Putting the cursor back in front of failing. -/
theorem restore {var : String} {c : Int} (h : Escapes T fail n s sig back) (hvar : Plain var)
    (hprotected : Protected m var) (hsave : s'.locals var = some (some (.int c)))
    (hkept : Kept n s s') (hnm : n ≤ m) :
    Escapes T (restore var :: fail) m s' sig (some (back.getD c)) where
  run t ht hblocks := by
    have hread : t.locals var = some (some (.int c)) := (ht.same var hprotected).trans hsave
    have hfail := h.run (withCursor t c) (hkept.trans ((ht.mono hnm).trans (.of_locals rfl)))
      hblocks
    rw [runStmts_cons, run_restore hvar hblocks hread, andThen_next, hfail]
    rfl
  leaves := h.leaves.mono hnm

end Escapes

/-! ## What a run of a matcher comes to -/

/-- Blocks stay, and so does what is protected. -/
structure After (n : Nat) (s s' : State V) : Prop where
  kept : Kept n s s'
  blocks : s'.blocks = s.blocks

namespace After

variable {m n : Nat} {s t u : State V}

theorem refl (n : Nat) (s : State V) : After n s s :=
  ⟨.refl n s, rfl⟩

theorem trans (h : After n s t) (h' : After n t u) : After n s u :=
  ⟨h.kept.trans h'.kept, h'.blocks.trans h.blocks⟩

theorem mono (h : After n s t) (hmn : m ≤ n) : After m s t :=
  ⟨h.kept.mono hmn, h.blocks⟩

theorem withLocal {name : String} (d : Option (Datum V)) (hname : ¬ Protected n name)
    (h : (s.locals name).isSome) : After n s (withLocal s name d) :=
  ⟨.withLocal d hname h, rfl⟩

theorem withCursor (c : Int) : After n s (withCursor s c) :=
  ⟨.of_locals rfl, rfl⟩

end After

/-- What a run of statements comes to, for the outcome of what they match: it goes on
with the cursor behind the match and gives what it has to give, or it fails from where
it started. -/
inductive Ends (n : Nat) (s : State V) (pos : Nat) (sig : Signal) (back : Option Int)
    (Gives : V → State V → Prop) : Option (Outcome V) → Option (Signal × State V) → Prop
  | unknown : Ends n s pos sig back Gives none none
  | failed {s' : State V} (after : After n s s') (cursor : s'.cursor = back.getD (pos + 1)) :
      Ends n s pos sig back Gives (some .failed) (some (sig, s'))
  | matched {s' : State V} {stop : Nat} {v : V} (after : After n s s')
      (cursor : s'.cursor = stop + 1) (gives : Gives v s') :
      Ends n s pos sig back Gives (some (.matched stop v)) (some (.next, s'))

/-- What a run of a row comes to, in states that it may leave behind: it may fail
anywhere. -/
inductive RowEnds (Behind : State V → Prop) (sig : Signal) (back : Option Int)
    (Gives : V → State V → Prop) : Option (Outcome V) → Option (Signal × State V) → Prop
  | unknown : RowEnds Behind sig back Gives none none
  | failed {s' : State V} (behind : Behind s') (cursor : ∃ c, s'.cursor = back.getD c) :
      RowEnds Behind sig back Gives (some .failed) (some (sig, s'))
  | matched {s' : State V} {stop : Nat} {v : V} (behind : Behind s')
      (cursor : s'.cursor = stop + 1) (gives : Gives v s') :
      RowEnds Behind sig back Gives (some (.matched stop v)) (some (.next, s'))

/-- A state that a matcher can run in: the variables of the function are declared, and
those of captures hold the captured values. -/
structure Fits (full : Scope) (env : Captured V) (s : State V) : Prop where
  locals : ∀ name ∈ full.names, (s.locals name).isSome
  blocks : OnlyCaptures s.blocks
  captures : ∀ var v, env.lookup var = some v →
    word var = "capture".toList ∧ readBlocks var s.blocks = some (some (.value v))

namespace Fits

variable {full : Scope} {env : Captured V} {n : Nat} {s s' : State V}

theorem after (h : Fits full env s) (hafter : After n s s') : Fits full env s' where
  locals name hname := (hafter.kept.declared name).trans (h.locals name hname)
  blocks := hafter.blocks ▸ h.blocks
  captures := hafter.blocks ▸ h.captures

/-- A variable that is declared is set. -/
theorem withDeclared (h : Fits full env s) {name : String} (d : Option (Datum V))
    (hname : (s.locals name).isSome) : Fits full env (withLocal s name d) where
  locals other hother := (withLocal_declared d hname other).trans (h.locals other hother)
  blocks := h.blocks
  captures := h.captures

/-- A variable of the function is set. -/
theorem withLocal (h : Fits full env s) {name : String} (d : Option (Datum V))
    (hname : name ∈ full.names) : Fits full env (withLocal s name d) :=
  h.withDeclared d (h.locals name hname)

theorem withCursor (h : Fits full env s) (c : Int) : Fits full env (withCursor s c) :=
  ⟨h.locals, h.blocks, h.captures⟩

theorem read_capture (h : Fits full env s) {var : String} {v : V} (hv : env.lookup var = some v) :
    s.read var = some (.value v) := by
  obtain ⟨hword, hread⟩ := h.captures var v hv
  have hne : var ≠ cursorVar := fun he => by
    rw [he] at hword
    exact absurd hword (by decide)
  unfold State.read
  rw [if_neg hne, hread]
  rfl

end Fits

/-- The statements of a matcher do what it does, in every state that they can run
in. -/
def Simulates (T : Machine V) (full : Scope) (env : Captured V) (n : Nat)
    (fail stmts : List Stmt) (outcome : Nat → Option (Outcome V)) : Prop :=
  ∀ ⦃s : State V⦄ ⦃pos : Nat⦄ ⦃sig : Signal⦄ ⦃back : Option Int⦄, Fits full env s →
    s.cursor = pos + 1 → pos ≤ T.input.length → Escapes T fail n s sig back →
    Ends n s pos sig back (fun _ _ => True) (outcome pos) (runStmts T stmts s)

/-- A variable of the function, if there is one, has a value. -/
def Assigned (result : Option String) (v : V) (s : State V) : Prop :=
  ∀ var, result = some var → s.locals var = some (some (.value v))

/-- The statements of a row do what it does, in every state in which the cursor in front
of the row is kept; its value goes into the variable of its choice. -/
def SimulatesRow (T : Machine V) (full : Scope) (n : Nat) (save : String) (result : Option String)
    (fail stmts : List Stmt) (outcome : Nat → Option (Outcome V)) : Prop :=
  ∀ ⦃s : State V⦄ ⦃pos : Nat⦄ ⦃sig : Signal⦄ ⦃back : Option Int⦄, Fits full [] s →
    s.cursor = pos + 1 → pos ≤ T.input.length → s.locals save = some (some (.int (pos + 1))) →
    Escapes T fail n s sig back →
    RowEnds (After n s) sig back (Assigned result) (outcome pos) (runStmts T stmts s)

theorem Simulates.mono {full : Scope} {env : Captured V} {m n : Nat} {fail stmts : List Stmt}
    {outcome : Nat → Option (Outcome V)} (h : Simulates T full env n fail stmts outcome)
    (hmn : m ≤ n) : Simulates T full env m fail stmts outcome := by
  intro s pos sig back hfits hcursor hpos hesc
  have hends := h hfits hcursor hpos (hesc.of_kept (.refl m s) hmn)
  generalize outcome pos = x at hends
  generalize runStmts T stmts s = y at hends
  cases hends with
  | unknown => exact .unknown
  | failed after cursor => exact .failed (after.mono hmn) cursor
  | matched after cursor gives => exact .matched (after.mono hmn) cursor gives

theorem SimulatesRow.mono {full : Scope} {m n : Nat} {save : String} {result : Option String}
    {fail stmts : List Stmt} {outcome : Nat → Option (Outcome V)}
    (h : SimulatesRow T full n save result fail stmts outcome) (hmn : m ≤ n) :
    SimulatesRow T full m save result fail stmts outcome := by
  intro s pos sig back hfits hcursor hpos hsave hesc
  have hends := h hfits hcursor hpos hsave (hesc.of_kept (.refl m s) hmn)
  generalize outcome pos = x at hends
  generalize runStmts T stmts s = y at hends
  cases hends with
  | unknown => exact .unknown
  | failed after cursor => exact .failed (after.mono hmn) cursor
  | matched after cursor gives => exact .matched (after.mono hmn) cursor gives

end

end PegCompiler.Lowering
