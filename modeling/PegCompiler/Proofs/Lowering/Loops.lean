import PegCompiler.Proofs.Lowering.Choices
/-
  Repetitions. The emitted loop has no count of its own: it is left by a signal when the
  upper bound is reached, when something between two turns or the turn itself fails, or
  behind a turn that consumed nothing. The invariant of its turns is that the count and
  the cursor are those of the parser (`Turning`); the measure is the number of turns that
  the parser may still make, which bounds those of the loop.
-/

namespace PegCompiler.Lowering

open Resolved (Bound Captured StopsWithin Within)
open Semantics (Host Outcome consumed repetition turn turnLimit turns)
open Target (Datum Expr Machine Signal State Stmt endless endless_eq runStmts)

section
variable {V : Type} {T : Machine V} {full : Scope} {env : Captured V} {n k : Nat}
  {s t : State V} {pos : Nat} {sig : Signal} {back : Option Int} {fail : List Stmt}

/-! ## Bounds -/

/-- A variable that is set, if there is something to set it to. -/
def withOptional (s : State V) (name : String) : Option (Datum V) → State V
  | none => s
  | some d => withLocal s name (some d)

@[simp] theorem withOptional_cursor (s : State V) (name : String) (d : Option (Datum V)) :
    (withOptional s name d).cursor = s.cursor := by
  cases d <;> rfl

theorem withOptional_other (s : State V) {name other : String} (d : Option (Datum V))
    (h : other ≠ name) : (withOptional s name d).locals other = s.locals other := by
  cases d with
  | none => rfl
  | some d => exact withLocal_other s _ h

theorem Fits.withOptional (h : Fits full env s) {name : String} {d : Option (Datum V)}
    (hname : d.isSome → name ∈ full.names) : Fits full env (withOptional s name d) := by
  cases d with
  | none => exact h
  | some d => exact h.withLocal _ (hname rfl)

theorem After.optional {w : String} (hw : w ∈ ownWords) (hk : n < k) (hfits : Fits full env s)
    {d : Option (Datum V)} (hmem : d.isSome → numbered w k ∈ full.names) :
    After n s (withOptional s (numbered w k) d) := by
  cases d with
  | none => exact .refl n s
  | some d => exact .own hw hk hfits (hmem rfl) _

/-- The variable and the statements that keep a bound. -/
def boundKept (w : String) (k : Nat) : Option Bound → String × List Stmt
  | some (.code expr) => (numbered w k, [.assign (numbered w k) (.verbatim expr)])
  | _ => ("", [])

/-- What is kept of a bound. -/
def boundDatum (T : Machine V) (c : Int) : Option Bound → Option (Datum V)
  | some (.code expr) => some (.int (T.host.bound expr c))
  | _ => none

theorem run_boundKept {w : String} (hw : w ∈ ownWords) (hfits : Fits full env s) (b : Option Bound)
    (hmem : (boundDatum T s.cursor b).isSome → numbered w k ∈ full.names) :
    runStmts T (boundKept w k b).2 s =
      some (.next, withOptional s (numbered w k) (boundDatum T s.cursor b)) := by
  match b with
  | none => exact runStmts_nil s
  | some (.count _) => exact runStmts_nil s
  | some (.code expr) =>
    show runStmts T [.assign (numbered w k) (.verbatim expr)] s = _
    rw [runStmts_single]
    exact run_assign_own hw hfits (hmem rfl) (by rw [Expr.eval])

/-- The kept value of a bound is that at a place. -/
def Holding (T : Machine V) (pos : Nat) (w : String) (k : Nat) (b : Bound) (s : State V) : Prop :=
  ∀ expr, b = .code expr →
    s.locals (numbered w k) = some (some (.int (T.host.bound expr (pos + 1))))

theorem holding_withOptional {w : String} {b : Bound} (hcursor : s.cursor = pos + 1) :
    Holding T pos w k b (withOptional s (numbered w k) (boundDatum T s.cursor (some b))) := by
  rintro expr rfl
  rw [hcursor]
  exact withLocal_self s _ _

theorem eval_bound {w : String} (hw : w ∈ ownWords) (hblocks : OnlyCaptures s.blocks) {b : Bound}
    (h : Holding T pos w k b s) :
    (boundExpr (boundKept w k (some b)).1 b).eval T s =
      some (.int (b.value T.host pos), s) := by
  cases b with
  | count m => exact eval_int m s
  | code expr => exact eval_var (read_local (plain_own hw k) hblocks (h expr rfl))

/-! ## One turn -/

/-- What is done between two turns, if anything is. -/
def SimulatesBetween (T : Machine V) (full : Scope) (env : Captured V) (n : Nat) (fail : List Stmt) :
    Option (List Stmt) → (Nat → Option (Option Nat)) → Prop
  | none, between => between = Semantics.nothing
  | some stmts, between => ∃ outcome, Simulates T full env n fail stmts outcome ∧
      between = fun pos => (outcome pos).map Outcome.stop?

/-- What a run of a turn comes to, for the place where the turn stops. -/
inductive TurnEnds (n : Nat) (s : State V) (sig : Signal) (c : Int) :
    Option (Option Nat) → Option (Signal × State V) → Prop
  | unknown : TurnEnds n s sig c none none
  | failed {s' : State V} (after : After n s s') (cursor : s'.cursor = c) :
      TurnEnds n s sig c (some none) (some (sig, s'))
  | matched {s' : State V} {stop : Nat} (after : After n s s') (cursor : s'.cursor = stop + 1) :
      TurnEnds n s sig c (some (some stop)) (some (.next, s'))

theorem Simulates.turn {stmts : List Stmt} {outcome : Nat → Option (Outcome V)} {c : Int}
    (h : Simulates T full env n fail stmts outcome) (hfits : Fits full env s)
    (hcursor : s.cursor = pos + 1) (hpos : pos ≤ T.input.length)
    (hesc : Escapes T fail n s sig (some c)) :
    TurnEnds n s sig c ((outcome pos).map Outcome.stop?) (runStmts T stmts s) := by
  have hends := h hfits hcursor hpos hesc
  generalize outcome pos = x at hends
  generalize runStmts T stmts s = y at hends
  cases hends with
  | unknown => exact .unknown
  | failed after cursor => exact .failed after cursor
  | matched after cursor _ => exact .matched after cursor

/-- The statements between two turns. -/
def betweenStmts (k : Nat) : Option (List Stmt) → List Stmt
  | some stmts => [.when (.bin .gt (.var (numbered "count" k)) (.int 0)) stmts]
  | none => []

theorem test_compare {op : Target.BinOp} {lhs rhs : Expr} {a b : Int} {r : Bool}
    (ha : lhs.eval T s = some (.int a, s)) (hb : rhs.eval T s = some (.int b, s))
    (hop : op.apply T.host (.int a) (.int b) = some (.logical r)) :
    (Expr.bin op lhs rhs).test T s = some (r, s) :=
  test_of_eval (eval_bin ha hb hop) rfl

theorem read_own {w : String} (hw : w ∈ ownWords) (hfits : Fits full env s) {d : Datum V}
    (h : s.locals (numbered w k) = some (some d)) :
    (Expr.var (numbered w k)).eval T s = some (d, s) :=
  eval_var (read_local (plain_own hw k) hfits.blocks h)

theorem ends_between {separator : Option (List Stmt)} {between : Nat → Option (Option Nat)}
    {count : Nat} {c : Int} (h : SimulatesBetween T full env k fail separator between)
    (hfits : Fits full env s) (hcursor : s.cursor = pos + 1) (hpos : pos ≤ T.input.length)
    (hcount : s.locals (numbered "count" k) = some (some (.int count)))
    (hesc : Escapes T fail k s sig (some c)) :
    TurnEnds k s sig c (if count == 0 then some (some pos) else between pos)
      (runStmts T (betweenStmts k separator) s) := by
  have hskip : TurnEnds k s sig c (some (some pos)) (some (.next, s)) := .matched (.refl k s) hcursor
  cases separator with
  | none =>
    obtain rfl : between = Semantics.nothing := h
    rw [betweenStmts, runStmts_nil]
    show TurnEnds k s sig c (if _ then some (some pos) else some (some pos)) _
    rw [ite_self]
    exact hskip
  | some stmts =>
    obtain ⟨outcome, hstmts, rfl⟩ := h
    have htest : (Expr.bin .gt (.var (numbered "count" k)) (.int 0)).test T s =
        some (decide (0 < (count : Int)), s) :=
      test_compare (read_own (by decide) hfits hcount) (eval_int 0 s) rfl
    rw [betweenStmts, runStmts_single, run_when htest]
    by_cases hzero : count = 0
    · rw [if_pos (by simp [hzero] : (count == 0) = true), if_neg (by simp [hzero])]
      exact hskip
    · rw [if_neg (by simp [hzero] : ¬ (count == 0) = true), if_pos (by simp; omega)]
      exact hstmts.turn hfits hcursor hpos hesc

/-- A turn without its bookkeeping. -/
theorem ends_turn {separator : Option (List Stmt)} {between : Nat → Option (Option Nat)}
    {body : List Stmt} {outcome : Nat → Option (Outcome V)} {count : Nat} {c : Int}
    (hbetween : SimulatesBetween T full env k fail separator between)
    (hbody : Simulates T full env k fail body outcome)
    (hwithin : ∀ q ≤ T.input.length, ∀ stop, between q = some stop → StopsWithin T.input q stop)
    (hfits : Fits full env s) (hcursor : s.cursor = pos + 1) (hpos : pos ≤ T.input.length)
    (hcount : s.locals (numbered "count" k) = some (some (.int count)))
    (hesc : Escapes T fail k s sig (some c)) :
    TurnEnds k s sig c (turn between outcome (count == 0) pos)
      (runStmts T (betweenStmts k separator ++ body) s) := by
  have hends := ends_between hbetween hfits hcursor hpos hcount hesc
  have hstop : ∀ q, (if count == 0 then some (some pos) else between pos) = some (some q) →
      q ≤ T.input.length := by
    intro q hq
    split at hq
    · cases hq
      exact hpos
    · exact (hwithin pos hpos _ hq q rfl).2
  rw [runStmts_append]
  unfold turn
  generalize (if count == 0 then some (some pos) else between pos) = x at hends hstop
  generalize runStmts T (betweenStmts k separator) s = y at hends
  cases hends with
  | unknown => exact .unknown
  | failed after cursor =>
    rw [andThen_ended hesc.leaves.ne_next]
    exact .failed after cursor
  | @matched s' stop after cursor =>
    have hturn := hbody.turn (hfits.after after) cursor (hstop stop rfl)
      (hesc.of_kept after.kept (Nat.le_refl k))
    rw [andThen_next]
    show TurnEnds k s sig c ((outcome stop).map Outcome.stop?) _
    generalize (outcome stop).map Outcome.stop? = x at hturn
    generalize runStmts T body s' = y at hturn
    cases hturn with
    | unknown => exact .unknown
    | failed after' cursor' => exact .failed (after.trans after') cursor'
    | matched after' cursor' => exact .matched (after.trans after') cursor'

/-! ## The invariant of the turns -/

/-- The state behind some turns: the count and the cursor are those of the parser, and
what else the repetition keeps is as it was in front of them. -/
structure Turning (full : Scope) (env : Captured V) (n k : Nat) (s t : State V)
    (count pos : Nat) : Prop where
  fits : Fits full env t
  after : After n s t
  same : ∀ name, Protected k name → name ≠ numbered "count" k → name ≠ numbered "mark" k →
    t.locals name = s.locals name
  cursor : t.cursor = pos + 1
  count : t.locals (numbered "count" k) = some (some (.int count))

namespace Turning

variable {count : Nat}

/-- What runs inside keeps it. -/
theorem inside (h : Turning full env n k s t count pos) (hk : n < k) {u : State V} {q : Nat}
    (hafter : After k t u) (hcursor : u.cursor = q + 1) : Turning full env n k s u count q where
  fits := h.fits.after hafter
  after := h.after.trans (hafter.mono (Nat.le_of_lt hk))
  same name hp hcount hmark := (hafter.kept.same name hp).trans (h.same name hp hcount hmark)
  cursor := hcursor
  count := (hafter.kept.same _ (protected_own (by decide) (Nat.le_refl k))).trans h.count

theorem setMark (h : Turning full env n k s t count pos) (hk : n < k)
    (hmem : numbered "mark" k ∈ full.names) (d : Option (Datum V)) :
    Turning full env n k s (withLocal t (numbered "mark" k) d) count pos where
  fits := h.fits.withLocal d hmem
  after := h.after.trans (.own (by decide) hk h.fits hmem d)
  same name hp hcount hmark := (withLocal_other t d hmark).trans (h.same name hp hcount hmark)
  cursor := h.cursor
  count := (withLocal_other t d (own_ne (by decide))).trans h.count

theorem setCount (h : Turning full env n k s t count pos) (hk : n < k)
    (hmem : numbered "count" k ∈ full.names) (m : Nat) :
    Turning full env n k s (withLocal t (numbered "count" k) (some (.int m))) m pos where
  fits := h.fits.withLocal _ hmem
  after := h.after.trans (.own (by decide) hk h.fits hmem _)
  same name hp hcount hmark := (withLocal_other t _ hcount).trans (h.same name hp hcount hmark)
  cursor := h.cursor
  count := withLocal_self t _ _

/-- The variables of bounds are not those that turns change. -/
theorem holding (h : Turning full env n k s t count pos) {w : String} (hw : w ∈ ["lo", "hi"])
    {b : Bound} {start : Nat} (hs : Holding T start w k b s) : Holding T start w k b t := by
  have hown : w ∈ ownWords ∧ w ≠ "count" ∧ w ≠ "mark" :=
    (by decide : ∀ w ∈ ["lo", "hi"], w ∈ ownWords ∧ w ≠ "count" ∧ w ≠ "mark") w hw
  intro expr hb
  rw [h.same _ (protected_own hown.1 (Nat.le_refl k)) (own_ne hown.2.1) (own_ne hown.2.2)]
  exact hs expr hb

end Turning

/-! ## The statements of a turn -/

/-- Leaves the loop at the upper bound. -/
def limitStmts (k : Nat) : Option Bound → List Stmt
  | some max =>
    [.when (.bin .ge (.var (numbered "count" k)) (boundExpr (boundKept "hi" k (some max)).1 max))
      [.exit (some (numbered "rep" k))]]
  | none => []

/-- Leaves the loop behind a turn that consumed nothing, if there is no upper bound. -/
def progressStmts (k : Nat) : Option Bound → List Stmt
  | some _ => []
  | none =>
    [.when (.bin .eq cursor (.var (numbered "mark" k))) [.exit (some (numbered "rep" k))]]

/-- A turn with its bookkeeping. -/
def countedTurn (k : Nat) (max : Option Bound) (separator : Option (List Stmt)) (body : List Stmt) :
    List Stmt :=
  keep (numbered "mark" k) :: ((betweenStmts k separator ++ body) ++
    (.assign (numbered "count" k) (.bin .add (.var (numbered "count" k)) (.int 1)) ::
      progressStmts k max))

theorem repeatLoop_eq (k : Nat) (max : Option Bound) (separator : Option (List Stmt))
    (body : List Stmt) :
    repeatLoop (numbered "rep" k) (numbered "count" k) (numbered "mark" k)
        (boundKept "hi" k max).1 max separator body =
      .loop (some (numbered "rep" k)) none
        (limitStmts k max ++ countedTurn k max separator body) := by
  cases max <;> cases separator <;>
    simp [repeatLoop, limitStmts, countedTurn, betweenStmts, progressStmts]

/-- What the statements of a turn come to: they leave the loop, or go on to the next
turn. -/
inductive Turned (full : Scope) (env : Captured V) (n k : Nat) (bounded : Bool) (s : State V)
    (count pos : Nat) : Option (Option Nat) → Option (Signal × State V) → Prop
  | unknown : Turned full env n k bounded s count pos none none
  | failed {t : State V} (h : Turning full env n k s t count pos) :
      Turned full env n k bounded s count pos (some none)
        (some (.exit (some (numbered "rep" k)), t))
  | last {t : State V} {stop : Nat} (hlast : (!bounded && stop == pos) = true)
      (h : Turning full env n k s t (count + 1) stop) :
      Turned full env n k bounded s count pos (some (some stop))
        (some (.exit (some (numbered "rep" k)), t))
  | more {t : State V} {stop : Nat} (hmore : ¬ (!bounded && stop == pos) = true)
      (h : Turning full env n k s t (count + 1) stop) :
      Turned full env n k bounded s count pos (some (some stop)) (some (.next, t))

/-- What the statements of a turn and of what is between two turns do. -/
structure LoopParts (T : Machine V) (full : Scope) (env : Captured V) (k : Nat)
    (separator : Option (List Stmt)) (body : List Stmt) (between : Nat → Option (Option Nat))
    (outcome : Nat → Option (Outcome V)) : Prop where
  count : numbered "count" k ∈ full.names
  mark : numbered "mark" k ∈ full.names
  simulatesBetween : SimulatesBetween T full env k
    [restore (numbered "mark" k), .exit (some (numbered "rep" k))] separator between
  simulatesBody : Simulates T full env k
    [restore (numbered "mark" k), .exit (some (numbered "rep" k))] body outcome
  betweenWithin : ∀ q ≤ T.input.length, ∀ stop, between q = some stop →
    StopsWithin T.input q stop
  bodyWithin : ∀ q ≤ T.input.length, Within T.input q (outcome q)

section
variable {separator : Option (List Stmt)} {body : List Stmt} {between : Nat → Option (Option Nat)}
  {outcome : Nat → Option (Outcome V)} {max : Option Bound} {count : Nat}

theorem run_progress (h : Turning full env n k s t count pos)
    {q : Nat} (hmark : t.locals (numbered "mark" k) = some (some (.int (q + 1)))) :
    runStmts T (progressStmts k max) t =
      if (!max.isSome && pos == q) = true then some (.exit (some (numbered "rep" k)), t)
      else some (.next, t) := by
  cases max with
  | some max => exact runStmts_nil t
  | none =>
    have htest : (Expr.bin .eq cursor (.var (numbered "mark" k))).test T t =
        some ((pos : Int) + 1 == q + 1, t) := by
      refine test_compare (eval_cursor t) (read_own (by decide) h.fits hmark) ?_
      rw [h.cursor]
      rfl
    rw [progressStmts, runStmts_single, run_when htest]
    by_cases hpos : pos = q
    · rw [if_pos (by simp [hpos]), if_pos (by simp [hpos]), runStmts_single, Stmt.run]
    · rw [if_neg (by simp; omega), if_neg (by simp [hpos])]

theorem turned (hk : n < k) (parts : LoopParts T full env k separator body between outcome)
    (h : Turning full env n k s t count pos) (hpos : pos ≤ T.input.length) :
    Turned full env n k max.isSome s count pos (turn between outcome (count == 0) pos)
      (runStmts T (countedTurn k max separator body) t) := by
  -- `u` is the state with the mark set, to which a turn that fails goes back
  let u := withLocal t (numbered "mark" k) (some (.int t.cursor))
  have hu : Turning full env n k s u count pos := h.setMark hk parts.mark _
  have hmark : u.locals (numbered "mark" k) = some (some (.int (pos + 1))) := by
    rw [← h.cursor]
    exact withLocal_self t _ _
  have hexit : Escapes T [Stmt.exit (some (numbered "rep" k))] k u
      (.exit (some (numbered "rep" k))) none :=
    .of_signal (fun _ => by rw [Stmt.run]) (.exit (Nat.le_refl k))
  have hesc := hexit.restore (plain_own (by decide) k) (protected_own (by decide) (Nat.le_refl k))
    hmark (.refl k u) (Nat.le_refl k)
  have hends := ends_turn parts.simulatesBetween parts.simulatesBody parts.betweenWithin hu.fits hu.cursor hpos
    hu.count hesc
  rw [countedTurn, runStmts_cons, run_keep_own (by decide) h.fits parts.mark, andThen_next,
    runStmts_append]
  show Turned full env n k _ s count pos _ (andThen (runStmts T (betweenStmts k separator ++ body) u) _)
  generalize turn between outcome (count == 0) pos = x at hends
  generalize runStmts T (betweenStmts k separator ++ body) u = y at hends
  cases hends with
  | unknown => exact .unknown
  | failed after cursor =>
    rw [andThen_ended (by simp)]
    exact .failed (hu.inside hk after cursor)
  | @matched s' stop after cursor =>
    have hs' : Turning full env n k s s' count stop := hu.inside hk after cursor
    have hadd : (Expr.bin .add (.var (numbered "count" k)) (.int 1)).eval T s' =
        some (.int (count + 1 : Nat), s') :=
      eval_bin (read_own (by decide) hs'.fits hs'.count) (eval_int 1 s') rfl
    have hnext := hs'.setCount hk parts.count (count + 1)
    have hmark' : (withLocal s' (numbered "count" k) (some (.int (count + 1 : Nat)))).locals
        (numbered "mark" k) = some (some (.int (pos + 1))) := by
      rw [withLocal_other _ _ (own_ne (by decide)),
        after.kept.same _ (protected_own (by decide) (Nat.le_refl k)), hmark]
    rw [andThen_next, runStmts_cons, run_assign_own (by decide) hs'.fits parts.count hadd,
      andThen_next, run_progress hnext hmark']
    split
    next hlast => exact .last hlast hnext
    next hmore => exact .more hmore hnext

/-! ## The loop -/

/-- What the loop comes to. -/
inductive LoopEnds (full : Scope) (env : Captured V) (n k : Nat) (s : State V) :
    Option (Nat × Nat) → Option (Signal × State V) → Prop
  | unknown : LoopEnds full env n k s none none
  | ended {t : State V} {count pos : Nat} (h : Turning full env n k s t count pos) :
      LoopEnds full env n k s (some (count, pos)) (some (.next, t))

/-- How many turns are left: up to the bound, or one more than characters. -/
def Left (T : Machine V) (start : Nat) (max : Option Bound) (left count pos : Nat) : Prop :=
  match max with
  | some max => count + left = (max.value T.host start).toNat
  | none => T.input.length - pos + 1 ≤ left

theorem run_limit (h : Turning full env n k s t count pos) {start : Nat}
    (hmax : ∀ b, max = some b → Holding T start "hi" k b s) :
    runStmts T (limitStmts k max) t =
      if ∃ b, max = some b ∧ b.value T.host start ≤ count then
        some (.exit (some (numbered "rep" k)), t)
      else some (.next, t) := by
  cases max with
  | none =>
    rw [limitStmts, runStmts_nil, if_neg (by simp)]
  | some max =>
    have hhi := eval_bound (T := T) (w := "hi") (by decide) h.fits.blocks
      (h.holding (by decide) (hmax max rfl))
    have htest : (Expr.bin .ge (.var (numbered "count" k))
        (boundExpr (boundKept "hi" k (some max)).1 max)).test T t =
        some (decide (max.value T.host start ≤ (count : Int)), t) :=
      test_compare (read_own (by decide) h.fits h.count) hhi rfl
    rw [limitStmts, runStmts_single, run_when htest]
    by_cases hreached : max.value T.host start ≤ (count : Int)
    · rw [if_pos (by simpa using hreached), if_pos ⟨max, rfl, hreached⟩, runStmts_single, Stmt.run]
    · rw [if_neg (by simpa using hreached), if_neg (by simpa using hreached)]

/-- The loop makes the turns of the parser. -/
theorem ends_loop (hk : n < k) (parts : LoopParts T full env k separator body between outcome)
    {start : Nat} (hmax : ∀ b, max = some b → Holding T start "hi" k b s) :
    ∀ {left count pos : Nat} {t : State V}, Left T start max left count pos →
      Turning full env n k s t count pos → pos ≤ T.input.length →
      LoopEnds full env n k s (turns max.isSome (turn between outcome) left count pos)
        (endless (some (numbered "rep" k))
          (runStmts T (limitStmts k max ++ countedTurn k max separator body)) t) := by
  intro left
  have hexit : (Signal.exit (some (numbered "rep" k))).afterTurn (some (numbered "rep" k)) =
      some .next := by simp [Signal.afterTurn]
  induction left with
  | zero =>
    intro count pos t hleft h hpos
    rw [endless_eq, runStmts_append, run_limit h hmax]
    -- only at an upper bound
    have hreached : ∃ b, max = some b ∧ b.value T.host start ≤ count := by
      cases max with
      | none => exact absurd hleft (by simp [Left])
      | some max =>
        refine ⟨max, rfl, ?_⟩
        simp only [Left] at hleft
        omega
    rw [if_pos hreached, andThen_ended (by simp), Option.bind_some, hexit, turns]
    exact .ended h
  | succ left ih =>
    intro count pos t hleft h hpos
    rw [endless_eq, runStmts_append, run_limit h hmax]
    have hbelow : ¬ ∃ b, max = some b ∧ b.value T.host start ≤ count := by
      rintro ⟨b, rfl, hle⟩
      simp only [Left] at hleft
      omega
    rw [if_neg hbelow, andThen_next, turns]
    have hturned : Turned full env n k max.isSome s count pos
        (turn between outcome (count == 0) pos) (runStmts T (countedTurn k max separator body) t) :=
      turned hk parts h hpos
    have hstop (stop : Option Nat) (hstop : turn between outcome (count == 0) pos = some stop) :
        StopsWithin T.input pos stop :=
      Resolved.within_turn parts.betweenWithin parts.bodyWithin hpos hstop
    generalize turn between outcome (count == 0) pos = x at hturned hstop
    generalize runStmts T (countedTurn k max separator body) t = y at hturned
    cases hturned with
    | unknown => exact .unknown
    | failed h =>
      rw [Option.bind_some, hexit]
      exact .ended h
    | last hlast h =>
      rw [Option.bind_some, hexit]
      show LoopEnds full env n k s (if _ then _ else _) _
      rw [if_pos hlast]
      exact .ended h
    | @more u stop hmore h =>
      have hq := hstop _ rfl stop rfl
      show LoopEnds full env n k s (if _ then _ else _) (endless _ _ u)
      rw [if_neg hmore]
      refine ih ?_ h hq.2
      cases max with
      | some max =>
        simp only [Left] at hleft ⊢
        omega
      | none =>
        -- a turn that is not the last has consumed a character
        have hne : stop ≠ pos := by simpa using hmore
        simp only [Left] at hleft ⊢
        omega

end

/-! ## The whole repetition -/

/-- Keeps the cursor, if the number of turns has to be checked. -/
def savedStmts (k : Nat) (min : Bound) : List Stmt :=
  if needsCheck min then [keep (numbered "save" k)] else []

/-- Fails behind too few turns. -/
def checkStmts (k : Nat) (min : Bound) (fail : List Stmt) : List Stmt :=
  if needsCheck min then
    [.when (.bin .lt (.var (numbered "count" k)) (boundExpr (boundKept "lo" k (some min)).1 min))
      (restore (numbered "save" k) :: fail)]
  else []

/-- What is kept in front of the turns. -/
structure Prepared (T : Machine V) (full : Scope) (env : Captured V) (n k : Nat) (min : Bound)
    (max : Option Bound) (pos : Nat) (s t : State V) : Prop where
  after : After n s t
  turning : Turning full env n k t t 0 pos
  lo : Holding T pos "lo" k min t
  hi : ∀ b, max = some b → Holding T pos "hi" k b t
  save : needsCheck min → t.locals (numbered "save" k) = some (some (.int (pos + 1)))

/-- The variables that a repetition needs are declared. -/
structure RepeatVars (full : Scope) (k : Nat) (min : Bound) (max : Option Bound) : Prop where
  count : numbered "count" k ∈ full.names
  mark : numbered "mark" k ∈ full.names
  lo : ∀ expr, min = .code expr → numbered "lo" k ∈ full.names
  hi : ∀ expr, max = some (.code expr) → numbered "hi" k ∈ full.names
  save : needsCheck min → numbered "save" k ∈ full.names

theorem boundDatum_isSome {c : Int} {b : Option Bound} (h : (boundDatum T c b).isSome) :
    ∃ expr, b = some (.code expr) := by
  match b with
  | some (.code expr) => exact ⟨expr, rfl⟩
  | some (.count _) => cases h
  | none => cases h

theorem run_saved {min : Bound} (hfits : Fits full env s)
    (hmem : needsCheck min → numbered "save" k ∈ full.names) :
    runStmts T (savedStmts k min) s = some (.next, withOptional s (numbered "save" k)
      (if needsCheck min then some (.int s.cursor) else none)) := by
  unfold savedStmts
  split
  next h =>
    rw [runStmts_single]
    exact run_keep_own (by decide) hfits (hmem h)
  next => exact runStmts_nil s

theorem prepares {min : Bound} {max : Option Bound} (hk : n < k) (vars : RepeatVars full k min max)
    (hfits : Fits full env s) (hcursor : s.cursor = pos + 1) :
    ∃ t, runStmts T ((boundKept "lo" k (some min)).2 ++ (boundKept "hi" k max).2 ++
        savedStmts k min ++ [.assign (numbered "count" k) (.int 0)]) s = some (.next, t) ∧
      Prepared T full env n k min max pos s t := by
  have hlo : (boundDatum T s.cursor (some min)).isSome → numbered "lo" k ∈ full.names := fun h => by
    obtain ⟨expr, he⟩ := boundDatum_isSome h
    exact vars.lo expr (Option.some.inj he)
  -- each of the three is kept only where the code needs it, so its variable is declared
  let s₁ := withOptional s (numbered "lo" k) (boundDatum T s.cursor (some min))
  have hfits₁ : Fits full env s₁ := hfits.withOptional hlo
  have hcursor₁ : s₁.cursor = pos + 1 := (withOptional_cursor s _ _).trans hcursor
  have hhi : (boundDatum T s₁.cursor max).isSome → numbered "hi" k ∈ full.names := fun h => by
    obtain ⟨expr, he⟩ := boundDatum_isSome h
    exact vars.hi expr he
  let s₂ := withOptional s₁ (numbered "hi" k) (boundDatum T s₁.cursor max)
  have hfits₂ : Fits full env s₂ := hfits₁.withOptional hhi
  have hcursor₂ : s₂.cursor = pos + 1 := (withOptional_cursor s₁ _ _).trans hcursor₁
  let saved : Option (Datum V) := if needsCheck min then some (.int s₂.cursor) else none
  have hsaved : saved.isSome → numbered "save" k ∈ full.names := fun h => by
    refine vars.save ?_
    by_contra hno
    have hnone : saved = none := if_neg hno
    rw [hnone] at h
    cases h
  let s₃ := withOptional s₂ (numbered "save" k) saved
  have hfits₃ : Fits full env s₃ := hfits₂.withOptional hsaved
  have hcursor₃ : s₃.cursor = pos + 1 := (withOptional_cursor s₂ _ _).trans hcursor₂
  let t := withLocal s₃ (numbered "count" k) (some (.int 0))
  refine ⟨t, ?_, ?_, ⟨?_, ?_, ?_, hcursor₃, withLocal_self _ _ _⟩, ?_, ?_, ?_⟩
  · rw [runStmts_append, runStmts_append, runStmts_append, run_boundKept (by decide) hfits _ hlo,
      andThen_next, run_boundKept (by decide) hfits₁ _ hhi, andThen_next,
      run_saved hfits₂ vars.save, andThen_next, runStmts_single]
    exact run_assign_own (by decide) hfits₃ vars.count (d := .int 0) (eval_int 0 _)
  · exact (((After.optional (by decide) hk hfits hlo).trans
      (.optional (by decide) hk hfits₁ hhi)).trans (.optional (by decide) hk hfits₂ hsaved)).trans
      (.own (by decide) hk hfits₃ vars.count _)
  · exact hfits₃.withLocal _ vars.count
  · exact .refl n t
  · exact fun _ _ _ _ => rfl
  · intro expr he
    rw [withLocal_other _ _ (own_ne (by decide)), withOptional_other _ _ (own_ne (by decide)),
      withOptional_other _ _ (own_ne (by decide))]
    exact holding_withOptional hcursor expr he
  · rintro b rfl expr he
    rw [withLocal_other _ _ (own_ne (by decide)), withOptional_other _ _ (own_ne (by decide))]
    exact holding_withOptional hcursor₁ expr he
  · intro h
    have hsome : saved = some (.int s₂.cursor) := if_pos h
    rw [withLocal_other _ _ (own_ne (by decide)), ← hcursor₂]
    show (withOptional s₂ (numbered "save" k) saved).locals _ = _
    rw [hsome]
    exact withLocal_self s₂ _ _

/-- Behind the loop, too few turns fail. -/
theorem ends_check {min : Bound} {count start : Nat} (h : Turning full env n k s t count pos)
    (hk : n < k) (hlo : Holding T start "lo" k min s)
    (hsave : needsCheck min → s.locals (numbered "save" k) = some (some (.int (start + 1))))
    (hesc : Escapes T fail n s sig back) :
    Ends n s start sig back (fun _ _ => True)
      (some (consumed T.host T.input start (if (count : Int) < min.value T.host start then none
        else some pos)))
      (runStmts T (checkStmts k min fail) t) := by
  unfold checkStmts
  by_cases hcheck : needsCheck min
  · have htest : (Expr.bin .lt (.var (numbered "count" k))
        (boundExpr (boundKept "lo" k (some min)).1 min)).test T t =
        some (decide ((count : Int) < min.value T.host start), t) :=
      test_compare (read_own (by decide) h.fits h.count)
        (eval_bound (by decide) h.fits.blocks (h.holding (by decide) hlo)) rfl
    rw [if_pos hcheck, runStmts_single, run_when htest]
    by_cases hfew : (count : Int) < min.value T.host start
    · -- no turn has written to the variable with the place of the first one
      have hkeep : t.locals (numbered "save" k) = some (some (.int (start + 1))) :=
        (h.same _ (protected_own (by decide) (Nat.le_refl k)) (own_ne (by decide))
          (own_ne (by decide))).trans (hsave hcheck)
      have hfail := (hesc.restore (plain_own (by decide) k)
        (protected_own (by decide) (Nat.le_refl k)) hkeep h.after.kept (Nat.le_of_lt hk)).run t
        (.refl k t) h.fits.blocks
      rw [if_pos hfew, if_pos (decide_eq_true hfew), hfail]
      exact .failed (h.after.trans (.withCursor _)) rfl
    · rw [if_neg hfew, if_neg (by simpa using hfew)]
      exact .matched h.after h.cursor trivial
  · have hzero : min = .count 0 := by simpa [needsCheck] using hcheck
    have hmin : min.value T.host start = 0 := by
      rw [hzero]
      rfl
    rw [if_neg hcheck, runStmts_nil, hmin, if_neg (by omega)]
    exact .matched h.after h.cursor trivial

theorem simulates_repeat {separator : Option (List Stmt)} {body : List Stmt}
    {between : Nat → Option (Option Nat)} {outcome : Nat → Option (Outcome V)} {min : Bound}
    {max : Option Bound} (hk : n < k) (vars : RepeatVars full k min max)
    (parts : LoopParts T full env k separator body between outcome) :
    Simulates T full env n fail
      ((boundKept "lo" k (some min)).2 ++ (boundKept "hi" k max).2 ++ savedStmts k min ++
        [.assign (numbered "count" k) (.int 0),
          repeatLoop (numbered "rep" k) (numbered "count" k) (numbered "mark" k)
            (boundKept "hi" k max).1 max separator body] ++ checkStmts k min fail)
      (fun pos => repetition T.host T.input (min.value T.host pos)
        (max.map (Bound.value T.host pos)) between outcome pos) := by
  intro s pos sig back hfits hcursor hpos hesc
  obtain ⟨t, hrun, prepared⟩ := prepares (T := T) hk vars hfits hcursor
  have hleft : Left T pos max (turnLimit T.input pos (max.map (Bound.value T.host pos))) 0 pos := by
    cases max with
    | none => exact Nat.le_refl _
    | some max => exact Nat.zero_add _
  -- a counted loop has turns up to its bound, an endless one while it gets further
  have hends := ends_loop hk parts prepared.hi hleft prepared.turning hpos
  have hstmts : (boundKept "lo" k (some min)).2 ++ (boundKept "hi" k max).2 ++ savedStmts k min ++
      [.assign (numbered "count" k) (.int 0),
        repeatLoop (numbered "rep" k) (numbered "count" k) (numbered "mark" k)
          (boundKept "hi" k max).1 max separator body] ++ checkStmts k min fail =
      ((boundKept "lo" k (some min)).2 ++ (boundKept "hi" k max).2 ++ savedStmts k min ++
        [.assign (numbered "count" k) (.int 0)]) ++
        (repeatLoop (numbered "rep" k) (numbered "count" k) (numbered "mark" k)
          (boundKept "hi" k max).1 max separator body :: checkStmts k min fail) := by
    simp only [List.append_assoc, List.cons_append, List.nil_append]
  have hbounded : (max.map (Bound.value T.host pos)).isSome = max.isSome := by simp
  rw [hstmts, runStmts_append, hrun, andThen_next, runStmts_cons, repeatLoop_eq, Stmt.run]
  unfold repetition
  dsimp only
  rw [hbounded]
  generalize turns max.isSome (turn between outcome) _ 0 pos = x at hends
  generalize endless _ _ t = y at hends
  cases hends with
  | unknown => exact .unknown
  | @ended u count stop h =>
    rw [andThen_next]
    exact Ends.after prepared.after (ends_check h hk prepared.lo prepared.save
      (hesc.of_kept prepared.after.kept (Nat.le_refl n)))

end

end PegCompiler.Lowering
