import PegCompiler.Proofs.Semantics.Target
/-
  Where statements stand, and which ways control can take through them. `stmtsSites`
  lists every statement of a body with the labelled constructs around it and its
  neighbours. A path (`stmtsPath`) takes any branch of a condition and any number of turns
  of a loop, and keeps what it passes: assignments, tests, turns of counted loops, and
  selections. Running follows a path (`path_of_run`), so what holds on every path holds
  whenever a function runs.
-/

namespace PegCompiler.Target

/-! ## Places of statements -/

/-- A construct with a label, and whether it is a loop. -/
structure Construct where
  label : String
  isLoop : Bool
  deriving DecidableEq

/-- A statement and its place: the labelled constructs around it, the innermost first, and
the statements in front of it and behind it in the list that it is in. -/
structure Site where
  around : List Construct
  before : List Stmt
  stmt : Stmt
  after : List Stmt

/-- The label of a construct. -/
def Stmt.label? : Stmt → Option String
  | .loop label _ _ => label
  | .block label _ _ => label
  | _ => none

/-- The constructs around what stands in one; without a label it cannot be named. -/
def enclosed (label : Option String) (isLoop : Bool) (around : List Construct) : List Construct :=
  (label.map fun label => ⟨label, isLoop⟩).toList ++ around

mutual

/-- The places inside a statement. -/
def Stmt.inside (around : List Construct) : Stmt → List Site
  | .cond _ body elseIfs otherwise =>
    stmtsSites around [] [] body ++ branchesSites around elseIfs ++ optionalSites around otherwise
  | .loop label _ body => stmtsSites (enclosed label true around) [] [] body
  | .select _ cases default => casesSites around cases ++ optionalSites around default
  | .block label _ body => stmtsSites (enclosed label false around) [] [] body
  | .assign .. | .exit _ | .cycle _ | .return => []

/-- The places of statements that stand between others, and the places inside them. -/
def stmtsSites (around : List Construct) (before after : List Stmt) : List Stmt → List Site
  | [] => []
  | stmt :: rest =>
    ⟨around, before, stmt, rest ++ after⟩ :: (stmt.inside around ++
      stmtsSites around (before ++ [stmt]) after rest)

/-- The places in further branches. -/
def branchesSites (around : List Construct) : List (Expr × List Stmt) → List Site
  | [] => []
  | (_, body) :: rest => stmtsSites around [] [] body ++ branchesSites around rest

/-- The places in statements that may be missing. -/
def optionalSites (around : List Construct) : Option (List Stmt) → List Site
  | none => []
  | some body => stmtsSites around [] [] body

/-- The places in cases. -/
def casesSites (around : List Construct) : List (Nat × List Stmt) → List Site
  | [] => []
  | (_, body) :: rest => stmtsSites around [] [] body ++ casesSites around rest

end

/-- All places in the body of a function. -/
def sites (body : List Stmt) : List Site :=
  stmtsSites [] [] [] body

/-- The labels of the constructs at some places. -/
def labelsOf (sites : List Site) : List String :=
  sites.filterMap fun site => site.stmt.label?

theorem stmtsSites_append (around : List Construct) (before after : List Stmt) :
    ∀ (a b : List Stmt), stmtsSites around before after (a ++ b) =
      stmtsSites around before (b ++ after) a ++ stmtsSites around (before ++ a) after b
  | [], b => by
    rw [List.nil_append, stmtsSites, List.nil_append, List.append_nil]
  | stmt :: rest, b => by
    have ih := stmtsSites_append around (before ++ [stmt]) after rest b
    rw [List.cons_append, stmtsSites, stmtsSites, ih]
    simp only [List.cons_append, List.append_assoc, List.nil_append]

theorem stmtsSites_single (around : List Construct) (before after : List Stmt) (stmt : Stmt) :
    stmtsSites around before after [stmt] =
      ⟨around, before, stmt, after⟩ :: stmt.inside around := by
  rw [stmtsSites, stmtsSites, List.append_nil, List.nil_append]

theorem labelsOf_append (a b : List Site) : labelsOf (a ++ b) = labelsOf a ++ labelsOf b :=
  List.filterMap_append

/-! ## Paths -/

/-- What a path passes. -/
inductive Event where
  | assign (lhs : String) (rhs : Expr)
  | test (condition : Expr)
  /-- The head of a counted loop. -/
  | turn (range : DoRange)
  /-- The choice among the cases of a selection. -/
  | dispatch (selector : Expr)

/-- The events at the head of a loop. -/
def headEvents (range : Option DoRange) : List Event :=
  (range.map Event.turn).toList

/-- The paths through a loop, given those through its body: only a counted loop ends by
itself, and there may be any number of turns. -/
inductive Turns (label : Option String) (range : Option DoRange)
    (body : List Event → Signal → Prop) : List Event → Signal → Prop
  | ended (h : range.isSome) : Turns label range body (headEvents range) .next
  | left {es : List Event} {signal last : Signal} (h : body es signal)
      (hleft : signal.afterTurn label = some last) :
      Turns label range body (headEvents range ++ es) last
  | again {es rest : List Event} {signal last : Signal} (h : body es signal)
      (hagain : signal.afterTurn label = none) (hrest : Turns label range body rest last) :
      Turns label range body (headEvents range ++ es ++ rest) last

mutual

/-- A path through a statement, and the signal by which the statement ends on it. -/
def Stmt.Path : Stmt → List Event → Signal → Prop
  | .assign lhs rhs, es, signal => es = [.assign lhs rhs] ∧ signal = .next
  | .cond test body elseIfs otherwise, es, signal =>
    ∃ rest, es = .test test :: rest ∧
      (stmtsPath body rest signal ∨ branchesPath (optionalPath otherwise) elseIfs rest signal)
  | .loop label range body, es, signal => Turns label range (stmtsPath body) es signal
  | .select selector cases default, es, signal =>
    ∃ rest, es = .dispatch selector :: rest ∧
      (casesPath cases rest signal ∨ optionalPath default rest signal)
  | .block label _ body, es, signal =>
    ∃ inner, stmtsPath body es inner ∧ signal = inner.afterBlock label
  | .exit label, es, signal => es = [] ∧ signal = .exit label
  | .cycle label, es, signal => es = [] ∧ signal = .cycle label
  | .return, es, signal => es = [] ∧ signal = .return

/-- A path through statements, up to the first that does not go on. -/
def stmtsPath : List Stmt → List Event → Signal → Prop
  | [], es, signal => es = [] ∧ signal = .next
  | stmt :: rest, es, signal =>
    (signal ≠ .next ∧ stmt.Path es signal) ∨
      ∃ first later, es = first ++ later ∧ stmt.Path first .next ∧ stmtsPath rest later signal

/-- A path through further branches: their tests one after another, up to a branch or past
all of them. -/
def branchesPath (otherwise : List Event → Signal → Prop) :
    List (Expr × List Stmt) → List Event → Signal → Prop
  | [], es, signal => otherwise es signal
  | (test, body) :: rest, es, signal =>
    ∃ later, es = .test test :: later ∧
      (stmtsPath body later signal ∨ branchesPath otherwise rest later signal)

/-- A path through statements that may be missing. -/
def optionalPath : Option (List Stmt) → List Event → Signal → Prop
  | none, es, signal => es = [] ∧ signal = .next
  | some body, es, signal => stmtsPath body es signal

/-- A path through one of several cases. -/
def casesPath : List (Nat × List Stmt) → List Event → Signal → Prop
  | [], _, _ => False
  | (_, body) :: rest, es, signal => stmtsPath body es signal ∨ casesPath rest es signal

end

section
-- derives the equations of the recursion here, once: the many proofs that rewrite with them
-- would all wait for the first
attribute [local simp] Stmt.inside Stmt.Path
end

theorem stmtsPath_single {stmt : Stmt} {es : List Event} {signal : Signal} :
    stmtsPath [stmt] es signal ↔ stmt.Path es signal := by
  simp only [stmtsPath]
  constructor
  · rintro (⟨-, h⟩ | ⟨first, later, rfl, h, rfl, rfl⟩)
    · exact h
    · rwa [List.append_nil]
  · intro h
    by_cases hnext : signal = .next
    · subst hnext
      exact .inr ⟨es, [], (List.append_nil es).symm, h, rfl, rfl⟩
    · exact .inl ⟨hnext, h⟩

/-- A path through statements and others behind them ends in the first ones, or goes on in
the others. -/
theorem path_append {b : List Stmt} {signal : Signal} : ∀ {a : List Stmt} {es : List Event},
    stmtsPath (a ++ b) es signal →
      stmtsPath a es signal ∨
        ∃ first later, es = first ++ later ∧ stmtsPath a first .next ∧ stmtsPath b later signal
  | [], es, h => .inr ⟨[], es, rfl, ⟨rfl, rfl⟩, h⟩
  | stmt :: rest, es, h => by
    rw [List.cons_append, stmtsPath] at h
    rcases h with hended | ⟨first, later, rfl, hfirst, hlater⟩
    · exact .inl (by rw [stmtsPath]; exact .inl hended)
    · rcases path_append hlater with hrest | ⟨middle, last, rfl, hmiddle, hlast⟩
      · exact .inl (by rw [stmtsPath]; exact .inr ⟨first, later, rfl, hfirst, hrest⟩)
      · refine .inr ⟨first ++ middle, last, (List.append_assoc ..).symm, ?_, hlast⟩
        rw [stmtsPath]
        exact .inr ⟨first, middle, rfl, hfirst, hmiddle⟩

/-- Only a turn that returns makes a loop return. -/
theorem returns_of_afterTurn {label : Option String} {signal : Signal}
    (h : signal.afterTurn label = some .return) : signal = .return := by
  cases signal with
  | next => cases h
  | exit target =>
    simp only [Signal.afterTurn] at h
    split at h <;> cases h
  | cycle target =>
    simp only [Signal.afterTurn] at h
    split at h <;> cases h
  | «return» => rfl

/-- Only a body that returns makes a block return. -/
theorem returns_of_afterBlock {label : Option String} {signal : Signal}
    (h : signal.afterBlock label = .return) : signal = .return := by
  cases signal with
  | next => cases h
  | exit target =>
    simp only [Signal.afterBlock] at h
    split at h <;> cases h
  | cycle target => cases h
  | «return» => rfl

/-! ## Running follows a path -/

section
variable {V : Type} {M : Machine V} {label : Option String}
  {body : State V → Option (Signal × State V)} {path : List Event → Signal → Prop}

/-- What a body does on some path, an endless loop around it does on one. -/
theorem turns_of_turnsUpTo
    (hbody : ∀ {s signal t}, body s = some (signal, t) → ∃ es, path es signal) {last : Signal}
    {t : State V} : ∀ (left : Nat) {s : State V},
    turnsUpTo label body left s = some (last, t) → ∃ es, Turns label none path es last
  | 0, _, h => nomatch h
  | left + 1, s, h => by
    obtain ⟨⟨signal, u⟩, hturn, h⟩ := Option.bind_eq_some_iff.mp h
    obtain ⟨es, hes⟩ := hbody hturn
    dsimp only at h
    split at h
    next ended hended =>
      cases h
      exact ⟨_, .left hes hended⟩
    next hgoes =>
      obtain ⟨rest, hrest⟩ := turns_of_turnsUpTo hbody left h
      exact ⟨_, .again hes hgoes hrest⟩

/-- What a body does on some path, a counted loop around it does on one. -/
theorem turns_of_counted
    (hbody : ∀ {s signal t}, body s = some (signal, t) → ∃ es, path es signal) (range : DoRange)
    {last : Signal} {t : State V} : ∀ (left : Nat) {index : Int} {s : State V},
    counted label range.var body left index s = some (last, t) →
      ∃ es, Turns label (some range) path es last
  | 0, index, s, h => by
    obtain ⟨u, -, hu⟩ := Option.map_eq_some_iff.mp h
    cases hu
    exact ⟨_, .ended rfl⟩
  | left + 1, index, s, h => by
    obtain ⟨u, -, h⟩ := Option.bind_eq_some_iff.mp h
    obtain ⟨⟨signal, v⟩, hturn, h⟩ := Option.bind_eq_some_iff.mp h
    obtain ⟨es, hes⟩ := hbody hturn
    dsimp only at h
    split at h
    next ended hended =>
      cases h
      exact ⟨_, .left hes hended⟩
    next hgoes =>
      obtain ⟨rest, hrest⟩ := turns_of_counted hbody range left h
      exact ⟨_, .again hes hgoes hrest⟩

mutual

/-- A statement that runs follows one of its paths. -/
theorem Stmt.path_of_run : ∀ (stmt : Stmt) {s t : State V} {signal : Signal},
    stmt.run M s = some (signal, t) → ∃ es, stmt.Path es signal
  | .assign lhs rhs, s, t, signal, h => by
    rw [Stmt.run] at h
    obtain ⟨⟨d, u⟩, -, h⟩ := Option.bind_eq_some_iff.mp h
    obtain ⟨v, -, hv⟩ := Option.map_eq_some_iff.mp h
    cases hv
    exact ⟨_, rfl, rfl⟩
  | .cond test body elseIfs otherwise, s, t, signal, h => by
    rw [Stmt.run] at h
    obtain ⟨⟨b, u⟩, -, h⟩ := Option.bind_eq_some_iff.mp h
    dsimp only at h
    split at h
    · obtain ⟨es, hes⟩ := path_of_run body h
      exact ⟨_, es, rfl, .inl hes⟩
    · obtain ⟨es, hes⟩ := branchesPath_of_run (fun h => optionalPath_of_run otherwise h) elseIfs h
      exact ⟨_, es, rfl, .inr hes⟩
  | .loop label none body, s, t, signal, h => by
    rw [Stmt.run] at h
    obtain ⟨left, h⟩ := endless_eq_some.mp h
    exact turns_of_turnsUpTo (fun h => path_of_run body h) left h
  | .loop label (some range) body, s, t, signal, h => by
    rw [Stmt.run] at h
    obtain ⟨⟨first, u⟩, -, h⟩ := Option.bind_eq_some_iff.mp h
    obtain ⟨⟨last, v⟩, -, h⟩ := Option.bind_eq_some_iff.mp h
    obtain ⟨lo, -, h⟩ := Option.bind_eq_some_iff.mp h
    obtain ⟨hi, -, h⟩ := Option.bind_eq_some_iff.mp h
    exact turns_of_counted (fun h => path_of_run body h) range _ h
  | .select selector cases default, s, t, signal, h => by
    rw [Stmt.run] at h
    obtain ⟨⟨d, u⟩, -, h⟩ := Option.bind_eq_some_iff.mp h
    obtain ⟨n, -, h⟩ := Option.bind_eq_some_iff.mp h
    obtain ⟨es, hes⟩ := casesPath_of_run (fun h => optionalPath_of_run default h) cases h
    exact ⟨_, es, rfl, hes⟩
  | .block label decls body, s, t, signal, h => by
    rw [Stmt.run] at h
    obtain ⟨⟨inner, u⟩, hbody, h⟩ := Option.bind_eq_some_iff.mp h
    cases h
    obtain ⟨es, hes⟩ := path_of_run body hbody
    exact ⟨es, inner, hes, rfl⟩
  | .exit label, s, t, signal, h => by
    rw [Stmt.run] at h
    cases h
    exact ⟨_, rfl, rfl⟩
  | .cycle label, s, t, signal, h => by
    rw [Stmt.run] at h
    cases h
    exact ⟨_, rfl, rfl⟩
  | .return, s, t, signal, h => by
    rw [Stmt.run] at h
    cases h
    exact ⟨_, rfl, rfl⟩

/-- Statements that run follow one of their paths. -/
theorem path_of_run : ∀ (stmts : List Stmt) {s t : State V} {signal : Signal},
    runStmts M stmts s = some (signal, t) → ∃ es, stmtsPath stmts es signal
  | [], s, t, signal, h => by
    rw [runStmts] at h
    cases h
    exact ⟨_, rfl, rfl⟩
  | stmt :: rest, s, t, signal, h => by
    rw [runStmts] at h
    obtain ⟨⟨first, u⟩, hstmt, h⟩ := Option.bind_eq_some_iff.mp h
    obtain ⟨es, hes⟩ := stmt.path_of_run hstmt
    split at h
    next hnext =>
      cases hnext
      obtain ⟨later, hlater⟩ := path_of_run rest h
      exact ⟨es ++ later, .inr ⟨es, later, rfl, hes, hlater⟩⟩
    next hended =>
      cases h
      exact ⟨es, .inl ⟨fun hnext => hended t (by rw [hnext]), hes⟩⟩

theorem branchesPath_of_run {otherwise : State V → Option (Signal × State V)}
    {path : List Event → Signal → Prop}
    (hother : ∀ {s signal t}, otherwise s = some (signal, t) → ∃ es, path es signal) :
    ∀ (branches : List (Expr × List Stmt)) {s t : State V} {signal : Signal},
    runBranches M otherwise branches s = some (signal, t) → ∃ es, branchesPath path branches es signal
  | [], s, t, signal, h => by
    rw [runBranches] at h
    exact hother h
  | (test, body) :: rest, s, t, signal, h => by
    rw [runBranches] at h
    obtain ⟨⟨b, u⟩, -, h⟩ := Option.bind_eq_some_iff.mp h
    dsimp only at h
    split at h
    · obtain ⟨es, hes⟩ := path_of_run body h
      exact ⟨_, es, rfl, .inl hes⟩
    · obtain ⟨es, hes⟩ := branchesPath_of_run hother rest h
      exact ⟨_, es, rfl, .inr hes⟩

theorem optionalPath_of_run : ∀ (stmts : Option (List Stmt)) {s t : State V} {signal : Signal},
    runOptional M stmts s = some (signal, t) → ∃ es, optionalPath stmts es signal
  | none, s, t, signal, h => by
    rw [runOptional] at h
    cases h
    exact ⟨_, rfl, rfl⟩
  | some body, s, t, signal, h => by
    rw [runOptional] at h
    exact path_of_run body h

theorem casesPath_of_run {n : Int} {default : State V → Option (Signal × State V)}
    {path : List Event → Signal → Prop}
    (hdefault : ∀ {s signal t}, default s = some (signal, t) → ∃ es, path es signal) :
    ∀ (cases : List (Nat × List Stmt)) {s t : State V} {signal : Signal},
    runCases M n default cases s = some (signal, t) →
      ∃ es, casesPath cases es signal ∨ path es signal
  | [], s, t, signal, h => by
    rw [runCases] at h
    obtain ⟨es, hes⟩ := hdefault h
    exact ⟨es, .inr hes⟩
  | (value, body) :: rest, s, t, signal, h => by
    rw [runCases] at h
    split at h
    · obtain ⟨es, hes⟩ := path_of_run body h
      exact ⟨es, .inl (.inl hes)⟩
    · obtain ⟨es, hes⟩ := casesPath_of_run hdefault rest h
      exact ⟨es, hes.imp_left .inr⟩

end

end

end PegCompiler.Target
