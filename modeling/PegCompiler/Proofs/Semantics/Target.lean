import PegCompiler.Lowering.Parser
import PegCompiler.Proofs.Semantics.Host
/-!
  Running generated functions. A statement ends by a signal: it goes on, leaves or
  repeats a construct, or returns. Every construct catches the signals that name
  it and hands on the others; a loop without a count is left by a signal only, and
  has no outcome if it is not left behind any number of turns.

  The variables of a function start undefined, and a block has its own in front of
  them. Reading what is undefined, or naming what is not declared, has no outcome.
  The cursor and the input belong to the runtime module, whose primitive matches
  are a parameter. Names are compared as they are written: all generated names are
  in lower case.

  Integers are unbounded. Those of the language have a range, in which the counters
  of a run and the places in its input are taken to be; which constants of generated
  code are in it is the subject of `Lowering.Integers`.
-/

namespace PegCompiler.Target

open Semantics (Host)
open Lowering (cursorVar inputVar)

/-- What a variable holds. Integers have no range. -/
inductive Datum (V : Type) where
  | int (n : Int)
  | logical (b : Bool)
  | value (v : V)
  | array (items : List V)

/-- The variables of one scope: not declared, declared without a value, or with
one. -/
abbrev Frame (V : Type) := String → Option (Option (Datum V))

/-- A frame with a variable set, or made undefined. -/
def Frame.set {V : Type} (f : Frame V) (name : String) (d : Option (Datum V)) : Frame V :=
  fun other => if other = name then some d else f other

/-- The variables of some declarations, all undefined. -/
def Frame.ofDecls {V : Type} (decls : List Decl) : Frame V :=
  fun name => if decls.any (fun d => d.names.contains name) then some none else none

/-- The state of a running function. -/
structure State (V : Type) where
  cursor : Int
  /-- The variables of the blocks around, the innermost first. -/
  blocks : List (Frame V)
  /-- The variables of the function. -/
  locals : Frame V

/-- How a statement ends. -/
inductive Signal where
  | next
  | exit (label : Option String)
  | cycle (label : Option String)
  | return
  deriving DecidableEq, Repr

/-- What a loop does after a turn that ended by a signal: it ends by another signal,
or makes a further turn. -/
def Signal.afterTurn (label : Option String) : Signal → Option Signal
  | .next => none
  | .exit target => if target = none ∨ target = label then some .next else some (.exit target)
  | .cycle target => if target = none ∨ target = label then none else some (.cycle target)
  | .return => some .return

/-- How a block ends when its body ends by a signal. -/
def Signal.afterBlock (label : Option String) : Signal → Signal
  | .exit target => if target ≠ none ∧ target = label then .next else .exit target
  | signal => signal

/-- What a call of a rule's function comes to: whether it matched, where it left the
cursor, and the value of its argument, if it gave it one. -/
structure Return (V : Type) where
  accepted : Bool
  cursor : Int
  value : Option V

/-- The primitive matches, each with the cursor in front of it and behind it. -/
structure Runtime where
  acceptString : (input text : List Char) → (cursor : Int) → Bool × Int
  acceptSet : (input chars : List Char) → (cursor : Int) → Bool × Int
  acceptRange : (input bottom top : List Char) → (cursor : Int) → Bool × Int
  acceptAny : (input : List Char) → (cursor : Int) → Bool × Int
  acceptEnd : (input : List Char) → (cursor : Int) → Bool × Int

/-- What generated code runs with: the target language, the runtime module, the
input, the functions of the module, and what calls of rules come to. -/
structure Machine (V : Type) where
  host : Host V
  runtime : Runtime
  input : List Char
  functions : List Function
  call : (function : String) → (cursor : Int) → Option (Return V)

/-- The result type of a function. -/
def Function.resultType (f : Function) : String :=
  ((f.decls.reverse.find? (fun d => d.names.contains f.result)).map (fun d => d.type)).getD ""

/-! ## Variables -/

section
variable {V : Type}

/-- The content of a variable in the innermost scope that declares it. -/
def readBlocks (name : String) : List (Frame V) → Option (Option (Datum V))
  | [] => none
  | f :: rest =>
    match f name with
    | some d => some d
    | none => readBlocks name rest

/-- The blocks with a variable set, if one of them declares it. -/
def writeBlocks (name : String) (d : Option (Datum V)) : List (Frame V) → Option (List (Frame V))
  | [] => none
  | f :: rest =>
    if (f name).isSome then some (f.set name d :: rest)
    else (writeBlocks name d rest).map (fun rest => f :: rest)

namespace State

/-- The content of a variable. -/
def read (s : State V) (name : String) : Option (Datum V) :=
  if name = cursorVar then some (.int s.cursor)
  else ((readBlocks name s.blocks).or (s.locals name)).join

/-- The state with a variable set, or made undefined. -/
def write (s : State V) (name : String) (d : Option (Datum V)) : Option (State V) :=
  if name = cursorVar then
    match d with
    | some (.int n) => some { s with cursor := n }
    | _ => none
  else match writeBlocks name d s.blocks with
    | some blocks => some { s with blocks }
    | none =>
      if (s.locals name).isSome then some { s with locals := s.locals.set name d } else none

end State

/-! ## Expressions -/

/-- The value of a datum that is one. -/
def Datum.value? : Datum V → Option V
  | .value v => some v
  | _ => none

/-- The number of a datum that is one. -/
def Datum.int? : Datum V → Option Int
  | .int n => some n
  | _ => none

/-- Whether a datum stands for a condition that holds. -/
def Datum.truth (H : Host V) : Datum V → Option Bool
  | .logical b => some b
  | .value v => some (H.holds v)
  | _ => none

/-- An operation on two operands; sums and differences do not overflow. -/
def BinOp.apply (H : Host V) : BinOp → Datum V → Datum V → Option (Datum V)
  | .eq, .int a, .int b => some (.logical (a == b))
  | .gt, .int a, .int b => some (.logical (b < a))
  | .ge, .int a, .int b => some (.logical (b ≤ a))
  | .lt, .int a, .int b => some (.logical (a < b))
  | .add, .int a, .int b => some (.int (a + b))
  | .sub, .int a, .int b => some (.int (a - b))
  | .concat, .value a, .value b => some (.value (H.ofText (H.toText a ++ H.toText b)))
  | _, _, _ => none

/-- The characters of the input from `lo` to `hi`, which count from 1; none when `hi`
comes before `lo`. -/
def substring (input : List Char) (lo hi : Int) : Option (List Char) :=
  if hi < lo then some []
  else if 1 ≤ lo ∧ hi ≤ input.length then some ((input.take hi.toNat).drop (lo.toNat - 1))
  else none

variable (M : Machine V)

/-- A primitive match, if the name is that of one. -/
def Machine.primitive (name : String) (args : List (Datum V)) (cursor : Int) :
    Option (Bool × Int) :=
  if name = Lowering.acceptString then
    match args with
    | [.value text] => some (M.runtime.acceptString M.input (M.host.toText text) cursor)
    | _ => none
  else if name = Lowering.acceptSet then
    match args with
    | [.array items] => some (M.runtime.acceptSet M.input (items.flatMap M.host.toText) cursor)
    | _ => none
  else if name = Lowering.acceptRange then
    match args with
    | [.value bottom, .value top] =>
      some (M.runtime.acceptRange M.input (M.host.toText bottom) (M.host.toText top) cursor)
    | _ => none
  else if name = Lowering.acceptAny then
    match args with
    | [] => some (M.runtime.acceptAny M.input cursor)
    | _ => none
  else if name = Lowering.acceptEnd then
    match args with
    | [] => some (M.runtime.acceptEnd M.input cursor)
    | _ => none
  else none

/-- The call of a rule's function, which sets its argument and moves the cursor. -/
def Machine.callRule (name : String) (args : List Expr) (s : State V) :
    Option (Datum V × State V) :=
  match args with
  | [.var var] => do
    let r ← M.call name s.cursor
    let s ← { s with cursor := r.cursor }.write var (r.value.map .value)
    some (.logical r.accepted, s)
  | _ => none

/-- The call of a function with a body of code, which changes nothing. -/
def Machine.callCode (f : Function) (code : String) (args : List (Datum V)) : Option (Datum V) := do
  let values ← args.mapM Datum.value?
  if values.length = f.args.length then
    some (.value (M.host.run f.resultType code (f.args.zip values)))
  else none

mutual

/-- The value of an expression, and the state behind its calls. -/
def Expr.eval : Expr → State V → Option (Datum V × State V)
  | .var name, s => (s.read name).map (fun d => (d, s))
  | .int n, s => some (.int n, s)
  | .logical b, s => some (.logical b, s)
  | .str value, s => some (.value (M.host.ofText value.toList), s)
  | .call name args, s =>
    match M.functions.find? (fun f => f.name == name) with
    | some f =>
      match f.body with
      | .stmts _ => M.callRule name args s
      | .verbatim code => do
        let (args, s) ← evalList args s
        let d ← M.callCode f code args
        some (d, s)
    | none => do
      let (args, s) ← evalList args s
      let (accepted, cursor) ← M.primitive name args s.cursor
      some (.logical accepted, { s with cursor })
  | .substring var lo hi, s => do
    let (lo, s) ← lo.eval s
    let (hi, s) ← hi.eval s
    let text ← substring M.input (← lo.int?) (← hi.int?)
    if var = inputVar then some (.value (M.host.ofText text), s) else none
  | .array items, s => do
    let (items, s) ← evalList items s
    let values ← items.mapM Datum.value?
    some (.array values, s)
  | .not operand, s => do
    let (d, s) ← operand.eval s
    let b ← d.truth M.host
    some (.logical !b, s)
  | .bin op lhs rhs, s => do
    let (a, s) ← lhs.eval s
    let (b, s) ← rhs.eval s
    let d ← op.apply M.host a b
    some (d, s)
  | .verbatim code, s => some (.int (M.host.bound code s.cursor), s)

/-- The values of expressions, one after another. -/
def evalList : List Expr → State V → Option (List (Datum V) × State V)
  | [], s => some ([], s)
  | e :: rest, s => do
    let (d, s) ← e.eval s
    let (ds, s) ← evalList rest s
    some (d :: ds, s)

end

/-- The truth of a condition. -/
def Expr.test (e : Expr) (s : State V) : Option (Bool × State V) := do
  let (d, s) ← e.eval M s
  let b ← d.truth M.host
  some (b, s)

/-! ## Statements -/

/-- Turns of a loop without a count, at most `left` of them. -/
def turnsUpTo (label : Option String) (body : State V → Option (Signal × State V)) :
    (left : Nat) → State V → Option (Signal × State V)
  | 0, _ => none
  | left + 1, s => do
    let (signal, s) ← body s
    match signal.afterTurn label with
    | some signal => some (signal, s)
    | none => turnsUpTo label body left s

open Classical in
/-- Turns of an endless loop, as many as it takes. There is no outcome if no number of them
is enough. -/
noncomputable def endless (label : Option String) (body : State V → Option (Signal × State V))
    (s : State V) : Option (Signal × State V) :=
  if h : ∃ left, (turnsUpTo label body left s).isSome then turnsUpTo label body h.choose s else none

section
variable {label : Option String} {body : State V → Option (Signal × State V)}

/-- A loop that has ended has no more turns. -/
theorem turnsUpTo_mono {left left' : Nat} (hle : left ≤ left') {s : State V}
    {r : Signal × State V} (h : turnsUpTo label body left s = some r) :
    turnsUpTo label body left' s = some r := by
  induction left generalizing left' s with
  | zero => cases h
  | succ left ih =>
    obtain ⟨more, rfl⟩ := Nat.exists_eq_add_of_le' hle
    rw [turnsUpTo, Option.bind_eq_bind, Option.bind_eq_some_iff] at h
    obtain ⟨⟨signal, s'⟩, hbody, h⟩ := h
    rw [← Nat.add_assoc, turnsUpTo, hbody, Option.bind_eq_bind, Option.bind_some]
    dsimp only at h ⊢
    split at h
    next => exact h
    next => exact ih (Nat.le_add_left left more) h

theorem endless_eq_some {s : State V} {r : Signal × State V} :
    endless label body s = some r ↔ ∃ left, turnsUpTo label body left s = some r := by
  unfold endless
  constructor
  · intro h
    split at h
    next => exact ⟨_, h⟩
    next => cases h
  · rintro ⟨left, h⟩
    have hends : ∃ left, (turnsUpTo label body left s).isSome := ⟨left, by rw [h]; rfl⟩
    obtain ⟨r', hr'⟩ := Option.isSome_iff_exists.mp hends.choose_spec
    -- the larger number of turns has both outcomes
    have hsame := (turnsUpTo_mono (Nat.le_max_left left hends.choose) h).symm.trans
      (turnsUpTo_mono (Nat.le_max_right left hends.choose) hr')
    rw [dif_pos hends, hr', hsame]

/-- An endless loop is a turn, and the loop again if that goes on. -/
theorem endless_eq (s : State V) : endless label body s = (body s).bind fun r =>
    match r.1.afterTurn label with
    | some signal => some (signal, r.2)
    | none => endless label body r.2 := by
  have hturn (left : Nat) : turnsUpTo label body (left + 1) s = (body s).bind fun r =>
      match r.1.afterTurn label with
      | some signal => some (signal, r.2)
      | none => turnsUpTo label body left r.2 := rfl
  refine Option.ext fun r => ?_
  rw [endless_eq_some, Option.bind_eq_some_iff]
  constructor
  · rintro ⟨_ | left, h⟩
    · cases h
    · rw [hturn, Option.bind_eq_some_iff] at h
      obtain ⟨x, hx, h⟩ := h
      refine ⟨x, hx, ?_⟩
      cases hgoes : x.1.afterTurn label with
      | some signal => rwa [hgoes] at h
      | none =>
        rw [hgoes] at h
        exact endless_eq_some.mpr ⟨left, h⟩
  · rintro ⟨x, hx, h⟩
    cases hgoes : x.1.afterTurn label with
    | some signal =>
      rw [hgoes] at h
      refine ⟨1, ?_⟩
      rw [hturn, hx, Option.bind_some, hgoes]
      exact h
    | none =>
      rw [hgoes] at h
      obtain ⟨left, h⟩ := endless_eq_some.mp h
      refine ⟨left + 1, ?_⟩
      rw [hturn, hx, Option.bind_some, hgoes]
      exact h

end

/-- Turns of a counted loop, of which `left` are left. -/
def counted (label : Option String) (var : String) (body : State V → Option (Signal × State V)) :
    (left : Nat) → (index : Int) → State V → Option (Signal × State V)
  | 0, index, s => (s.write var (some (.int index))).map (fun s => (.next, s))
  | left + 1, index, s => do
    let s ← s.write var (some (.int index))
    let (signal, s) ← body s
    match signal.afterTurn label with
    | some signal => some (signal, s)
    | none => counted label var body left (index + 1) s

mutual

/-- Runs a statement. -/
noncomputable def Stmt.run : Stmt → State V → Option (Signal × State V)
  | .assign lhs rhs, s => do
    let (d, s) ← rhs.eval M s
    (s.write lhs (some d)).map (fun s => (.next, s))
  | .cond test body elseIfs otherwise, s => do
    let (b, s) ← test.test M s
    if b then runStmts body s else runBranches (runOptional otherwise) elseIfs s
  | .loop label none body, s => endless label (runStmts body) s
  | .loop label (some range) body, s => do
    let (first, s) ← range.first.eval M s
    let (last, s) ← range.last.eval M s
    let first ← first.int?
    let last ← last.int?
    counted label range.var (runStmts body) (last - first + 1).toNat first s
  | .select selector cases default, s => do
    let (d, s) ← selector.eval M s
    let n ← d.int?
    runCases n (runOptional default) cases s
  | .block label decls body, s => do
    let (signal, s) ← runStmts body { s with blocks := Frame.ofDecls decls :: s.blocks }
    some (signal.afterBlock label, { s with blocks := s.blocks.tail })
  | .exit label, s => some (.exit label, s)
  | .cycle label, s => some (.cycle label, s)
  | .return, s => some (.return, s)

/-- Runs statements up to the first that does not go on. -/
noncomputable def runStmts : List Stmt → State V → Option (Signal × State V)
  | [], s => some (.next, s)
  | stmt :: rest, s => do
    match ← stmt.run s with
    | (.next, s) => runStmts rest s
    | ended => some ended

/-- Runs the first of further branches whose condition holds, or else `otherwise`. -/
noncomputable def runBranches (otherwise : State V → Option (Signal × State V)) :
    List (Expr × List Stmt) → State V → Option (Signal × State V)
  | [], s => otherwise s
  | (test, body) :: rest, s => do
    let (b, s) ← test.test M s
    if b then runStmts body s else runBranches otherwise rest s

/-- Runs statements that may be missing. -/
noncomputable def runOptional : Option (List Stmt) → State V → Option (Signal × State V)
  | none, s => some (.next, s)
  | some body, s => runStmts body s

/-- Runs the case of a number, or else `default`. -/
noncomputable def runCases (n : Int) (default : State V → Option (Signal × State V)) :
    List (Nat × List Stmt) → State V → Option (Signal × State V)
  | [], s => default s
  | (value, body) :: rest, s =>
    if (value : Int) = n then runStmts body s else runCases n default rest s

end

/-! ## Functions -/

/-- Runs the body of a rule's function from a cursor. -/
noncomputable def Function.run (f : Function) (cursor : Int) : Option (Return V) :=
  match f.body, f.args with
  | .stmts body, [arg] => do
    let (signal, s) ← runStmts M body ⟨cursor, [], Frame.ofDecls f.decls⟩
    if signal = .next ∨ signal = .return then
      let accepted ← (← s.read f.result).truth M.host
      some ⟨accepted, s.cursor, (s.read arg).bind Datum.value?⟩
    else none
  | _, _ => none

end

section
-- derives the equations of the recursion here, once: the many proofs that rewrite with them
-- would all wait for the first
attribute [local simp] Stmt.run Expr.eval
end

section
variable {V : Type} (functions : List Function) (H : Host V) (R : Runtime) (input : List Char)

/-- Calls a function of a module at a cursor, with calls nested as deep as `depth`. -/
noncomputable def callFunction : (depth : Nat) → (name : String) → (cursor : Int) → Option (Return V)
  | 0, _, _ => none
  | depth + 1, name, cursor => do
    let M : Machine V := ⟨H, R, input, functions, callFunction depth⟩
    let f ← functions.find? (fun f => f.name == name)
    f.run M cursor

/-- A call of a function ends. -/
def Returns (name : String) (cursor : Int) (r : Return V) : Prop :=
  ∃ depth, callFunction functions H R input depth name cursor = some r

end

end PegCompiler.Target
