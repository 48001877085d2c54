import PegCompiler.Proofs.Target.Rows
/-
  Constructs of several rows. The reader keeps the constructs that are open, innermost
  first, each with what it has read of it and the statements in front of it (`State`). A
  row is a statement, opens a construct, goes on to the next part of the innermost one or
  ends it; every other row is refused, as is a statement between the head of a selection
  and its first case.

  What one row does is said by `step`. Over a whole construct only the statements read so
  far change (`run_stmt`): behind the rows of a statement the reader stands in the same
  constructs as in front of them, with that statement more.
-/

namespace PegCompiler.Target

/-! ## Rows of statements -/

/-- What stands on a line of its own in a selection without cases. -/
def blankRows (cases : List (Nat × List Stmt)) (default : Option (List Stmt)) : List Row :=
  if cases.isEmpty && default.isNone then [.blank] else []

mutual

/-- The rows of a statement. -/
def Stmt.rows : Stmt → List Row
  | .cond test body elseIfs otherwise =>
    match lone body elseIfs otherwise with
    | some s => [.guarded test s]
    | none => .ifThen test :: (stmtsRows body ++ (branchesRows elseIfs ++
        (partRows .otherwise otherwise ++ [.endIf])))
  | .loop label range body => .loop label range :: (stmtsRows body ++ [.endLoop label])
  | .select selector cases default =>
    .select selector :: (casesRows cases ++ (partRows .caseDefault default ++
      (blankRows cases default ++ [.endSelect])))
  | .block label decls body =>
    .block label :: (decls.map .decl ++ (stmtsRows body ++ [.endBlock label]))
  | .assign lhs rhs => [.simple (.assign lhs rhs)]
  | .exit label => [.simple (.exit label)]
  | .cycle label => [.simple (.cycle label)]
  | .return => [.simple .return]

/-- The rows of several statements. -/
def stmtsRows : List Stmt → List Row
  | [] => []
  | s :: rest => s.rows ++ stmtsRows rest

/-- The rows of further branches. -/
def branchesRows : List (Expr × List Stmt) → List Row
  | [] => []
  | (test, body) :: rest => .elseIf test :: (stmtsRows body ++ branchesRows rest)

/-- The rows of cases. -/
def casesRows : List (Nat × List Stmt) → List Row
  | [] => []
  | (value, body) :: rest => .case value :: (stmtsRows body ++ casesRows rest)

/-- The rows of a part that may be missing. -/
def partRows (head : Row) : Option (List Stmt) → List Row
  | none => []
  | some body => head :: stmtsRows body

end

/-! ## Reading constructs -/

namespace Reader

/-- An open construct: what has been read of it in front of its innermost statements. -/
inductive Frame where
  | branch (earlier : List (Expr × List Stmt)) (test : Expr)
  | otherwise (branches : List (Expr × List Stmt))
  | loop (label : Option String) (range : Option DoRange)
  | selected (selector : Expr)
  | case (selector : Expr) (earlier : List (Nat × List Stmt)) (value : Nat)
  | caseDefault (selector : Expr) (cases : List (Nat × List Stmt))
  | block (label : Option String) (decls : List Decl)

/-- An open construct and the statements in front of it. -/
structure Open where
  frame : Frame
  outer : List Stmt

/-- The statements read so far and the constructs around them. -/
structure State where
  done : List Stmt
  constructs : List Open

/-- Statements cannot stand in front of the first case. -/
def accepts : List Open → Bool
  | ⟨.selected _, _⟩ :: _ => false
  | _ => true

/-- One more statement. -/
def State.add (s : Stmt) (st : State) : Option State :=
  if accepts st.constructs then some ⟨st.done ++ [s], st.constructs⟩ else none

/-- One more construct. -/
def State.enter (frame : Frame) (st : State) : State :=
  ⟨[], ⟨frame, st.done⟩ :: st.constructs⟩

/-- A conditional construct of branches. -/
def conditional (otherwise : Option (List Stmt)) : List (Expr × List Stmt) → Option Stmt
  | [] => none
  | (test, body) :: rest => some (.cond test body rest otherwise)

namespace Frame

/-- The branches that end with some statements. -/
def branches : Frame → List Stmt → Option (List (Expr × List Stmt))
  | .branch earlier test, done => some (earlier ++ [(test, done)])
  | _, _ => none

/-- The cases that end with some statements. -/
def cases : Frame → List Stmt → Option (Expr × List (Nat × List Stmt))
  | .selected selector, [] => some (selector, [])
  | .case selector earlier value, done => some (selector, earlier ++ [(value, done)])
  | _, _ => none

/-- The next part of a construct, behind the statements of the last one. -/
def next : Row → Frame → List Stmt → Option Frame
  | .elseIf test, frame, done => (frame.branches done).map (.branch · test)
  | .otherwise, frame, done => (frame.branches done).map .otherwise
  | .case value, frame, done => (frame.cases done).map fun (selector, cases) =>
    .case selector cases value
  | .caseDefault, frame, done => (frame.cases done).map fun (selector, cases) =>
    .caseDefault selector cases
  | .decl d, .block label decls, [] => some (.block label (decls ++ [d]))
  | _, _, _ => none

/-- A whole construct, with the statements of its last part. -/
def close : Row → Frame → List Stmt → Option Stmt
  | .endIf, .otherwise branches, done => conditional (some done) branches
  | .endIf, frame, done => (frame.branches done).bind (conditional none)
  | .endLoop label, .loop opened range, done =>
    if label = opened then some (.loop label range done) else none
  | .endSelect, .caseDefault selector cases, done => some (.select selector cases (some done))
  | .endSelect, frame, done => (frame.cases done).map fun (selector, cases) =>
    .select selector cases none
  | .endBlock label, .block opened decls, done =>
    if label = opened then some (.block label decls done) else none
  | _, _, _ => none

end Frame

/-- What a row does inside the innermost construct. -/
def within (r : Row) : State → Option State
  | ⟨_, []⟩ => none
  | ⟨done, ⟨frame, outer⟩ :: constructs⟩ =>
    match frame.next r done with
    | some frame => some ⟨[], ⟨frame, outer⟩ :: constructs⟩
    | none => (frame.close r done).bind fun s => State.add s ⟨outer, constructs⟩

/-- What a row does. -/
def step (r : Row) (st : State) : Option State :=
  match r with
  | .blank => some st
  | .simple s => st.add s
  | .guarded test s => st.add (.when test [s])
  | .ifThen test => some (st.enter (.branch [] test))
  | .loop label range => some (st.enter (.loop label range))
  | .select selector => some (st.enter (.selected selector))
  | .block label => some (st.enter (.block label []))
  | r => within r st

/-- What rows do. -/
def run : List Row → State → Option State
  | [], st => some st
  | r :: rows, st => (step r st).bind (run rows)

/-! ## What rows do -/

variable {done outer : List Stmt} {constructs : List Open} {r : Row}

theorem add_of_accepts (h : accepts constructs = true) (s : Stmt) (done : List Stmt) :
    State.add s ⟨done, constructs⟩ = some ⟨done ++ [s], constructs⟩ := by
  rw [State.add, if_pos h]

theorem run_step {st st' : State} (h : step r st = some st') (rows : List Row) :
    run (r :: rows) st = run rows st' := by
  rw [run, h]
  rfl

/-- A row that is a statement. -/
theorem run_add {s : Stmt} (hstep : ∀ st, step r st = st.add s) (h : accepts constructs = true)
    (rows : List Row) :
    run (r :: rows) ⟨done, constructs⟩ = run rows ⟨done ++ [s], constructs⟩ := by
  apply run_step
  rw [hstep, add_of_accepts h]

/-- A row that begins the next part of a construct. -/
theorem run_next {frame next : Frame} (hstep : ∀ st, step r st = within r st)
    (hnext : frame.next r done = some next) (rows : List Row) :
    run (r :: rows) ⟨done, ⟨frame, outer⟩ :: constructs⟩ =
      run rows ⟨[], ⟨next, outer⟩ :: constructs⟩ := by
  apply run_step
  rw [hstep, within, hnext]

/-- A row that ends a construct puts the whole of it behind what stood in front of it. -/
theorem run_close {frame : Frame} {s : Stmt} (hstep : ∀ st, step r st = within r st)
    (hnext : frame.next r done = none) (hclose : frame.close r done = some s)
    (h : accepts constructs = true) (rows : List Row) :
    run (r :: rows) ⟨done, ⟨frame, outer⟩ :: constructs⟩ =
      run rows ⟨outer ++ [s], constructs⟩ := by
  apply run_step
  rw [hstep, within, hnext]
  dsimp only
  rw [hclose, Option.bind_some, add_of_accepts h]

/-- The declarations of a block are read in front of its statements. -/
theorem run_decls (label : Option String) (rows : List Row) (ds : List Decl) :
    ∀ earlier : List Decl,
      run (ds.map .decl ++ rows) ⟨[], ⟨.block label earlier, outer⟩ :: constructs⟩ =
        run rows ⟨[], ⟨.block label (earlier ++ ds), outer⟩ :: constructs⟩ := by
  induction ds with
  | nil =>
    intro earlier
    rw [List.append_nil]
    rfl
  | cons d ds ih =>
    intro earlier
    have hnext : (Frame.block label earlier).next (.decl d) [] =
        some (.block label (earlier ++ [d])) := rfl
    rw [List.map_cons, List.cons_append, run_next (fun _ => rfl) hnext, ih, List.append_assoc,
      List.singleton_append]

theorem close_branches {frame : Frame} {bs : List (Expr × List Stmt)}
    (h : frame.branches done = some bs) : frame.close .endIf done = conditional none bs := by
  cases frame with
  | branch earlier test =>
    obtain rfl := Option.some.inj h
    rfl
  | _ => exact nomatch h

theorem close_cases {frame : Frame} {selector : Expr} {cs : List (Nat × List Stmt)}
    (h : frame.cases done = some (selector, cs)) :
    frame.close .endSelect done = some (.select selector cs none) := by
  cases frame with
  | selected | case =>
    rw [Frame.close, h]
    · rfl
    · exact fun _ _ he => nomatch he
  | _ => exact nomatch h

theorem run_blankRows (cases : List (Nat × List Stmt)) (default : Option (List Stmt))
    (rows : List Row) (st : State) : run (blankRows cases default ++ rows) st = run rows st := by
  unfold blankRows
  split
  · rfl
  · rfl

mutual

/-- Behind the rows of a statement the reader has that statement more. -/
theorem run_stmt : ∀ (s : Stmt) ⦃done : List Stmt⦄ ⦃constructs : List Open⦄,
    accepts constructs = true → ∀ rows : List Row,
      run (s.rows ++ rows) ⟨done, constructs⟩ = run rows ⟨done ++ [s], constructs⟩
  | .cond test body elseIfs otherwise => fun done constructs h rows => by
    rw [Stmt.rows]
    cases hlone : lone body elseIfs otherwise with
    | some s =>
      obtain ⟨rfl, rfl, rfl, -⟩ := lone_eq_some hlone
      exact run_add (fun _ => rfl) h rows
    | none =>
      simp only [List.cons_append, List.append_assoc, List.nil_append]
      have hopen : step (.ifThen test) ⟨done, constructs⟩ =
          some ⟨[], ⟨.branch [] test, done⟩ :: constructs⟩ := rfl
      rw [run_step hopen, run_stmts body rfl, List.nil_append]
      -- the first branch is read like the others, only that it opens the construct
      have hfirst : (Frame.branch [] test).branches body = some [(test, body)] := rfl
      obtain ⟨frame, last, hbranches, hread⟩ := run_branches elseIfs hfirst done constructs
      rw [hread]
      cases otherwise with
      | none =>
        have hclose : frame.close .endIf last = some (.cond test body elseIfs none) :=
          close_branches hbranches
        exact run_close (fun _ => rfl) rfl hclose h rows
      | some rest =>
        have hnext : frame.next .otherwise last = some (.otherwise ((test, body) :: elseIfs)) := by
          rw [Frame.next, hbranches]
          rfl
        have hclose : (Frame.otherwise ((test, body) :: elseIfs)).close .endIf rest =
            some (.cond test body elseIfs (some rest)) := rfl
        rw [partRows, List.cons_append, run_next (fun _ => rfl) hnext, run_stmts rest rfl,
          List.nil_append]
        exact run_close (fun _ => rfl) rfl hclose h rows
  | .loop label range body => fun done constructs h rows => by
    have hopen : step (.loop label range) ⟨done, constructs⟩ =
        some ⟨[], ⟨.loop label range, done⟩ :: constructs⟩ := rfl
    have hclose : (Frame.loop label range).close (.endLoop label) body =
        some (.loop label range body) := if_pos rfl
    rw [Stmt.rows, List.cons_append, List.append_assoc, run_step hopen, run_stmts body rfl]
    exact run_close (fun _ => rfl) rfl hclose h rows
  | .select selector cases default => fun done constructs h rows => by
    have hopen : step (.select selector) ⟨done, constructs⟩ =
        some ⟨[], ⟨.selected selector, done⟩ :: constructs⟩ := rfl
    rw [Stmt.rows]
    simp only [List.cons_append, List.append_assoc, List.nil_append]
    have hhead : (Frame.selected selector).cases [] = some (selector, []) := rfl
    obtain ⟨frame, last, hcases, hread⟩ := run_cases cases hhead done constructs
    rw [run_step hopen, hread]
    cases default with
    | none =>
      have hclose : frame.close .endSelect last = some (.select selector cases none) :=
        close_cases hcases
      rw [partRows, List.nil_append, run_blankRows]
      exact run_close (fun _ => rfl) rfl hclose h rows
    | some rest =>
      have hnext : frame.next .caseDefault last = some (.caseDefault selector cases) := by
        rw [Frame.next, hcases]
        rfl
      have hclose : (Frame.caseDefault selector cases).close .endSelect rest =
          some (.select selector cases (some rest)) := rfl
      rw [partRows, List.cons_append, run_next (fun _ => rfl) hnext, run_stmts rest rfl,
        List.nil_append, run_blankRows]
      exact run_close (fun _ => rfl) rfl hclose h rows
  | .block label decls body => fun done constructs h rows => by
    have hopen : step (.block label) ⟨done, constructs⟩ =
        some ⟨[], ⟨.block label [], done⟩ :: constructs⟩ := rfl
    have hclose : (Frame.block label decls).close (.endBlock label) body =
        some (.block label decls body) := if_pos rfl
    rw [Stmt.rows, List.cons_append, List.append_assoc, List.append_assoc, run_step hopen,
      run_decls, run_stmts body rfl]
    exact run_close (fun _ => rfl) rfl hclose h rows
  | .assign lhs rhs => fun done constructs h rows => by
    rw [Stmt.rows]
    exact run_add (fun _ => rfl) h rows
  | .exit label => fun done constructs h rows => by
    rw [Stmt.rows]
    exact run_add (fun _ => rfl) h rows
  | .cycle label => fun done constructs h rows => by
    rw [Stmt.rows]
    exact run_add (fun _ => rfl) h rows
  | .return => fun done constructs h rows => by
    rw [Stmt.rows]
    exact run_add (fun _ => rfl) h rows

theorem run_stmts : ∀ (ss : List Stmt) ⦃done : List Stmt⦄ ⦃constructs : List Open⦄,
    accepts constructs = true → ∀ rows : List Row,
      run (stmtsRows ss ++ rows) ⟨done, constructs⟩ = run rows ⟨done ++ ss, constructs⟩
  | [] => fun done constructs _ rows => by
    rw [stmtsRows, List.append_nil]
    rfl
  | s :: rest => fun done constructs h rows => by
    rw [stmtsRows, List.append_assoc, run_stmt s h, run_stmts rest h, List.append_assoc,
      List.singleton_append]

/-- Behind the rows of further branches the reader has these branches more. -/
theorem run_branches : ∀ (bs : List (Expr × List Stmt)) ⦃frame : Frame⦄ ⦃body : List Stmt⦄
    ⦃read : List (Expr × List Stmt)⦄, frame.branches body = some read →
      ∀ (outer : List Stmt) (constructs : List Open), ∃ frame' last,
        Frame.branches frame' last = some (read ++ bs) ∧ ∀ rows : List Row,
          run (branchesRows bs ++ rows) ⟨body, ⟨frame, outer⟩ :: constructs⟩ =
            run rows ⟨last, ⟨frame', outer⟩ :: constructs⟩
  | [] => fun frame body read h outer constructs => by
    refine ⟨frame, body, by rw [h, List.append_nil], fun rows => ?_⟩
    rw [branchesRows]
    rfl
  | (test, next) :: rest => fun frame body read h outer constructs => by
    have hnext : frame.next (.elseIf test) body = some (.branch read test) := by
      rw [Frame.next, h]
      rfl
    have hbranches : (Frame.branch read test).branches next = some (read ++ [(test, next)]) := rfl
    obtain ⟨frame', last, hread, hrun⟩ := run_branches rest hbranches outer constructs
    refine ⟨frame', last, by rw [hread, List.append_assoc]; rfl, fun rows => ?_⟩
    rw [branchesRows, List.cons_append, List.append_assoc, run_next (fun _ => rfl) hnext,
      run_stmts next rfl, List.nil_append, hrun]

/-- Behind the rows of cases the reader has these cases more. -/
theorem run_cases : ∀ (cs : List (Nat × List Stmt)) ⦃frame : Frame⦄ ⦃body : List Stmt⦄
    ⦃selector : Expr⦄ ⦃read : List (Nat × List Stmt)⦄,
    frame.cases body = some (selector, read) →
      ∀ (outer : List Stmt) (constructs : List Open), ∃ frame' last,
        Frame.cases frame' last = some (selector, read ++ cs) ∧ ∀ rows : List Row,
          run (casesRows cs ++ rows) ⟨body, ⟨frame, outer⟩ :: constructs⟩ =
            run rows ⟨last, ⟨frame', outer⟩ :: constructs⟩
  | [] => fun frame body selector read h outer constructs => by
    refine ⟨frame, body, by rw [h, List.append_nil], fun rows => ?_⟩
    rw [casesRows]
    rfl
  | (value, next) :: rest => fun frame body selector read h outer constructs => by
    have hnext : frame.next (.case value) body = some (.case selector read value) := by
      rw [Frame.next, h]
      rfl
    have hcases : (Frame.case selector read value).cases next =
        some (selector, read ++ [(value, next)]) := rfl
    obtain ⟨frame', last, hread, hrun⟩ := run_cases rest hcases outer constructs
    refine ⟨frame', last, by rw [hread, List.append_assoc]; rfl, fun rows => ?_⟩
    rw [casesRows, List.cons_append, List.append_assoc, run_next (fun _ => rfl) hnext,
      run_stmts next rfl, List.nil_append, hrun]

end

/-- The statements of rows that leave no construct open. -/
def statements (rows : List Row) : Option (List Stmt) :=
  match run rows ⟨[], []⟩ with
  | some ⟨done, []⟩ => some done
  | _ => none

/-- The statements of a body are read back from their rows, behind a line end. -/
theorem statements_rows (ss : List Stmt) : statements (.blank :: stmtsRows ss) = some ss := by
  have hblank : step .blank ⟨[], []⟩ = some ⟨[], []⟩ := rfl
  have hrun : run (stmtsRows ss ++ []) ⟨[], []⟩ = some ⟨ss, []⟩ := run_stmts ss rfl []
  rw [List.append_nil] at hrun
  rw [statements, run_step hblank, hrun]

/-! ## Rows that can be read back -/

mutual

theorem rows_legible : ∀ s : Stmt, s.Legible (fun _ => False) → ∀ r ∈ s.rows, r.Legible
  | .cond test body elseIfs otherwise, h => by
    obtain ⟨htest, hbody, helseIfs, hotherwise⟩ := h
    rw [Stmt.rows]
    cases hlone : lone body elseIfs otherwise with
    | some s =>
      obtain ⟨rfl, -, -, hsimple⟩ := lone_eq_some hlone
      exact List.forall_mem_singleton.mpr ⟨htest, hsimple, hbody.1⟩
    | none =>
      have hbranches := branchesRows_legible elseIfs helseIfs
      have hpart := partRows_legible .otherwise trivial otherwise hotherwise
      have hend : ∀ r ∈ [Row.endIf], r.Legible := List.forall_mem_singleton.mpr trivial
      exact List.forall_mem_cons.mpr ⟨htest, List.forall_mem_append.mpr
        ⟨stmtsRows_legible body hbody, List.forall_mem_append.mpr
          ⟨hbranches, List.forall_mem_append.mpr ⟨hpart, hend⟩⟩⟩⟩
  | .loop label range body, h => by
    have hend : ∀ r ∈ [Row.endLoop label], r.Legible := List.forall_mem_singleton.mpr trivial
    rw [Stmt.rows]
    exact List.forall_mem_cons.mpr ⟨h.2.1, List.forall_mem_append.mpr
      ⟨stmtsRows_legible body h.2.2, hend⟩⟩
  | .select selector cases default, h => by
    obtain ⟨hselector, hcases, hdefault⟩ := h
    have hpart := partRows_legible .caseDefault trivial default hdefault
    have hblank : ∀ r ∈ blankRows cases default, r.Legible := by
      unfold blankRows
      split
      · exact List.forall_mem_singleton.mpr trivial
      · exact fun _ h => nomatch h
    have hend : ∀ r ∈ [Row.endSelect], r.Legible := List.forall_mem_singleton.mpr trivial
    rw [Stmt.rows]
    exact List.forall_mem_cons.mpr ⟨hselector, List.forall_mem_append.mpr
      ⟨casesRows_legible cases hcases, List.forall_mem_append.mpr
        ⟨hpart, List.forall_mem_append.mpr ⟨hblank, hend⟩⟩⟩⟩
  | .block label decls body, h => by
    have hdecls : ∀ r ∈ decls.map Row.decl, r.Legible := List.forall_mem_map.mpr h.2.1
    have hend : ∀ r ∈ [Row.endBlock label], r.Legible := List.forall_mem_singleton.mpr trivial
    rw [Stmt.rows]
    exact List.forall_mem_cons.mpr ⟨trivial, List.forall_mem_append.mpr
      ⟨hdecls, List.forall_mem_append.mpr ⟨stmtsRows_legible body h.2.2, hend⟩⟩⟩
  | .assign lhs rhs, h | .exit label, h | .cycle label, h | .return, h => by
    rw [Stmt.rows]
    exact List.forall_mem_singleton.mpr ⟨rfl, h⟩

theorem stmtsRows_legible : ∀ ss : List Stmt, stmtsLegible (fun _ => False) ss →
    ∀ r ∈ stmtsRows ss, r.Legible
  | [], _ => by
    rw [stmtsRows]
    exact fun _ h => nomatch h
  | s :: rest, h => by
    rw [stmtsRows]
    exact List.forall_mem_append.mpr ⟨rows_legible s h.1, stmtsRows_legible rest h.2⟩

theorem branchesRows_legible : ∀ bs : List (Expr × List Stmt),
    branchesLegible (fun _ => False) bs → ∀ r ∈ branchesRows bs, r.Legible
  | [], _ => by
    rw [branchesRows]
    exact fun _ h => nomatch h
  | (test, body) :: rest, h => by
    rw [branchesRows]
    exact List.forall_mem_cons.mpr ⟨h.1, List.forall_mem_append.mpr
      ⟨stmtsRows_legible body h.2.1, branchesRows_legible rest h.2.2⟩⟩

theorem casesRows_legible : ∀ cs : List (Nat × List Stmt), casesLegible (fun _ => False) cs →
    ∀ r ∈ casesRows cs, r.Legible
  | [], _ => by
    rw [casesRows]
    exact fun _ h => nomatch h
  | (value, body) :: rest, h => by
    rw [casesRows]
    exact List.forall_mem_cons.mpr ⟨trivial, List.forall_mem_append.mpr
      ⟨stmtsRows_legible body h.1, casesRows_legible rest h.2⟩⟩

theorem partRows_legible (head : Row) (hhead : head.Legible) : ∀ part : Option (List Stmt),
    optionalLegible (fun _ => False) part → ∀ r ∈ partRows head part, r.Legible
  | none, _ => by
    rw [partRows]
    exact fun _ h => nomatch h
  | some body, h => by
    rw [partRows]
    exact List.forall_mem_cons.mpr ⟨hhead, stmtsRows_legible body h⟩

end

end Reader

end PegCompiler.Target
