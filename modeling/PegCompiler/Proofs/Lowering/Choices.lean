import PegCompiler.Proofs.Lowering.Calls
/-
  Lookaheads and choices. Each keeps the cursor in a variable of its own number, runs
  what it is made of with failing statements of its own, and puts the cursor back. What
  it is made of only has to do what the parser does; how it fails inside is the
  business of the construct.
-/

namespace PegCompiler.Lowering

open Resolved (Alternative Captured Parser runAlternatives)
open Semantics (Outcome checked)
open Target (Datum Decl Expr Frame Machine Signal State Stmt counted runCases runOptional runStmts)

section
variable {V : Type} {T : Machine V} {full : Scope} {env : Captured V} {n k : Nat}
  {s : State V} {pos : Nat} {sig : Signal} {back : Option Int} {fail : List Stmt}

theorem Fits.nil (h : Fits full env s) : Fits full [] s :=
  ⟨h.locals, h.blocks, fun _ _ hv => (nomatch hv)⟩

/-! ## Blocks -/

/-- The state inside a block. -/
def push (decls : List Decl) (s : State V) : State V :=
  { s with blocks := Frame.ofDecls decls :: s.blocks }

/-- The state behind a block. -/
def pop (s : State V) : State V :=
  { s with blocks := s.blocks.tail }

@[simp] theorem push_cursor (decls : List Decl) (s : State V) : (push decls s).cursor = s.cursor :=
  rfl

@[simp] theorem push_locals (decls : List Decl) (s : State V) : (push decls s).locals = s.locals :=
  rfl

@[simp] theorem pop_cursor (s : State V) : (pop s).cursor = s.cursor := rfl

@[simp] theorem pop_locals (s : State V) : (pop s).locals = s.locals := rfl

theorem run_block (label : Option String) (decls : List Decl) (body : List Stmt) (s : State V) :
    (Stmt.block label decls body).run T s =
      (runStmts T body (push decls s)).map fun r => (r.1.afterBlock label, pop r.2) := by
  rw [Stmt.run]
  show (runStmts T body (push decls s)).bind _ = _
  rcases runStmts T body (push decls s) with _ | ⟨_, _⟩ <;> rfl

/-- A block without variables changes nothing. -/
theorem Fits.push_nil (h : Fits full env s) : Fits full env (push [] s) where
  locals := h.locals
  blocks f hf name hname := by
    rcases List.mem_cons.mp hf with rfl | hf
    · cases hname
    · exact h.blocks f hf name hname
  captures := h.captures

/-- What a block leaves behind, where its body left the blocks around it alone. -/
theorem After.pop {decls : List Decl} {t : State V} (hkept : Kept n (push decls s) t)
    (hblocks : t.blocks.tail = s.blocks) : After n s (pop t) :=
  ⟨(Kept.of_locals rfl : Kept n s (push decls s)).trans (hkept.trans (.of_locals rfl)), hblocks⟩

/-! ## Variables of a construct -/

/-- A variable of a construct is set before anything inside can see it. -/
theorem After.own {w : String} (hw : w ∈ ownWords) (hk : n < k) (hfits : Fits full env s)
    (hmem : numbered w k ∈ full.names) (d : Option (Datum V)) :
    After n s (Lowering.withLocal s (numbered w k) d) :=
  .withLocal d (not_protected_own hw hk) (hfits.locals _ hmem)

theorem run_keep_own {w : String} (hw : w ∈ ownWords) (hfits : Fits full env s)
    (hmem : numbered w k ∈ full.names) : (keep (numbered w k)).run T s =
      some (.next, withLocal s (numbered w k) (some (.int s.cursor))) :=
  run_keep (plain_own hw k) hfits.blocks (hfits.locals _ hmem)

theorem run_assign_own {w : String} (hw : w ∈ ownWords) (hfits : Fits full env s)
    (hmem : numbered w k ∈ full.names) {e : Expr} {d : Datum V} (he : e.eval T s = some (d, s)) :
    (Stmt.assign (numbered w k) e).run T s =
      some (.next, withLocal s (numbered w k) (some d)) :=
  run_assign he (write_plain _ (plain_own hw k) hfits.blocks (hfits.locals _ hmem))

theorem own_ne {w w' : String} (h : w ≠ w') : numbered w k ≠ numbered w' k := fun he =>
  h (Naming.append_number_inj he).1

/-! ## Lookahead -/

/-- What a lookahead does behind its body: the cursor goes back, and the flag decides. -/
theorem lookahead_decides {b negated : Bool} {t : State V}
    (hafter : After n s t) (hfits : Fits full env t)
    (hsave : t.locals (numbered "save" k) = some (some (.int (pos + 1))))
    (hok : t.locals (numbered "ok" k) = some (some (.logical b)))
    (hesc : Escapes T fail n s sig back) :
    Ends n s pos sig back (fun _ _ => True)
      (some (checked T.host T.input pos (b != negated)))
      (runStmts T [restore (numbered "save" k), failOn negated (.var (numbered "ok" k)) fail] t) := by
  have hread := read_local (plain_own (w := "ok") (by decide) k) hfits.blocks hok
  have htest : (Expr.var (numbered "ok" k)).test T (withCursor t (pos + 1)) =
      some (b, withCursor t (pos + 1)) :=
    test_of_eval (eval_var hread) rfl
  rw [runStmts_cons, run_restore (plain_own (w := "save") (by decide) k) hfits.blocks hsave,
    andThen_next, runStmts_single, run_failOn htest]
  have hback := hafter.trans (.withCursor (pos + 1))
  cases b != negated with
  | true => exact .matched hback (by rw [withCursor_cursor]) trivial
  | false =>
    have hrun := hesc.run (withCursor t (pos + 1)) hback.kept hfits.blocks
    rw [if_neg Bool.false_ne_true, hrun]
    exact .failed (hback.trans (.withCursor _)) rfl

theorem simulates_lookahead {body : List Stmt} {outcome : Nat → Option (Outcome V)} {negated : Bool}
    (hk : n < k) (hsave : numbered "save" k ∈ full.names) (hok : numbered "ok" k ∈ full.names)
    (hbody : Simulates T full env k [.exit (some (numbered "look" k))] body outcome) :
    Simulates T full env n fail
      [keep (numbered "save" k), .assign (numbered "ok" k) (.logical false),
        .block (some (numbered "look" k)) [] (body ++ [.assign (numbered "ok" k) (.logical true)]),
        restore (numbered "save" k), failOn negated (.var (numbered "ok" k)) fail]
      (fun pos => (outcome pos).map fun o =>
        checked T.host T.input pos (o.stop?.isSome != negated)) := by
  intro s pos sig back hfits hcursor hpos hesc
  have hwsave : "save" ∈ ownWords := by decide
  have hwok : "ok" ∈ ownWords := by decide
  -- in front of the block
  let t := withLocal s (numbered "save" k) (some (.int s.cursor))
  have hfits₁ : Fits full env t := hfits.withLocal (some (.int s.cursor)) hsave
  let u := withLocal t (numbered "ok" k) (some (.logical false))
  have hfits₂ : Fits full env u := hfits₁.withLocal (some (.logical false)) hok
  have hafter : After n s u :=
    (After.own hwsave hk hfits hsave _).trans (.own hwok hk hfits₁ hok _)
  have hsaveu : u.locals (numbered "save" k) = some (some (.int (pos + 1))) := by
    show (withLocal t _ _).locals _ = _
    rw [withLocal_other _ _ (own_ne (by decide)), withLocal_self, hcursor]
  rw [runStmts_cons, run_keep_own hwsave hfits hsave, andThen_next, runStmts_cons,
    run_assign_own hwok hfits₁ hok (d := .logical false) (by rw [Expr.eval]), andThen_next,
    runStmts_cons, run_block, runStmts_append]
  have hescLook : Escapes T [.exit (some (numbered "look" k))] k (push [] u)
      (.exit (some (numbered "look" k))) none :=
    .of_signal (fun _ => by rw [Stmt.run]) (.exit (Nat.le_refl k))
  have hends := hbody hfits₂.push_nil hcursor hpos hescLook
  show Ends n s pos sig back _ ((outcome pos).map _)
    (andThen ((andThen (runStmts T body (push [] u)) _).map _) _)
  generalize outcome pos = x at hends
  generalize runStmts T body (push [] u) = y at hends
  cases hends with
  | unknown => exact .unknown
  | @failed s' after cursor =>
    have hpop : After k u (pop s') := .pop after.kept (by rw [after.blocks]; rfl)
    have hnext : (andThen (some (Signal.exit (some (numbered "look" k)), s'))
        (runStmts T [.assign (numbered "ok" k) (.logical true)])).map
          (fun r => (r.1.afterBlock (some (numbered "look" k)), pop r.2)) =
        some (.next, pop s') := by
      simp [andThen, Signal.afterBlock]
    rw [hnext, andThen_next]
    refine lookahead_decides (b := false) (hafter.trans (hpop.mono (Nat.le_of_lt hk))) (hfits₂.after hpop) ?_ ?_ hesc
    · rw [hpop.kept.same _ (protected_own hwsave (Nat.le_refl k)), hsaveu]
    · rw [hpop.kept.same _ (protected_own hwok (Nat.le_refl k))]
      exact withLocal_self t _ _
  | @matched s' stop v after cursor gives =>
    have hfits' := hfits₂.push_nil.after after
    rw [andThen_next, runStmts_single,
      run_assign_own hwok hfits' hok (d := .logical true) (by rw [Expr.eval])]
    have hset : After k (push [] u) s' := after
    have hpop : After k u (pop s') := .pop after.kept (by rw [after.blocks]; rfl)
    have hfits₃ : Fits full env (pop s') := hfits₂.after hpop
    have hok' := After.own (n := n) hwok hk hfits₃ hok (some (.logical true))
    show Ends n s pos sig back _ _ (runStmts T _ (withLocal (pop s') _ _))
    refine lookahead_decides (b := true)
      ((hafter.trans (hpop.mono (Nat.le_of_lt hk))).trans hok') (hfits₃.withLocal _ hok) ?_ ?_ hesc
    · rw [withLocal_other _ _ (own_ne (by decide)),
        hpop.kept.same _ (protected_own hwsave (Nat.le_refl k)), hsaveu]
    · exact withLocal_self _ _ _

/-! ## Choices -/

theorem Ends.after {pos : Nat} {t : State V} {Gives : V → State V → Prop}
    {x : Option (Outcome V)} {y : Option (Signal × State V)} (hafter : After n s t)
    (h : Ends n t pos sig back Gives x y) : Ends n s pos sig back Gives x y := by
  cases h with
  | unknown => exact .unknown
  | failed after cursor => exact .failed (hafter.trans after) cursor
  | matched after cursor gives => exact .matched (hafter.trans after) cursor gives

/-- What a choice gives: its value is in its variable, and the cursor in front of it is
still kept. -/
def Chosen (save : String) (pos : Nat) (result : Option String) (v : V) (s : State V) : Prop :=
  Assigned result v s ∧ s.locals save = some (some (.int (pos + 1)))

/-- The statements of a choice do what it does, and give its value. -/
def SimulatesChoice (T : Machine V) (full : Scope) (n : Nat) (save : String)
    (result : Option String) (fail stmts : List Stmt) (outcome : Nat → Option (Outcome V)) : Prop :=
  ∀ ⦃s : State V⦄ ⦃pos : Nat⦄ ⦃sig : Signal⦄ ⦃back : Option Int⦄, Fits full [] s →
    s.cursor = pos + 1 → pos ≤ T.input.length → Escapes T fail n s sig back →
    Ends n s pos sig back (Chosen save pos result) (outcome pos) (runStmts T stmts s)

theorem SimulatesChoice.simulates {save : String} {result : Option String} {stmts : List Stmt}
    {outcome : Nat → Option (Outcome V)}
    (h : SimulatesChoice T full n save result fail stmts outcome) :
    Simulates T full env n fail stmts outcome := by
  intro s pos sig back hfits hcursor hpos hesc
  have hends := h hfits.nil hcursor hpos hesc
  generalize outcome pos = x at hends
  generalize runStmts T stmts s = y at hends
  cases hends with
  | unknown => exact .unknown
  | failed after cursor => exact .failed after cursor
  | matched after cursor _ => exact .matched after cursor trivial

variable {M : Resolved.Machine V} {result : Option String}

theorem runAlternatives_single (a : Alternative) (pos : Nat) :
    runAlternatives M [a] pos = a.run M pos := by
  rw [runAlternatives]
  rcases a.run M pos with _ | _ | _
  · rfl
  · show runAlternatives M [] pos = _
    rw [runAlternatives]
  · rfl

/-- A single alternative fails for the whole choice. -/
theorem simulates_single {row : List Stmt} {a : Alternative} (hk : n < k)
    (hsave : numbered "save" k ∈ full.names)
    (hrow : SimulatesRow T full k (numbered "save" k) result (restore (numbered "save" k) :: fail)
      row (a.run M)) :
    SimulatesChoice T full n (numbered "save" k) result fail (keep (numbered "save" k) :: row)
      (runAlternatives M [a]) := by
  intro s pos sig back hfits hcursor hpos hesc
  have hwsave : "save" ∈ ownWords := by decide
  have hplain : Plain (numbered "save" k) := plain_own hwsave k
  have hprotected : Protected k (numbered "save" k) := protected_own hwsave (Nat.le_refl k)
  let t := withLocal s (numbered "save" k) (some (.int s.cursor))
  have hafter : After n s t := .own hwsave hk hfits hsave _
  have hkeep : t.locals (numbered "save" k) = some (some (.int (pos + 1))) := by
    rw [← hcursor]
    exact withLocal_self s _ _
  have hends := hrow (s := t) (hfits.withLocal _ hsave) hcursor hpos hkeep
    (hesc.restore hplain hprotected hkeep hafter.kept (Nat.le_of_lt hk))
  rw [runStmts_cons, run_keep_own hwsave hfits hsave, andThen_next, runAlternatives_single]
  refine Ends.after hafter ?_
  show Ends n t pos sig back _ _ (runStmts T row t)
  generalize a.run M pos = x at hends
  generalize runStmts T row t = y at hends
  cases hends with
  | unknown => exact .unknown
  | failed after cursor =>
    obtain ⟨c, hc⟩ := cursor
    exact .failed (after.mono (Nat.le_of_lt hk)) hc
  | matched after cursor gives =>
    exact .matched (after.mono (Nat.le_of_lt hk)) cursor
      ⟨gives, (after.kept.same _ hprotected).trans hkeep⟩

theorem runCases_zipIdx (default : State V → Option (Signal × State V)) (label : String)
    (s : State V) : ∀ (cases : List (List Stmt)) (i j : Nat),
    runCases T (j + i : Nat) default
        ((cases.zipIdx j).map fun (body, m) => (m, body ++ [.exit (some label)])) s =
      match cases[i]? with
      | some body => runStmts T (body ++ [.exit (some label)]) s
      | none => default s
  | [], _, _ => by
    rw [List.zipIdx_nil, List.map_nil, runCases]
    rfl
  | body :: cases, 0, j => by
    rw [List.zipIdx_cons, List.map_cons, runCases, if_pos (by omega)]
    rfl
  | body :: cases, i + 1, j => by
    have h := runCases_zipIdx default label s cases i (j + 1)
    rw [List.zipIdx_cons, List.map_cons, runCases, if_neg (by omega), List.getElem?_cons_succ, ← h,
      Nat.add_right_comm, Nat.add_assoc]

/-- A turn of the loop over alternatives: the cursor goes back, and the alternative of the
index runs. -/
def choiceTurn (k : Nat) (cases : List (List Stmt)) (fail : List Stmt) : List Stmt :=
  [restore (numbered "save" k),
    .select (.var (numbered "i" k))
      (cases.zipIdx.map (fun (body, m) => (m, body ++ [.exit (some (numbered "alt" k))])))
      (some fail)]

theorem run_choiceTurn {cases : List (List Stmt)} {i : Nat} {t : State V} (hfits : Fits full [] t)
    (hsave : t.locals (numbered "save" k) = some (some (.int (pos + 1))))
    (hindex : t.locals (numbered "i" k) = some (some (.int i))) :
    runStmts T (choiceTurn k cases fail) t =
      match cases[i]? with
      | some body =>
        runStmts T (body ++ [.exit (some (numbered "alt" k))]) (withCursor t (pos + 1))
      | none => runStmts T fail (withCursor t (pos + 1)) := by
  have hread : (withCursor t (pos + 1)).read (numbered "i" k) = some (.int i) :=
    read_local (plain_own (by decide) k) hfits.blocks hindex
  have hcases := runCases_zipIdx (T := T) (runOptional T (some fail)) (numbered "alt" k)
    (withCursor t (pos + 1)) cases i 0
  rw [Nat.zero_add] at hcases
  rw [choiceTurn, runStmts_cons, run_restore (plain_own (by decide) k) hfits.blocks hsave,
    andThen_next, runStmts_single, Stmt.run, eval_var hread]
  show runCases T i (runOptional T (some fail)) _ _ = _
  rw [hcases]
  cases cases[i]? with
  | some body => rfl
  | none => rw [runOptional]

theorem counted_succ {label : Option String} {var : String} {t u : State V} {i : Int}
    (hwrite : t.write var (some (.int i)) = some u)
    (body : State V → Option (Signal × State V)) (left : Nat) :
    counted label var body (left + 1) i t = (body u).bind fun r =>
      match r.1.afterTurn label with
      | some sig => some (sig, r.2)
      | none => counted label var body left (i + 1) r.2 := by
  rw [counted, hwrite]
  rfl

/-- The turns of the loop over what alternatives are left. -/
theorem ends_counted {cases : List (List Stmt)} (hk : n < k)
    (hsave : numbered "save" k ∈ full.names) (hi : numbered "i" k ∈ full.names)
    (hpos : pos ≤ T.input.length) : ∀ {rows : List (List Stmt)} {alternatives : List Alternative}
    {i : Nat} {t : State V}, cases.drop i = rows →
    List.Forall₂ (fun row a => SimulatesRow T full k (numbered "save" k) result
      [.cycle (some (numbered "alt" k))] row (a.run M)) rows alternatives →
    Fits full [] t → t.locals (numbered "save" k) = some (some (.int (pos + 1))) →
    Escapes T fail n t sig back →
    Ends n t pos sig back (Chosen (numbered "save" k) pos result)
      (runAlternatives M alternatives pos)
      (counted (some (numbered "alt" k)) (numbered "i" k) (runStmts T (choiceTurn k cases fail))
        (rows.length + 1) i t) := by
  intro rows alternatives i t hdrop hrows hfits hkeep hesc
  have hwsave : "save" ∈ ownWords := by decide
  have hwi : "i" ∈ ownWords := by decide
  -- the index is set, and the cursor goes back
  let u := withLocal t (numbered "i" k) (some (.int i))
  let w := withCursor u (pos + 1)
  have hwrite := write_plain (some (.int i)) (plain_own hwi k) hfits.blocks (hfits.locals _ hi)
  have hafter : After n t w := (After.own hwi hk hfits hi _).trans (.withCursor _)
  have hfits' : Fits full [] u := hfits.withLocal (some (.int i)) hi
  have hkeep' : u.locals (numbered "save" k) = some (some (.int (pos + 1))) :=
    (withLocal_other t _ (own_ne (by decide))).trans hkeep
  have hindex : u.locals (numbered "i" k) = some (some (.int i)) := withLocal_self t _ _
  have hcase : cases[i]? = rows.head? := by rw [← hdrop, List.head?_drop]
  rw [counted_succ hwrite, run_choiceTurn hfits' hkeep' hindex, hcase]
  refine Ends.after hafter ?_
  have hesc' : Escapes T fail n w sig back := hesc.of_kept hafter.kept (Nat.le_refl n)
  cases hrows with
  | nil =>
    have hrun : runStmts T fail w = _ := hesc'.run w (.refl n w) hfits'.blocks
    show Ends n w pos sig back _ _ ((runStmts T fail w).bind _)
    rw [runAlternatives, hrun, Option.bind_some, hesc.leaves.afterTurn hk]
    exact .failed (.withCursor _) rfl
  | @cons row a rows rest hrow hrest =>
    have hends := hrow (hfits'.withCursor (pos + 1)) rfl hpos hkeep'
      (.of_signal (fun _ => by rw [Stmt.run]) (.cycle (Nat.le_refl k)))
    show Ends n w pos sig back _ _ ((runStmts T (row ++ [.exit (some (numbered "alt" k))]) w).bind _)
    rw [runAlternatives, runStmts_append]
    generalize a.run M pos = x at hends
    generalize runStmts T row w = y at hends
    cases hends with
    | unknown => exact .unknown
    | @failed s' after cursor =>
      -- the next turn
      have hafter' := after.mono (Nat.le_of_lt hk)
      have hcycle : (Signal.cycle (some (numbered "alt" k))).afterTurn (some (numbered "alt" k)) =
          none := by simp [Signal.afterTurn]
      rw [andThen_ended (by simp), Option.bind_some, hcycle]
      refine Ends.after hafter' ?_
      exact ends_counted hk hsave hi hpos (by rw [← List.tail_drop, hdrop]; rfl) hrest
        ((hfits'.withCursor _).after after)
        ((after.kept.same _ (protected_own hwsave (Nat.le_refl k))).trans hkeep')
        (hesc'.of_kept hafter'.kept (Nat.le_refl n))
    | @matched s' stop v after cursor gives =>
      have hexit : (Signal.exit (some (numbered "alt" k))).afterTurn (some (numbered "alt" k)) =
          some .next := by simp [Signal.afterTurn]
      rw [andThen_next, runStmts_single, Stmt.run, Option.bind_some, hexit]
      exact .matched (after.mono (Nat.le_of_lt hk)) cursor
        ⟨gives, (after.kept.same _ (protected_own hwsave (Nat.le_refl k))).trans hkeep'⟩

/-- Several alternatives are tried in a loop. -/
theorem simulates_several {rows : List (List Stmt)} {alternatives : List Alternative} (hk : n < k)
    (hsave : numbered "save" k ∈ full.names) (hi : numbered "i" k ∈ full.names)
    (hrows : List.Forall₂ (fun row a => SimulatesRow T full k (numbered "save" k) result
      [.cycle (some (numbered "alt" k))] row (a.run M)) rows alternatives) :
    SimulatesChoice T full n (numbered "save" k) result fail
      [keep (numbered "save" k),
        choiceLoop (numbered "alt" k) (numbered "i" k) (numbered "save" k) rows fail]
      (runAlternatives M alternatives) := by
  intro s pos sig back hfits hcursor hpos hesc
  have hwsave : "save" ∈ ownWords := by decide
  let t := withLocal s (numbered "save" k) (some (.int s.cursor))
  have hafter : After n s t := .own hwsave hk hfits hsave _
  have hkeep : t.locals (numbered "save" k) = some (some (.int (pos + 1))) := by
    rw [← hcursor]
    exact withLocal_self s _ _
  have hloop : (choiceLoop (numbered "alt" k) (numbered "i" k) (numbered "save" k) rows fail).run
      T t = counted (some (numbered "alt" k)) (numbered "i" k) (runStmts T (choiceTurn k rows fail))
        (rows.length + 1) 0 t := by
    rw [choiceLoop, Stmt.run, eval_int, Option.bind_eq_bind, Option.bind_some]
    dsimp only
    rw [eval_int]
    show counted _ _ _ ((rows.length : Int) - (0 : Nat) + 1).toNat (0 : Nat) t = _
    have hlength : ((rows.length : Int) - (0 : Nat) + 1).toNat = rows.length + 1 := by omega
    rw [hlength]
    rfl
  rw [runStmts_cons, run_keep_own hwsave hfits hsave, andThen_next, runStmts_single, hloop]
  exact Ends.after hafter (ends_counted (i := 0) hk hsave hi hpos rfl hrows (hfits.withLocal _ hsave)
    hkeep (hesc.of_kept hafter.kept (Nat.le_refl n)))

end

end PegCompiler.Lowering
