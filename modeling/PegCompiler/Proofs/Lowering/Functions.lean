import PegCompiler.Proofs.Lowering.Simulation
/-
  The function of a rule, and the functions of a parser side by side with it. A function
  answers as its rule does when the calls that it makes do (`answers_rule`); as both sides
  nest calls to the same depth, all functions answer as their rules do at every depth
  (`linked`).
-/

namespace PegCompiler.Lowering

open Naming (word)
open Resolved (Parser Rule resultVar)
open Semantics (Host Outcome stopEnd)
open Target (Datum Expr Frame Function Machine Return Runtime Signal State Stmt callFunction moved
  runStmts)

/-- The scope of a function with its argument. -/
def Scope.withResult (s : Scope) : Scope :=
  { s with others := (resultVar, .text) :: s.others }

theorem result_mem (s : Scope) : resultVar ∈ s.withResult.names := by
  simp [Scope.names, Scope.withResult]

theorem names_withResult (s : Scope) : s.names ⊆ s.withResult.names := by
  intro name hname
  simp only [Scope.names, Scope.withResult, List.mem_append, List.map_cons, List.mem_cons] at hname ⊢
  tauto

/-! ## Declarations -/

theorem declared_declOf {type name : String} {names : List String} :
    (Scope.declOf type names).any (fun d => d.names.contains name) = true ↔ name ∈ names := by
  unfold Scope.declOf
  split
  next h => simp [List.isEmpty_iff.mp h]
  next => simp

/-- The variables of a scope are declared. -/
theorem declared_scope {s : Scope} {name : String} :
    s.decls.any (fun d => d.names.contains name) = true ↔ name ∈ s.names := by
  unfold Scope.decls Scope.names
  rw [List.any_append, List.any_append, Bool.or_eq_true, Bool.or_eq_true, declared_declOf,
    declared_declOf, List.mem_append, List.mem_append]
  refine or_congr_right ?_
  simp only [List.any_map, List.any_eq_true, List.mem_map, Function.comp_apply]
  refine exists_congr fun v => and_congr_right fun _ => ?_
  simp [eq_comm]

section
variable {V : Type} {p : Parser} {T : Machine V} {calls : String → Nat → Option (Outcome V)}

/-! ## The function of a rule -/

/-- The test behind the body of the start rule. -/
def endTest (start : Bool) (entry : String) : List Stmt :=
  if start then [.when (.not (.call acceptEnd [])) [restore entry, .return]] else []

/-- The statements of a function around those of the body of its rule. -/
def ruleStmts (start : Bool) (choice : List Stmt) (entry : String) : List Stmt :=
  .assign acceptVar (.logical false) ::
    (choice ++ (endTest start entry ++ [.assign acceptVar (.logical true)]))

/-- The function of a well-typed rule. -/
theorem lowerRule_ok (hp : p.Typed) {rule : Rule} (hrule : rule.Typed p) :
    ∃ choice scope f, Yields (lowerChoice [.return] rule.body) {} (choice, numbered "save" 1) scope ∧
      lowerRule rule = .ok f ∧ f.name = rule.function ∧ f.args = [resultVar] ∧
      f.result = acceptVar ∧ f.body = .stmts (ruleStmts rule.start choice (numbered "save" 1)) ∧
      f.decls = [⟨rule.resultType.spec, ["intent(out)"], [resultVar]⟩,
        ⟨"logical", [], [acceptVar]⟩] ++ scope.decls := by
  obtain ⟨id, function, start, type, ⟨alternatives, result⟩⟩ := rule
  obtain rfl : result = some resultVar := hrule.result
  have hrows : Resolved.alternativesTyped p alternatives := hrule.rows
  have hnamed : ResultNamed (some resultVar) := fun var hvar => .inl (Option.some.inj hvar).symm
  obtain ⟨⟨choice, entry⟩, scope, hyields, -⟩ := Makes.choiceOf hp [.return] alternatives hrows hnamed {}
  have hentry : entry = numbered "save" 1 := by
    match alternatives, hyields with
    | [a], hyields =>
      obtain ⟨_, _, _, _, _, he⟩ := yields_single hnamed hyields
      exact (Prod.mk.inj he).2
    | [], hyields =>
      obtain ⟨_, _, _, _, _, he⟩ := yields_several (by simp) hnamed hyields
      exact (Prod.mk.inj he).2
    | _ :: _ :: _, hyields =>
      obtain ⟨_, _, _, _, _, he⟩ := yields_several (by simp) hnamed hyields
      exact (Prod.mk.inj he).2
  subst hentry
  have hrun : (lowerChoice [.return] ⟨alternatives, some resultVar⟩).run.run {} =
      (.ok (choice, numbered "save" 1), scope) := hyields
  have hrule : lowerRule ⟨id, function, start, type, ⟨alternatives, some resultVar⟩⟩ = .ok {
      recursive := true
      name := function
      args := [resultVar]
      result := acceptVar
      decls := [⟨type.spec, ["intent(out)"], [resultVar]⟩, ⟨"logical", [], [acceptVar]⟩] ++
        scope.decls
      body := .stmts (ruleStmts start choice (numbered "save" 1)) } := by
    unfold lowerRule ruleStmts endTest
    dsimp only
    rw [hrun]
    simp only [List.cons_append, List.nil_append, List.append_assoc]
  exact ⟨choice, scope, _, hyields, hrule, rfl, rfl, rfl, rfl, rfl⟩

/-- The state in which a function starts. -/
theorem fits_start {scope : Scope} {f : Function} {type : String} {c : Int}
    (hdecls : f.decls = [⟨type, ["intent(out)"], [resultVar]⟩, ⟨"logical", [], [acceptVar]⟩] ++
      scope.decls) :
    Fits scope.withResult [] (⟨c, [], Frame.ofDecls f.decls⟩ : State V) ∧
      (Frame.ofDecls (V := V) f.decls acceptVar).isSome := by
  have hdeclared (name : String) (h : name = resultVar ∨ name = acceptVar ∨ name ∈ scope.names) :
      (Frame.ofDecls (V := V) f.decls name).isSome := by
    unfold Frame.ofDecls
    rw [if_pos]
    · rfl
    · rw [hdecls, List.any_append, Bool.or_eq_true, declared_scope]
      rcases h with rfl | rfl | h
      · exact .inl (by simp)
      · exact .inl (by simp)
      · exact .inr h
  refine ⟨⟨fun name hname => hdeclared name ?_, fun _ h => (nomatch h), fun _ _ h => (nomatch h)⟩,
    hdeclared acceptVar (.inr (.inl rfl))⟩
  simp only [Scope.names, Scope.withResult, List.mem_append, List.map_cons, List.mem_cons] at hname ⊢
  tauto

/-- How the body of a function ends. -/
inductive BodyEnds (pos : Nat) :
    Option (Outcome V) → Option (Signal × State V) → Prop
  | unknown : BodyEnds pos none none
  | failed {s' : State V} (cursor : s'.cursor = pos + 1) (blocks : OnlyCaptures s'.blocks)
      (accept : s'.locals acceptVar = some (some (.logical false))) :
      BodyEnds pos (some .failed) (some (.return, s'))
  | matched {s' : State V} {stop : Nat} {v : V} (cursor : s'.cursor = stop + 1)
      (blocks : OnlyCaptures s'.blocks)
      (accept : s'.locals acceptVar = some (some (.logical true)))
      (result : s'.locals resultVar = some (some (.value v))) :
      BodyEnds pos (some (.matched stop v)) (some (.next, s'))

theorem plain_accept : Plain acceptVar :=
  plain_of_word (w := "accept") (by decide) (by decide)

theorem plain_result : Plain resultVar :=
  plain_of_word (w := "res") (by decide) (by decide)

/-- Behind the body, the start rule tests for the end of the input. -/
theorem ends_endTest (hl : Linked p T calls) (rule : Rule) {full : Scope} {s : State V} {pos stop : Nat} {v : V}
    (hfits : Fits full [] s) (hcursor : s.cursor = stop + 1) (hstop : stop ≤ T.input.length)
    (hsave : s.locals (numbered "save" 1) = some (some (.int (pos + 1))))
    (haccept : s.locals acceptVar = some (some (.logical false)))
    (hresult : s.locals resultVar = some (some (.value v))) :
    BodyEnds pos (some (rule.finish (source p T calls) (.matched stop v)))
      (runStmts T (endTest rule.start (numbered "save" 1) ++
        [.assign acceptVar (.logical true)]) s) := by
  -- accepting
  have hmatched : BodyEnds pos (some (.matched stop v))
      (runStmts T [.assign acceptVar (.logical true)] s) := by
    have hrun : (Stmt.assign acceptVar (.logical true)).run T s =
        some (.next, withLocal s acceptVar (some (.logical true))) :=
      run_assign (by rw [Expr.eval]) (write_plain _ plain_accept hfits.blocks (by rw [haccept]; rfl))
    rw [runStmts_single, hrun]
    exact .matched hcursor hfits.blocks (withLocal_self s _ _)
      ((withLocal_other s _ (by decide)).trans hresult)
  unfold endTest Resolved.Rule.finish
  cases hstart : rule.start with
  | false => exact hmatched
  | true =>
    have hend : (Expr.call acceptEnd []).test T s = _ := tests_end hl hcursor hstop
    rw [if_pos rfl, List.singleton_append, runStmts_cons, run_when (test_not hend)]
    show BodyEnds pos (some (if true && (stopEnd T.input stop).isNone then _ else _)) _
    rw [Bool.true_and]
    have hself : withCursor s (stop + 1) = s := withCursor_self hcursor
    unfold stopEnd
    by_cases hlen : T.input.length ≤ stop
    · rw [if_pos hlen]
      show BodyEnds pos (some (.matched stop v))
        (andThen (some (.next, withCursor s (stop + 1))) _)
      rw [hself, andThen_next]
      exact hmatched
    · rw [if_neg hlen]
      show BodyEnds pos (some .failed)
        (andThen (runStmts T [restore (numbered "save" 1), .return] (withCursor s (stop + 1))) _)
      rw [hself, runStmts_cons, run_restore (plain_own (by decide) 1) hfits.blocks hsave,
        andThen_next, runStmts_single, Stmt.run]
      exact .failed rfl hfits.blocks haccept

theorem ends_body (hp : p.Typed) (hl : Linked p T calls) {rule : Rule} (hrule : rule.Typed p)
    {choice : List Stmt} {scope : Scope}
    (hyields : Yields (lowerChoice [.return] rule.body) {} (choice, numbered "save" 1) scope)
    {s : State V} {pos : Nat} (hfits : Fits scope.withResult [] s)
    (haccept : (s.locals acceptVar).isSome) (hcursor : s.cursor = pos + 1)
    (hpos : pos ≤ T.input.length) :
    BodyEnds pos
      ((rule.body.run (source p T calls) pos).map (rule.finish (source p T calls)))
      (runStmts T (ruleStmts rule.start choice (numbered "save" 1)) s) := by
  obtain ⟨id, function, start, type, ⟨alternatives, result⟩⟩ := rule
  obtain rfl : result = some resultVar := hrule.result
  have hrows : Resolved.alternativesTyped p alternatives := hrule.rows
  -- accepting nothing yet
  let t := withLocal s acceptVar (some (.logical false))
  have hfits' : Fits scope.withResult [] t := hfits.withDeclared (some (.logical false)) haccept
  have hrun : (Stmt.assign acceptVar (.logical false)).run T s = some (.next, t) :=
    run_assign (by rw [Expr.eval]) (write_plain _ plain_accept hfits.blocks haccept)
  have hnamed : Named {} := by
    rintro _ ⟨⟩
  have hres := result_mem scope
  have hsim := simulates_choiceOf hp hres
    (fun hsave hset => simulates_alternatives hp hl hres hsave hset alternatives hrows) hrows
    (fun var hvar => .inl (Option.some.inj hvar).symm) hyields hnamed (names_withResult scope)
  have hesc : Escapes T [Stmt.return] 0 t .return none :=
    .of_signal (fun _ => by rw [Stmt.run]) .return
  have hends := hsim hfits' hcursor hpos hesc
  have hwithin := Resolved.Choice.within (M := source p T calls) hl.within
    ⟨alternatives, some resultVar⟩ hpos
  have hfalse : t.locals acceptVar = some (some (.logical false)) := withLocal_self s _ _
  rw [ruleStmts, runStmts_cons, hrun, andThen_next, runStmts_append]
  generalize Resolved.Choice.run (source p T calls) ⟨alternatives, some resultVar⟩ pos = x at hends hwithin
  generalize runStmts T choice t = y at hends
  cases hends with
  | unknown => exact .unknown
  | @failed s' after cursor =>
    rw [andThen_ended (by simp)]
    exact .failed cursor (after.blocks ▸ hfits'.blocks)
      ((after.kept.same _ (.inl rfl)).trans hfalse)
  | @matched s' stop v after cursor gives =>
    rw [andThen_next]
    exact ends_endTest hl _ (hfits'.after after) cursor (hwithin stop v rfl).2 gives.2
      ((after.kept.same _ (.inl rfl)).trans hfalse) (gives.1 _ rfl)

/-- The function of a rule answers as the rule does, when its calls do. -/
theorem answers_rule (hp : p.Typed) (hl : Linked p T calls) {rule : Rule} (hrule : rule.Typed p)
    {f : Function} (hf : lowerRule rule = .ok f) {pos : Nat} (hpos : pos ≤ T.input.length) :
    Answers pos ((rule.body.run (source p T calls) pos).map (rule.finish (source p T calls)))
      (f.run T (pos + 1)) := by
  obtain ⟨choice, scope, g, hyields, hg, -, hargs, hresult, hbody, hdecls⟩ := lowerRule_ok hp hrule
  obtain rfl := Except.ok.inj (hf.symm.trans hg)
  obtain ⟨hfits, haccept⟩ := fits_start (V := V) (c := (pos : Int) + 1) hdecls
  have hends := ends_body hp hl hrule hyields hfits haccept rfl hpos
  unfold Function.run
  rw [hbody, hargs, hresult]
  dsimp only
  generalize (rule.body.run (source p T calls) pos).map _ = x at hends
  generalize runStmts T _ _ = y at hends
  cases hends with
  | unknown => exact .unknown
  | @failed s' cursor blocks accept =>
    have hread := read_local plain_accept blocks accept
    simp only [Option.bind_eq_bind, Option.bind_some, hread]
    have hreturn : Answers pos _ _ := .failed ((s'.read resultVar).bind Datum.value?)
    rw [← cursor] at hreturn
    exact hreturn
  | @matched s' stop v cursor blocks accept result =>
    have hread := read_local plain_accept blocks accept
    have hvalue := read_local plain_result blocks result
    simp only [Option.bind_eq_bind, Option.bind_some, hread, hvalue]
    have hreturn : Answers pos _ _ := .matched stop v
    rw [← cursor] at hreturn
    exact hreturn

end

end PegCompiler.Lowering
