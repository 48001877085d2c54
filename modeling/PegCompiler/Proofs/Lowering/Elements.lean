import PegCompiler.Proofs.Lowering.Choices
/-
  Rows of elements. A row with captures runs in a block of its own, whose variables its
  elements set one after another; without captures there is no block, and the elements
  leave all blocks alone (`Stepped`). Behind the last element the value of the row goes
  into the variable of its choice.
-/

namespace PegCompiler.Lowering

open Naming (word)
open Resolved (Alternative AltResult Capture Captured Choice Element Matcher Parser RuleCall
  ValueType runElements)
open Semantics (Outcome)
open Target (Datum Decl Expr Frame Machine Signal State Stmt runStmts)

section
variable {V : Type} {p : Parser} {T : Machine V} {calls : String → Nat → Option (Outcome V)}
  {full : Scope} {env : Captured V} {earlier : List Capture} {n k : Nat} {s : State V} {pos : Nat}
  {sig : Signal} {back : Option Int} {fail : List Stmt}

/-! ## What elements leave behind -/

/-- A state behind elements with some captures: only the innermost block may have
changed, and only where there are captures. -/
structure Stepped (captures : List Capture) (n : Nat) (s s' : State V) : Prop where
  kept : Kept n s s'
  tail : s'.blocks.tail = s.blocks.tail
  same : captures = [] → s'.blocks = s.blocks
  ready : ∀ var, Ready s.blocks var → Ready s'.blocks var

namespace Stepped

variable {captures more : List Capture} {t u : State V}

theorem of_after (h : After n s t) : Stepped captures n s t where
  kept := h.kept
  tail := by rw [h.blocks]
  same _ := h.blocks
  ready _ hready := h.blocks ▸ hready

theorem trans (h : Stepped captures n s t) (h' : Stepped more n t u) :
    Stepped (captures ++ more) n s u where
  kept := h.kept.trans h'.kept
  tail := h'.tail.trans h.tail
  same he := by
    obtain ⟨hc, hm⟩ := List.append_eq_nil_iff.mp he
    exact (h'.same hm).trans (h.same hc)
  ready var hready := h'.ready var (h.ready var hready)

theorem after_trans (h : After n s t) (h' : Stepped captures n t u) : Stepped captures n s u :=
  have hnone : Stepped [] n s t := of_after h
  hnone.trans h'

theorem trans_after (h : Stepped captures n s t) (h' : After n t u) : Stepped captures n s u := by
  have hnone : Stepped [] n t u := of_after h'
  have hboth := h.trans hnone
  rwa [List.append_nil] at hboth

theorem mono {m : Nat} (h : Stepped captures n s t) (hmn : m ≤ n) : Stepped captures m s t :=
  ⟨h.kept.mono hmn, h.tail, h.same, h.ready⟩

/-- Setting a capture. -/
theorem withCapture {capture : Capture} (d : Option (Datum V)) :
    Stepped [capture] n s (withCapture s capture.var d) where
  kept := .of_locals (withCapture_locals s _ d)
  tail := withCapture_tail s _ d
  same h := nomatch h
  ready _ hready := hready.withCapture

end Stepped

/-- What a run of elements comes to, for the captured values that the parser has behind
them. -/
inductive ElementsEnd (full : Scope) (earlier captures : List Capture) (n : Nat) (s : State V)
    (sig : Signal) (back : Option Int) :
    Option (Option (Nat × Captured V)) → Option (Signal × State V) → Prop
  | unknown : ElementsEnd full earlier captures n s sig back none none
  | failed {s' : State V} (stepped : Stepped captures n s s')
      (cursor : ∃ c, s'.cursor = back.getD c) :
      ElementsEnd full earlier captures n s sig back (some none) (some (sig, s'))
  | matched {s' : State V} {stop : Nat} {env : Captured V} (stepped : Stepped captures n s s')
      (cursor : s'.cursor = stop + 1) (fits : Fits full env s')
      (covers : Covers (earlier ++ captures) env) :
      ElementsEnd full earlier captures n s sig back (some (some (stop, env))) (some (.next, s'))

/-- The statements of elements do what they do, where their captures are variables of
the innermost block. -/
def SimulatesElements (T : Machine V) (full : Scope) (env : Captured V)
    (earlier captures : List Capture) (n : Nat) (fail stmts : List Stmt)
    (outcome : Nat → Option (Option (Nat × Captured V))) : Prop :=
  ∀ ⦃s : State V⦄ ⦃pos : Nat⦄ ⦃sig : Signal⦄ ⦃back : Option Int⦄, Fits full env s →
    s.cursor = pos + 1 → pos ≤ T.input.length → (∀ c ∈ captures, Ready s.blocks c.var) →
    Escapes T fail n s sig back →
    ElementsEnd full earlier captures n s sig back (outcome pos) (runStmts T stmts s)

theorem Covers.nil : Covers [] env := fun _ h => (nomatch h)

theorem Covers.keep (h : Covers earlier env) (capture : Capture) (v : V) :
    Covers (earlier ++ [capture]) ((capture.var, v) :: env) := by
  intro c hc
  by_cases he : c.var = capture.var
  · exact ⟨v, by rw [he, List.lookup_cons_self]⟩
  · rcases List.mem_append.mp hc with hc | hc
    · obtain ⟨w, hw⟩ := h c hc
      exact ⟨w, by rw [List.lookup_cons, beq_false_of_ne he]; exact hw⟩
    · exact absurd (congrArg Capture.var (List.mem_singleton.mp hc)) he

/-! ## One element -/

section
variable {M : Resolved.Machine V} {m : Matcher} {stmts : List Stmt}

/-- An element without a capture. -/
theorem simulates_plain (hcovers : Covers earlier env)
    (h : Simulates T full env n fail stmts (m.run M env)) :
    SimulatesElements T full env earlier [] n fail stmts
      (Element.run M env ⟨m, none⟩) := by
  intro s pos sig back hfits hcursor hpos _ hesc
  have hends := h hfits hcursor hpos hesc
  unfold Element.run
  dsimp only
  generalize m.run M env pos = x at hends
  generalize runStmts T stmts s = y at hends
  cases hends with
  | unknown => exact .unknown
  | failed after cursor => exact .failed (.of_after after) ⟨pos + 1, cursor⟩
  | matched after cursor _ =>
    refine .matched (.of_after after) cursor (hfits.after after) ?_
    rw [List.append_nil]
    exact hcovers

/-- A captured call writes into the capture. -/
theorem simulates_capturedCall (hl : Linked p T calls) {call : RuleCall} (hcall : call.Typed p)
    {capture : Capture} (hsource : capture.source = .value)
    (hword : word capture.var = "capture".toList) (hcovers : Covers earlier env) :
    SimulatesElements T full env earlier [capture] n fail
      [failUnless (.call call.function [.var capture.var]) fail]
      (Element.run (source p T calls) env ⟨.call call, some capture⟩) := by
  intro s pos sig back hfits hcursor hpos hready hesc
  have hcapture : Ready s.blocks capture.var := hready capture (by simp)
  have hends := run_callRule hl hcall fail capture.var
    (fun c value => withCapture (withCursor s c) capture.var (value.map .value)) hcursor hpos
    fun c value => write_capture (s := withCursor s c) hword hcapture _
  have hstep (c : Int) (d : Option (Datum V)) :
      Stepped [capture] n s (withCapture (withCursor s c) capture.var d) :=
    .after_trans (.withCursor c) (.withCapture d)
  rw [runStmts_single]
  unfold Element.run
  dsimp only
  rw [Matcher.run]
  show ElementsEnd full earlier [capture] n s sig back ((calls call.rule pos).map _) _
  generalize calls call.rule pos = x at hends
  generalize (failUnless (.call call.function [.var capture.var]) fail).run T s = y at hends
  cases hends with
  | unknown => exact .unknown
  | failed value =>
    have hset := hstep (pos + 1) (value.map .value)
    have hblocks : OnlyCaptures (withCapture (withCursor s (pos + 1)) capture.var
        (value.map .value)).blocks :=
      OnlyCaptures.withCapture (s := withCursor s (pos + 1)) hfits.blocks hword
    rw [hesc.run _ hset.kept hblocks]
    exact .failed (hset.trans_after (.withCursor _)) ⟨_, rfl⟩
  | matched stop v =>
    refine .matched (hstep (stop + 1) (some (.value v))) (withCapture_cursor ..) ?_ ?_
    · obtain ⟨var, type, source⟩ := capture
      subst hsource
      exact (hfits.withCursor (stop + 1)).withCapture hword hcapture v
    · obtain ⟨var, type, source⟩ := capture
      subst hsource
      exact hcovers.keep _ v

/-- A captured group is copied from its variable. -/
theorem simulates_capturedGroup {alternatives : List Alternative} {group save : String}
    (hgroup : word group = "group".toList)
    (h : SimulatesChoice T full n save (some group) fail stmts
      (Choice.run M ⟨alternatives, some group⟩))
    {capture : Capture} (hsource : capture.source = .value)
    (hword : word capture.var = "capture".toList) (hcovers : Covers earlier env) :
    SimulatesElements T full env earlier [capture] n fail
      (stmts ++ [.assign capture.var (.var group)])
      (Element.run M env ⟨.choice ⟨alternatives, some group⟩, some capture⟩) := by
  intro s pos sig back hfits hcursor hpos hready hesc
  have hends := h hfits.nil hcursor hpos hesc
  unfold Element.run
  dsimp only
  rw [Matcher.run, runStmts_append]
  generalize Choice.run M ⟨alternatives, some group⟩ pos = x at hends
  generalize runStmts T stmts s = y at hends
  cases hends with
  | unknown => exact .unknown
  | failed after cursor =>
    rw [andThen_ended hesc.leaves.ne_next]
    exact .failed (.of_after after) ⟨pos + 1, cursor⟩
  | @matched s' stop v after cursor gives =>
    have hfits' := hfits.after after
    have hcapture : Ready s'.blocks capture.var := after.blocks ▸ hready capture (by simp)
    have hread : s'.read group = some (.value v) :=
      read_local (plain_of_word hgroup (by decide)) hfits'.blocks (gives.1 group rfl)
    have hrun := run_assign (T := T) (eval_var hread)
      (write_capture hword hcapture (some (.value v)))
    rw [andThen_next, runStmts_single, hrun]
    obtain ⟨var, type, source⟩ := capture
    subst hsource
    exact .matched (.after_trans after (.withCapture _))
      ((withCapture_cursor ..).trans cursor) (hfits'.withCapture hword hcapture v)
      (hcovers.keep _ v)

/-- Anything else is captured by the input it consumed. -/
theorem simulates_capturedText (hk : n < k) (hmark : numbered "mark" k ∈ full.names)
    (hwithin : ∀ pos ≤ T.input.length, Resolved.Within T.input pos (m.run M env pos))
    (hhost : M.host = T.host) (hinput : M.input = T.input)
    (h : Simulates T full env k fail stmts (m.run M env)) {capture : Capture}
    (hsource : capture.source = .text) (hword : word capture.var = "capture".toList)
    (hcovers : Covers earlier env) :
    SimulatesElements T full env earlier [capture] n fail
      ([keep (numbered "mark" k)] ++ stmts ++
        [.assign capture.var (consumedSince (numbered "mark" k))])
      (Element.run M env ⟨m, some capture⟩) := by
  intro s pos sig back hfits hcursor hpos hready hesc
  have hwmark : "mark" ∈ ownWords := by decide
  let t := withLocal s (numbered "mark" k) (some (.int s.cursor))
  have hafter : After n s t := .own hwmark hk hfits hmark _
  have hfits' : Fits full env t := hfits.withLocal (some (.int s.cursor)) hmark
  have hkeep : t.locals (numbered "mark" k) = some (some (.int (pos + 1))) := by
    rw [← hcursor]
    exact withLocal_self s _ _
  have hends := h hfits' hcursor hpos (hesc.of_kept hafter.kept (Nat.le_of_lt hk))
  -- the mark outlives the match, as its number is below those drawn for it
  have hstop := hwithin pos hpos
  unfold Element.run
  dsimp only
  rw [List.append_assoc, List.singleton_append, runStmts_cons, run_keep_own hwmark hfits hmark,
    andThen_next, runStmts_append]
  show ElementsEnd full earlier [capture] n s sig back _ (andThen (runStmts T stmts t) _)
  generalize m.run M env pos = x at hends hstop
  generalize runStmts T stmts t = y at hends
  cases hends with
  | unknown => exact .unknown
  | failed after cursor =>
    rw [andThen_ended hesc.leaves.ne_next]
    exact .failed (.of_after (hafter.trans (after.mono (Nat.le_of_lt hk)))) ⟨pos + 1, cursor⟩
  | @matched s' stop v after cursor _ =>
    have hfits'' := hfits'.after after
    have hcapture : Ready s'.blocks capture.var := after.blocks ▸ hready capture (by simp)
    have hrange := hstop stop v rfl
    have heval := eval_consumed hfits'' (plain_own hwmark k)
      ((after.kept.same _ (protected_own hwmark (Nat.le_refl k))).trans hkeep) cursor hrange.1
      hrange.2
    have hrun := run_assign heval (write_capture hword hcapture (some (.value _)))
    rw [andThen_next, runStmts_single, hrun]
    obtain ⟨var, type, source⟩ := capture
    subst hsource
    show ElementsEnd full earlier _ n s sig back
      (some (some (stop, (var, M.host.ofText (Semantics.slice M.input pos stop)) :: env))) _
    rw [hhost, hinput]
    exact .matched (.after_trans (hafter.trans (after.mono (Nat.le_of_lt hk))) (.withCapture _))
      ((withCapture_cursor ..).trans cursor) (hfits''.withCapture hword hcapture _)
      (hcovers.keep _ _)

/-! ## Elements one after another -/

theorem simulates_noElements (hcovers : Covers earlier env) :
    SimulatesElements T full env earlier [] n fail [] (runElements M env []) := by
  intro s pos sig back hfits hcursor _ _ _
  rw [runElements, runStmts_nil]
  exact .matched (.of_after (.refl n s)) hcursor hfits (by simpa using hcovers)

theorem simulates_cons {e : Element} {rest : List Element} {more : List Capture}
    {first others : List Stmt}
    (hwithin : ∀ pos ≤ T.input.length, ∀ stop env', e.run M env pos = some (some (stop, env')) →
      stop ≤ T.input.length)
    (hfirst : SimulatesElements T full env earlier e.capture.toList n fail first (e.run M env))
    (hothers : ∀ env', Covers (earlier ++ e.capture.toList) env' →
      SimulatesElements T full env' (earlier ++ e.capture.toList) more n fail others
        (runElements M env' rest)) :
    SimulatesElements T full env earlier (e.capture.toList ++ more) n fail (first ++ others)
      (runElements M env (e :: rest)) := by
  intro s pos sig back hfits hcursor hpos hready hesc
  have hends := hfirst hfits hcursor hpos
    (fun c hc => hready c (List.mem_append_left _ hc)) hesc
  have hstop := hwithin pos hpos
  rw [Resolved.runElements_cons, runStmts_append]
  generalize e.run M env pos = x at hends hstop
  generalize runStmts T first s = y at hends
  cases hends with
  | unknown => exact .unknown
  | failed stepped cursor =>
    rw [andThen_ended hesc.leaves.ne_next]
    exact .failed (Stepped.trans stepped (.of_after (.refl n _))) cursor
  | @matched s' stop env' stepped cursor fits covers =>
    -- the elements behind run with what the first one captured
    have hends' := hothers env' covers fits cursor (hstop stop env' rfl)
      (fun c hc => stepped.ready _ (hready c (List.mem_append_right _ hc)))
      (hesc.of_kept stepped.kept (Nat.le_refl n))
    rw [andThen_next, Option.bind_some]
    show ElementsEnd full earlier _ n s sig back (runElements M env' rest stop) _
    generalize runElements M env' rest stop = x at hends'
    generalize runStmts T others s' = y at hends'
    cases hends' with
    | unknown => exact .unknown
    | failed stepped' cursor' => exact .failed (stepped.trans stepped') cursor'
    | matched stepped' cursor' fits' covers' =>
      exact .matched (stepped.trans stepped') cursor' fits' (by rwa [← List.append_assoc])

end

/-! ## Rows -/

/-- The variables of the block of a row. -/
def captureDecls (captures : List Capture) : List Decl :=
  captures.map fun c => ⟨c.type.spec, [], [c.var]⟩

theorem ofDecls_captures {captures : List Capture} {name : String} :
    (Frame.ofDecls (V := V) (captureDecls captures) name).isSome ↔ ∃ c ∈ captures, c.var = name := by
  unfold Frame.ofDecls captureDecls
  rw [List.any_map]
  split
  next h =>
    obtain ⟨c, hc, hname⟩ := List.any_eq_true.mp h
    exact ⟨fun _ => ⟨c, hc, by simpa [eq_comm] using hname⟩, fun _ => rfl⟩
  next h =>
    refine ⟨fun h => (nomatch h), fun ⟨c, hc, hname⟩ => absurd ?_ h⟩
    exact List.any_eq_true.mpr ⟨c, hc, by simp [hname]⟩

theorem ready_push {captures : List Capture} {c : Capture} (hc : c ∈ captures) :
    Ready (push (captureDecls captures) s).blocks c.var :=
  ⟨_, _, rfl, ofDecls_captures.mpr ⟨c, hc, rfl⟩⟩

theorem Fits.push {captures : List Capture} (h : Fits full [] s)
    (hwords : ∀ c ∈ captures, word c.var = "capture".toList) :
    Fits full [] (push (captureDecls captures) s) where
  locals := h.locals
  blocks f hf name hname := by
    rcases List.mem_cons.mp hf with rfl | hf
    · obtain ⟨c, hc, rfl⟩ := ofDecls_captures.mp hname
      exact hwords c hc
    · exact h.blocks f hf name hname
  captures _ _ hv := nomatch hv

/-- The variable of a choice can be set, and is nobody else's. -/
def Settable (full : Scope) (result : Option String) : Prop :=
  ResultNamed result ∧ ∀ var, result = some var → var ∈ full.names

theorem Settable.plain {result : Option String} (h : Settable full result) {var : String}
    (hvar : result = some var) : Plain var ∧ ¬ Protected n var := by
  rcases h.1 var hvar with rfl | hword
  · have hword : word Resolved.resultVar = "res".toList := by decide
    exact ⟨plain_of_word hword (by decide), not_protected_of_word hword (by decide)⟩
  · exact ⟨plain_of_word hword (by decide), not_protected_of_word hword (by decide)⟩

section
variable {elements : List Element} {value : AltResult} {type : ValueType} {save : String}
  {result : Option String} {body : List Stmt} {captures : List Capture}

/-- The value of a row goes into the variable of its choice. -/
theorem run_assignResult (hset : Settable full result) (hfits : Fits full env s) {v : V}
    (heval : (resultExpr save value).eval T s = some (.value v, s)) :
    ∃ s', runStmts T (assignResult save value result) s = some (.next, s') ∧ After n s s' ∧
      s'.cursor = s.cursor ∧ Assigned result v s' := by
  cases result with
  | none => exact ⟨s, runStmts_nil s, .refl n s, rfl, fun _ h => (nomatch h)⟩
  | some var =>
    obtain ⟨hplain, hfree⟩ := hset.plain (n := n) rfl
    have hdeclared := hfits.locals var (hset.2 var rfl)
    refine ⟨withLocal s var (some (.value v)), ?_, .withLocal _ hfree hdeclared, rfl, ?_⟩
    · rw [assignResult, runStmts_single]
      exact run_assign heval (write_plain _ hplain hfits.blocks hdeclared)
    · rintro other h
      obtain rfl := Option.some.inj h
      exact withLocal_self s _ _

/-- A row without its block. -/
theorem ends_inside (hl : Linked p T calls) (hsave : Plain save ∧ Protected n save)
    (hset : Settable full result) (htyped : value.Typed p captures type)
    (hbody : SimulatesElements T full [] [] captures n fail body
      (runElements (source p T calls) [] elements))
    (hfits : Fits full [] s) (hcursor : s.cursor = pos + 1) (hpos : pos ≤ T.input.length)
    (hkeep : s.locals save = some (some (.int (pos + 1))))
    (hready : ∀ c ∈ captures, Ready s.blocks c.var) (hesc : Escapes T fail n s sig back) :
    RowEnds (Stepped captures n s) sig back (Assigned result)
      (Alternative.run (source p T calls) ⟨elements, value, type⟩ pos)
      (runStmts T (body ++ assignResult save value result) s) := by
  have hends := hbody hfits hcursor hpos hready hesc
  have hwithin := fun row => Resolved.elements_within (M := source p T calls) hl.within [] elements
    row hpos
  rw [Alternative.run, runStmts_append]
  generalize runElements (source p T calls) [] elements pos = x at hends hwithin
  generalize runStmts T body s = y at hends
  cases hends with
  | unknown => exact .unknown
  | failed stepped cursor =>
    rw [andThen_ended hesc.leaves.ne_next]
    exact .failed stepped cursor
  | @matched s' stop env stepped cursor fits covers =>
    have hrange := hwithin (stop, env) rfl
    obtain ⟨v, hv, heval⟩ := eval_result hl htyped covers fits hsave.1
      ((stepped.kept.same save hsave.2).trans hkeep) cursor hrange.1 hrange.2
    obtain ⟨t, hrun, hafter, hcursor', hassigned⟩ := run_assignResult (n := n) hset fits heval
    rw [andThen_next, hrun]
    show RowEnds _ sig back (Assigned result)
      ((value.value (source p T calls) env pos stop).map _) _
    rw [hv]
    exact .matched (stepped.trans_after hafter) (hcursor'.trans cursor) hassigned

/-- A row with captures has a block of its own. -/
theorem simulates_row (hl : Linked p T calls) (hsave : Plain save ∧ Protected n save)
    (hset : Settable full result) (htyped : value.Typed p captures type)
    (hwords : ∀ c ∈ captures, word c.var = "capture".toList)
    (hbody : SimulatesElements T full [] [] captures n fail body
      (runElements (source p T calls) [] elements)) :
    SimulatesRow T full n save result fail
      (captureBlock captures (body ++ assignResult save value result))
      (Alternative.run (source p T calls) ⟨elements, value, type⟩) := by
  intro s pos sig back hfits hcursor hpos hkeep hesc
  unfold captureBlock
  split
  next hempty =>
    obtain rfl := List.isEmpty_iff.mp hempty
    have hends := ends_inside hl hsave hset htyped hbody hfits hcursor hpos hkeep
      (fun _ h => (nomatch h)) hesc
    generalize Alternative.run (source p T calls) ⟨elements, value, type⟩ pos = x at hends
    generalize runStmts T (body ++ assignResult save value result) s = y at hends
    cases hends with
    | unknown => exact .unknown
    | failed stepped cursor => exact .failed ⟨stepped.kept, stepped.same rfl⟩ cursor
    | matched stepped cursor gives =>
      exact .matched ⟨stepped.kept, stepped.same rfl⟩ cursor gives
  next =>
    have hends := ends_inside hl hsave hset htyped hbody (hfits.push hwords) hcursor hpos hkeep
      (fun c hc => ready_push hc) (hesc.of_kept (.of_locals rfl) (Nat.le_refl n))
    rw [runStmts_single, run_block]
    show RowEnds _ sig back _ _
      ((runStmts T (body ++ assignResult save value result) (push (captureDecls captures) s)).map _)
    generalize Alternative.run (source p T calls) ⟨elements, value, type⟩ pos = x at hends
    generalize runStmts T (body ++ assignResult save value result)
      (push (captureDecls captures) s) = y at hends
    cases hends with
    | unknown => exact .unknown
    | failed stepped cursor =>
      rw [Option.map_some, hesc.leaves.afterBlock_none]
      exact .failed (.pop stepped.kept stepped.tail) cursor
    | matched stepped cursor gives => exact .matched (.pop stepped.kept stepped.tail) cursor gives

end

end

end PegCompiler.Lowering
