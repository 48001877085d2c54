import PegCompiler.Proofs.Lowering.Lowered
/-
  The statements that lowering makes do what they are made from does, by recursion over
  the matcher: one lemma for each construct, from what is known of its parts.
-/

namespace PegCompiler.Lowering

open Naming (word)
open Resolved (ActionCall Alternative Capture Captured Choice ClassTest Element Matcher Parser
  RuleCall alternativesTyped elementsTyped runAlternatives runElements runSeparator separatorTyped)
open Semantics (Outcome checked)
open Target (Datum Expr Machine Signal State Stmt runStmts)

section
variable {V : Type} {p : Parser} {T : Machine V} {calls : String → Nat → Option (Outcome V)}
  {full : Scope} {env : Captured V} {earlier : List Capture} {n k : Nat} {fail : List Stmt}

/-! ## Matchers without parts -/

section
variable (hl : Linked p T calls)
include hl

theorem simulates_literal (value : String) :
    Simulates T full env n fail [failUnless (.call acceptString [.str value]) fail]
      ((Matcher.literal value).run (source p T calls) env) := by
  intro s pos sig back hfits hcursor hpos hesc
  rw [runStmts_single, run_failUnless_terminal fail hcursor (tests_string hl hcursor hpos value),
    Matcher.run]
  exact ends_terminal hcursor hfits.blocks hesc

theorem simulates_class {tests : List ClassTest} {stmt : Stmt} (h : classStmt fail tests = .ok stmt) :
    Simulates T full env n fail [stmt] ((Matcher.class tests).run (source p T calls) env) := by
  intro s pos sig back hfits hcursor hpos hesc
  rw [runStmts_single, run_class hl hcursor hpos h, Matcher.run]
  exact ends_terminal hcursor hfits.blocks hesc

theorem simulates_any : Simulates T full env n fail [failUnless (.call acceptAny []) fail]
    (Matcher.anyChar.run (source p T calls) env) := by
  intro s pos sig back hfits hcursor hpos hesc
  rw [runStmts_single, run_failUnless_terminal fail hcursor (tests_any hl hcursor hpos),
    Matcher.run]
  exact ends_terminal hcursor hfits.blocks hesc

theorem simulates_end : Simulates T full env n fail [failUnless (.call acceptEnd []) fail]
    (Matcher.endOfInput.run (source p T calls) env) := by
  intro s pos sig back hfits hcursor hpos hesc
  rw [runStmts_single, run_failUnless_terminal fail hcursor (tests_end hl hcursor hpos),
    Matcher.run]
  exact ends_terminal hcursor hfits.blocks hesc

/-- A call that nobody captures writes into a variable that nobody reads. -/
theorem simulates_call {call : RuleCall} (hcall : call.Typed p) {var : String}
    (hword : word var = "scratch".toList ∨ word var = "group".toList) (hmem : var ∈ full.names) :
    Simulates T full env n fail [failUnless (.call call.function [.var var]) fail]
      ((Matcher.call call).run (source p T calls) env) := by
  intro s pos sig back hfits hcursor hpos hesc
  have hvar : Plain var ∧ ¬ Protected n var := by
    rcases hword with h | h
    · exact ⟨plain_of_word h (by decide), not_protected_of_word h (by decide)⟩
    · exact ⟨plain_of_word h (by decide), not_protected_of_word h (by decide)⟩
  have hdeclared := hfits.locals var hmem
  have hends := run_callRule hl hcall fail var
    (fun c value => withLocal (withCursor s c) var (value.map .value)) hcursor hpos
    fun c value => write_plain _ hvar.1 hfits.blocks hdeclared
  have hafter (c : Int) (d : Option (Datum V)) : After n s (withLocal (withCursor s c) var d) :=
    (After.withCursor c).trans (.withLocal d hvar.2 hdeclared)
  rw [runStmts_single, Matcher.run]
  show Ends n s pos sig back _ (calls call.rule pos) _
  generalize calls call.rule pos = x at hends
  generalize (failUnless (.call call.function [.var var]) fail).run T s = y at hends
  cases hends with
  | unknown => exact .unknown
  | failed value =>
    rw [hesc.run _ (hafter (pos + 1) _).kept hfits.blocks]
    exact .failed ((hafter (pos + 1) _).trans (.withCursor _)) rfl
  | matched stop v => exact .matched (hafter (stop + 1) _) rfl trivial

theorem simulates_predicate {negated : Bool} {call : ActionCall}
    (hcall : call.Typed p .predicate earlier (.declared "logical")) (hcovers : Covers earlier env) :
    Simulates T full env n fail [failOn negated (actionCall call) fail]
      ((Matcher.predicate negated call).run (source p T calls) env) := by
  intro s pos sig back hfits hcursor hpos hesc
  obtain ⟨v, hv, heval⟩ := eval_actionCall hl hcall hcovers hfits
  rw [runStmts_single, run_failOn (test_of_eval heval rfl), Matcher.run, hv]
  show Ends n s pos sig back _
    (some (checked T.host T.input pos (T.host.holds v != negated))) _
  cases T.host.holds v != negated with
  | true => exact .matched (.refl n s) hcursor trivial
  | false =>
    rw [if_neg Bool.false_ne_true, hesc.run s (.refl n s) hfits.blocks]
    exact .failed (.withCursor _) (by rw [withCursor_cursor, hcursor])

end

theorem SimulatesElements.mono {captures : List Capture} {stmts : List Stmt} {m : Nat}
    {outcome : Nat → Option (Option (Nat × Captured V))}
    (h : SimulatesElements T full env earlier captures n fail stmts outcome) (hmn : m ≤ n) :
    SimulatesElements T full env earlier captures m fail stmts outcome := by
  intro s pos sig back hfits hcursor hpos hready hesc
  have hends := h hfits hcursor hpos hready (hesc.of_kept (.refl m s) hmn)
  generalize outcome pos = x at hends
  generalize runStmts T stmts s = y at hends
  cases hends with
  | unknown => exact .unknown
  | failed stepped cursor => exact .failed (stepped.mono hmn) cursor
  | matched stepped cursor fits covers => exact .matched (stepped.mono hmn) cursor fits covers

/-! ## All constructs -/

/-- What stands for the value of a capture, in the words of a name. -/
theorem word_capture {c : Capture} (h : ∃ i q, c.var = Resolved.captureVar i q) :
    word c.var = "capture".toList := by
  obtain ⟨i, q, h⟩ := h
  rw [h]
  exact Naming.word_captureVar i q

theorem words_captures : ∀ {elements : List Element} {earlier : List Capture},
    elementsTyped p earlier elements →
    ∀ c ∈ elements.filterMap fun e => e.capture, word c.var = "capture".toList
  | [], _, _, _, h => nomatch h
  | e :: rest, _, htyped, c, hc => by
    rw [Resolved.elementsTyped_cons] at htyped
    rw [Resolved.captures_cons] at hc
    rcases List.mem_append.mp hc with hc | hc
    · exact word_capture (htyped.2.1 c (Option.mem_toList.mp hc)).2
    · exact words_captures htyped.2.2 c hc

theorem own_save (k : Nat) {n : Nat} (h : k ≤ n) :
    Plain (numbered "save" k) ∧ Protected n (numbered "save" k) :=
  ⟨plain_own (by decide) k, protected_own (by decide) h⟩

/-- The variable of a choice can be set behind it. -/
theorem Entered.settable {result : Option String} {sc sc' : Scope} (h : Entered result sc sc')
    (hnamed : ResultNamed result) (hres : Resolved.resultVar ∈ full.names)
    (hsub : sc'.names ⊆ full.names) : Settable full result := by
  refine ⟨hnamed, fun var hvar => ?_⟩
  rcases h.result var hvar with rfl | hmem
  · exact hres
  · exact hsub hmem

theorem element_within (hl : Linked p T calls) (env : Captured V) (e : Element) {pos : Nat}
    (hpos : pos ≤ T.input.length) {stop : Nat} {env' : Captured V}
    (h : e.run (source p T calls) env pos = some (some (stop, env'))) : stop ≤ T.input.length := by
  obtain ⟨outcome, hrun, h⟩ := Option.map_eq_some_iff.mp h
  cases outcome with
  | failed => cases h
  | matched q v =>
    obtain ⟨rfl, -⟩ := Prod.mk.inj (Option.some.inj h)
    exact (e.matcher.within (M := source p T calls) hl.within env hpos q v hrun).2

/-- A choice does what it is made from does if its alternatives do. -/
theorem simulates_choiceOf (hp : p.Typed) (hres : Resolved.resultVar ∈ full.names)
    {as : List Alternative} {result : Option String}
    (hrows : ∀ {save : String} {k : Nat} {fail : List Stmt} {rows : List (List Stmt)}
      {sc sc' : Scope}, Plain save ∧ Protected k save → Settable full result →
      Yields (lowerAlternatives save result fail as) sc rows sc' → Named sc →
      sc'.names ⊆ full.names → k ≤ sc.counter →
      List.Forall₂ (fun row a => SimulatesRow T full k save result fail row
        (Alternative.run (source p T calls) a)) rows as)
    {fail stmts : List Stmt} {save : String} {sc sc' : Scope} (htyped : alternativesTyped p as)
    (hresult : ResultNamed result)
    (h : Yields (lowerChoice fail ⟨as, result⟩) sc (stmts, save) sc') (hnamed : Named sc)
    (hfull : sc'.names ⊆ full.names) :
    SimulatesChoice T full sc.counter save result fail stmts
      (Choice.run (source p T calls) ⟨as, result⟩) := by
  rw [Choice.run_eq]
  by_cases hsingle : ∃ a, as = [a]
  · obtain ⟨a, rfl⟩ := hsingle
    obtain ⟨sc₁, row, -, entered, hrow, h⟩ := yields_single hresult h
    obtain ⟨rfl, rfl⟩ := Prod.mk.inj h
    have hgrows := (Makes.alternatives hp _ result _ [a] htyped).grows (yields_singleton hrow)
    have hsub : sc₁.names ⊆ full.names := List.Subset.trans hgrows.names hfull
    have hsim := hrows (own_save _ (Nat.le_refl (sc.counter + 1)))
      (entered.settable hresult hres hsub) (yields_singleton hrow) (entered.grows.named hnamed)
      hfull (Nat.le_of_eq entered.counter.symm)
    exact simulates_single (Nat.lt_succ_self _) (hsub entered.save) (List.forall₂_cons.mp hsim).1
  · obtain ⟨sc₁, rows, -, entered, hyields, h⟩ :=
      yields_several (fun a ha => hsingle ⟨a, ha⟩) hresult h
    obtain ⟨rfl, rfl⟩ := Prod.mk.inj h
    have hgrows := (Makes.alternatives hp _ result _ as htyped).grows hyields
    have hi := integer_mem sc₁ "i" (sc.counter + 1)
    have hsub := List.Subset.trans hgrows.names hfull
    have hsub₁ : sc₁.names ⊆ full.names := List.Subset.trans (Grows.integer ..).names hsub
    have hsim := hrows (own_save _ (Nat.le_refl (sc.counter + 1)))
      (entered.settable hresult hres hsub₁) hyields
      ((Grows.integer ..).named (entered.grows.named hnamed)) hfull
      (Nat.le_of_eq entered.counter.symm)
    exact simulates_several (Nat.lt_succ_self _) (hsub₁ entered.save) (hsub hi) hsim

mutual

theorem simulates_matcher (hp : p.Typed) (hl : Linked p T calls)
    (hres : Resolved.resultVar ∈ full.names) : ∀ (m : Matcher) ⦃earlier : List Capture⦄
    ⦃env : Captured V⦄ ⦃fail stmts : List Stmt⦄ ⦃sc sc' : Scope⦄, m.Typed p earlier →
    Covers earlier env → Yields (lowerMatcher fail m) sc stmts sc' → Named sc →
    sc'.names ⊆ full.names →
    Simulates T full env sc.counter fail stmts (m.run (source p T calls) env)
  | .literal value => fun _ _ _ _ _ _ _ _ h _ _ => by
    obtain ⟨rfl, rfl⟩ := yields_literal h
    exact simulates_literal hl value
  | .class tests => fun _ _ _ _ _ _ _ _ h _ _ => by
    obtain ⟨-, stmt, hstmt, rfl⟩ := yields_class h
    exact simulates_class hl hstmt
  | .anyChar => fun _ _ _ _ _ _ _ _ h _ _ => by
    obtain ⟨rfl, rfl⟩ := yields_anyChar h
    exact simulates_any hl
  | .endOfInput => fun _ _ _ _ _ _ _ _ h _ _ => by
    obtain ⟨rfl, rfl⟩ := yields_endOfInput h
    exact simulates_end hl
  | .call call => fun _ _ _ _ sc _ htyped _ h hnamed hfull => by
    rw [Matcher.Typed] at htyped
    obtain ⟨rfl, rfl⟩ := yields_call h
    obtain ⟨hmem, hword⟩ := scratch_mem sc call.resultType
    exact simulates_call hl htyped (hword hnamed) (hfull hmem)
  | .choice ⟨as, result⟩ => fun _ _ _ _ _ _ htyped _ h hnamed hfull => by
    rw [Matcher.Typed] at htyped
    have hresult := resultNamed_of_typed htyped
    rw [Choice.Typed] at htyped
    obtain ⟨save, hchoice⟩ := yields_choice h
    rw [Matcher.run_choice]
    exact (simulates_choiceOf hp hres
      (fun hsave hset => simulates_alternatives hp hl hres hsave hset as htyped.1) htyped.1 hresult
      hchoice hnamed hfull).simulates
  | .repeat body min max separator => fun _ env fail _ sc sc' htyped hcovers h hnamed hfull => by
    rw [Matcher.Typed] at htyped
    obtain ⟨sc₁, between, stmts, hbetween, hbody, rfl⟩ := yields_repeat h
    obtain ⟨hcounter, hgrows, vars⟩ := repeatScope_spec sc min max
    -- the separator is lowered in front of the body, behind the names of the loop
    have hgrows₁ := (Makes.separator hp _ separator htyped.2).grows hbetween
    have hgrows₂ := (Makes.matcher hp _ body htyped.1).grows hbody
    have hsub : sc₁.names ⊆ full.names := List.Subset.trans hgrows₂.names hfull
    have vars' := vars.mono (List.Subset.trans hgrows₁.names hsub)
    rw [Matcher.run_repeat]
    refine simulates_repeat (Nat.lt_succ_self _) vars' ⟨vars'.count, vars'.mark, ?_, ?_, ?_, ?_⟩
    · have hsim := simulates_separator hp hl hres separator htyped.2 hcovers hbetween
        (hgrows.named hnamed) hsub
      rwa [hcounter] at hsim
    · have hsim := simulates_matcher hp hl hres body htyped.1 hcovers hbody
        (hgrows₁.named (hgrows.named hnamed)) hfull
      exact hsim.mono (hcounter ▸ hgrows₁.counter)
    · exact fun q hq _ hstop =>
        Resolved.separator_within (M := source p T calls) hl.within env separator hq hstop
    · exact fun q hq => body.within (M := source p T calls) hl.within env hq
  | .lookahead negated body => fun _ env fail _ sc sc' htyped hcovers h hnamed hfull => by
    rw [Matcher.Typed] at htyped
    obtain ⟨stmts, hbody, rfl⟩ := yields_lookahead h
    have hgrows := (Makes.matcher hp _ body htyped).grows hbody
    have hsave := integer_mem sc.fresh.2 "save" (sc.counter + 1)
    have hok := logical_mem (sc.fresh.2.integer "save" (sc.counter + 1)).2 "ok" (sc.counter + 1)
    have hsim := simulates_matcher hp hl hres body htyped hcovers hbody
      ((Grows.logical ..).named ((Grows.integer ..).named ((Grows.fresh sc).named hnamed))) hfull
    rw [Matcher.run_lookahead]
    exact simulates_lookahead (Nat.lt_succ_self _)
      (hfull (hgrows.names ((Grows.logical ..).names hsave))) (hfull (hgrows.names hok)) hsim
  | .predicate negated call => fun _ _ _ _ _ _ htyped hcovers h _ _ => by
    rw [Matcher.Typed] at htyped
    obtain ⟨rfl, rfl⟩ := yields_predicate h
    exact simulates_predicate hl htyped hcovers
termination_by m => sizeOf m
decreasing_by all_goals simp +arith

theorem simulates_separator (hp : p.Typed) (hl : Linked p T calls)
    (hres : Resolved.resultVar ∈ full.names) : ∀ (separator : Option Matcher)
    ⦃earlier : List Capture⦄ ⦃env : Captured V⦄ ⦃fail : List Stmt⦄ ⦃between : Option (List Stmt)⦄
    ⦃sc sc' : Scope⦄, separatorTyped p earlier separator → Covers earlier env →
    Yields (lowerSeparator fail separator) sc between sc' → Named sc → sc'.names ⊆ full.names →
    SimulatesBetween T full env sc.counter fail between
      (runSeparator (source p T calls) env separator)
  | none => fun _ _ _ _ _ _ _ _ h _ _ => by
    obtain ⟨rfl, rfl⟩ := yields_noSeparator h
    funext pos
    rw [runSeparator]
  | some m => fun _ _ _ _ _ _ htyped hcovers h hnamed hfull => by
    rw [separatorTyped] at htyped
    obtain ⟨stmts, hstmts, rfl⟩ := yields_separator h
    refine ⟨_, simulates_matcher hp hl hres m htyped hcovers hstmts hnamed hfull, ?_⟩
    funext pos
    rw [runSeparator]
termination_by separator => sizeOf separator
decreasing_by simp +arith

theorem simulates_alternatives (hp : p.Typed) (hl : Linked p T calls)
    (hres : Resolved.resultVar ∈ full.names) {save : String} {k : Nat} {result : Option String}
    (hsave : Plain save ∧ Protected k save) (hset : Settable full result) :
    ∀ (as : List Alternative) ⦃fail : List Stmt⦄ ⦃rows : List (List Stmt)⦄ ⦃sc sc' : Scope⦄,
    alternativesTyped p as → Yields (lowerAlternatives save result fail as) sc rows sc' →
    Named sc → sc'.names ⊆ full.names → k ≤ sc.counter →
    List.Forall₂ (fun row a => SimulatesRow T full k save result fail row
      (Alternative.run (source p T calls) a)) rows as
  | [] => fun _ _ _ _ _ h _ _ _ => by
    obtain ⟨rfl, rfl⟩ := yields_noAlternatives h
    exact .nil
  | a :: rest => fun _ _ _ _ htyped h hnamed hfull hk => by
    rw [alternativesTyped] at htyped
    obtain ⟨sc₁, row, rows, hrow, hrows, rfl⟩ := yields_alternatives h
    have hgrows₁ := (Makes.alternative hp _ result _ a htyped.1).grows hrow
    have hgrows₂ := (Makes.alternatives hp _ result _ rest htyped.2).grows hrows
    refine .cons ?_ ?_
    · exact (simulates_alternative hp hl hres ⟨hsave.1, hsave.2.mono hk⟩ hset a htyped.1 hrow hnamed
        (List.Subset.trans hgrows₂.names hfull)).mono hk
    · exact simulates_alternatives hp hl hres hsave hset rest htyped.2 hrows
        (hgrows₁.named hnamed) hfull (Nat.le_trans hk hgrows₁.counter)
termination_by as => sizeOf as
decreasing_by all_goals simp +arith

theorem simulates_alternative (hp : p.Typed) (hl : Linked p T calls)
    (hres : Resolved.resultVar ∈ full.names) {save : String} {result : Option String}
    {sc : Scope} (hsave : Plain save ∧ Protected sc.counter save) (hset : Settable full result) :
    ∀ (a : Alternative) ⦃fail row : List Stmt⦄ ⦃sc' : Scope⦄, a.Typed p →
    Yields (lowerAlternative save result fail a) sc row sc' → Named sc → sc'.names ⊆ full.names →
    SimulatesRow T full sc.counter save result fail row (a.run (source p T calls))
  | ⟨elements, value, type⟩ => fun _ _ _ htyped h hnamed hfull => by
    rw [Alternative.Typed] at htyped
    obtain ⟨body, hbody, rfl⟩ := yields_alternative h
    exact simulates_row hl hsave hset htyped.2.2 (words_captures htyped.1)
      (simulates_elements hp hl hres elements htyped.1 .nil hbody hnamed hfull)
termination_by a => sizeOf a
decreasing_by simp +arith

theorem simulates_elements (hp : p.Typed) (hl : Linked p T calls)
    (hres : Resolved.resultVar ∈ full.names) : ∀ (elements : List Element)
    ⦃earlier : List Capture⦄ ⦃env : Captured V⦄ ⦃fail stmts : List Stmt⦄ ⦃sc sc' : Scope⦄,
    elementsTyped p earlier elements → Covers earlier env →
    Yields (lowerElements fail elements) sc stmts sc' → Named sc → sc'.names ⊆ full.names →
    SimulatesElements T full env earlier (elements.filterMap fun e => e.capture) sc.counter fail
      stmts (runElements (source p T calls) env elements)
  | [] => fun _ _ _ _ _ _ _ hcovers h _ _ => by
    obtain ⟨rfl, rfl⟩ := yields_noElements h
    exact simulates_noElements hcovers
  | e :: rest => fun _ env _ _ _ _ htyped hcovers h hnamed hfull => by
    rw [Resolved.elementsTyped_cons] at htyped
    obtain ⟨sc₁, first, others, hfirst, hothers, rfl⟩ := yields_elements h
    have hgrows₁ := (Makes.element hp _ e htyped.1 fun c hc => (htyped.2.1 c hc).1).grows hfirst
    have hgrows₂ := (Makes.elements hp _ rest htyped.2.2).grows hothers
    rw [Resolved.captures_cons]
    refine simulates_cons (fun pos hpos stop env' hstop => element_within hl env e hpos hstop)
      ?_ fun env' hcovers' => ?_
    · exact simulates_element hp hl hres e htyped.1 htyped.2.1 hcovers hfirst hnamed
        (List.Subset.trans hgrows₂.names hfull)
    · exact (simulates_elements hp hl hres rest htyped.2.2 hcovers' hothers (hgrows₁.named hnamed)
        hfull).mono hgrows₁.counter
termination_by elements => sizeOf elements
decreasing_by all_goals simp +arith

theorem simulates_element (hp : p.Typed) (hl : Linked p T calls)
    (hres : Resolved.resultVar ∈ full.names) : ∀ (e : Element)
    ⦃earlier : List Capture⦄ ⦃env : Captured V⦄ ⦃fail stmts : List Stmt⦄ ⦃sc sc' : Scope⦄,
    e.matcher.Typed p earlier →
    (∀ c, e.capture = some c → e.matcher.Gives c ∧ ∃ i q, c.var = Resolved.captureVar i q) →
    Covers earlier env → Yields (lowerElement fail e) sc stmts sc' → Named sc →
    sc'.names ⊆ full.names →
    SimulatesElements T full env earlier e.capture.toList sc.counter fail stmts
      (e.run (source p T calls) env)
  | ⟨m, none⟩ => fun _ _ _ _ _ _ htyped _ hcovers h hnamed hfull => by
    exact simulates_plain hcovers
      (simulates_matcher hp hl hres m htyped hcovers (yields_uncaptured h) hnamed hfull)
  | ⟨m, some capture⟩ => fun _ env _ _ sc _ htyped hgives hcovers h hnamed hfull => by
    obtain ⟨hgives, hvar⟩ := hgives capture rfl
    rcases Resolved.gives_cases hgives with hsource | ⟨hsource, ⟨call, rfl⟩ | ⟨as, group, rfl⟩⟩
    · obtain ⟨body, hbody, rfl⟩ := yields_capturedText hsource h
      have hmark := integer_mem sc.fresh.2 "mark" (sc.counter + 1)
      have hgrows := (Makes.matcher hp _ m htyped).grows hbody
      have hsim := simulates_matcher hp hl hres m htyped hcovers hbody
        ((Grows.integer ..).named ((Grows.fresh sc).named hnamed)) hfull
      exact simulates_capturedText (Nat.lt_succ_self _) (hfull (hgrows.names hmark))
        (fun q hq => m.within (M := source p T calls) hl.within env hq) rfl rfl hsim hsource
        (word_capture hvar) hcovers
    · rw [Matcher.Typed] at htyped
      obtain ⟨-, rfl⟩ := yields_capturedCall hsource h
      exact simulates_capturedCall hl htyped hsource (word_capture hvar) hcovers
    · rw [Matcher.Typed] at htyped
      have hresult := resultNamed_of_typed htyped
      rw [Choice.Typed] at htyped
      obtain ⟨path, rfl⟩ := htyped.2 group rfl
      obtain ⟨choice, save, hchoice, rfl⟩ := yields_capturedGroup hsource h
      have hsim := simulates_choiceOf hp hres
        (fun hsave hset => simulates_alternatives hp hl hres hsave hset as htyped.1) htyped.1 hresult
        hchoice hnamed hfull
      exact simulates_capturedGroup (Naming.word_groupVar path) hsim hsource (word_capture hvar)
        hcovers
termination_by e => sizeOf e
decreasing_by all_goals subst_vars; simp +arith

end

/-! ## Repetitions end -/

theorem Ends.isSome {s : State V} {pos : Nat} {sig : Signal} {back : Option Int}
    {Gives : V → State V → Prop} {x : Option (Outcome V)} {y : Option (Signal × State V)}
    (h : Ends n s pos sig back Gives x y) (hx : x.isSome) : y.isSome := by
  cases h with
  | unknown => exact hx
  | failed => rfl
  | matched => rfl

/-- No loop of a repetition runs forever: its statements end, in every state that they
can run in, when what it repeats and what stands in between end from its place on. -/
def RepetitionsEnd (p : Parser) (T : Machine V) (calls : String → Nat → Option (Outcome V)) :
    Prop :=
  ∀ {body : Matcher} {min : Resolved.Bound} {max : Option Resolved.Bound}
    {separator : Option Matcher} {earlier : List Capture} {env : Captured V} {fail stmts : List Stmt}
    {sc sc' full : Scope} {s : State V} {pos : Nat} {sig : Signal} {back : Option Int},
    (Matcher.repeat body min max separator).Typed p earlier → Covers earlier env →
    Yields (lowerMatcher fail (.repeat body min max separator)) sc stmts sc' → Named sc →
    sc'.names ⊆ full.names → Resolved.resultVar ∈ full.names →
    Fits full env s → s.cursor = pos + 1 → pos ≤ T.input.length →
    Escapes T fail sc.counter s sig back →
    (∀ q, pos ≤ q → q ≤ T.input.length → (runSeparator (source p T calls) env separator q).isSome ∧
      (body.run (source p T calls) env q).isSome) →
    (runStmts T stmts s).isSome

theorem repetitionsEnd (hp : p.Typed) (hl : Linked p T calls) : RepetitionsEnd p T calls := by
  intro body min max separator earlier env fail stmts sc sc' full s pos sig back htyped hcovers h
    hnamed hfull hres hfits hcursor hpos hesc hparts
  refine (simulates_matcher hp hl hres _ htyped hcovers h hnamed hfull hfits hcursor hpos
    hesc).isSome ?_
  rw [Matcher.run_repeat]
  exact Resolved.repetition_isSome
    (fun q hq _ hstop =>
      Resolved.separator_within (M := source p T calls) hl.within env separator hq hstop)
    (fun q hq => body.within (M := source p T calls) hl.within env hq) hpos hparts

end

end PegCompiler.Lowering
