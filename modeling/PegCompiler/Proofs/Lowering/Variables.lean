import PegCompiler.Proofs.Lowering.References
/-
  Lowering keeps the names of a function apart, and puts references to captures where the
  parser has them, by recursion over the matcher (`Lowers`).
-/

namespace PegCompiler.Lowering

open Naming (word)
open Resolved (Alternative Bound Capture Choice Element Matcher Parser alternativesBindings
  alternativesTyped elementsBindings elementsTyped groupVar resultVar separatorBindings
  separatorTyped)
open Target (Binding Expr Stmt optionalBindings stmtsBindings uses)

section
variable {p : Parser} {sc sc' : Scope}

/-! ## The scopes of constructs -/

/-- The variable of a choice is the argument of the function, or named by the path of a
group. -/
def ResultMade (result : Option String) : Prop :=
  ∀ var, result = some var → var = resultVar ∨ ∃ path, var = groupVar path

theorem ResultMade.named {result : Option String} (h : ResultMade result) : ResultNamed result := by
  intro var hvar
  rcases h var hvar with h | ⟨path, rfl⟩
  · exact .inl h
  · exact .inr (Naming.word_groupVar path)

theorem drawn_enterChoice {result : Option String} (hresult : ResultMade result) (ht : Tidy sc)
    {r : Nat × String} (h : Yields (enterChoice result) sc r sc') : Drawn ["save"] sc' := by
  obtain ⟨-, -, hdeclare⟩ := yields_enter h
  have hdrawn : Drawn ["save"] (sc.fresh.2.integer "save" (sc.counter + 1)).2 :=
    (Drawn.fresh ht).integer (by decide) (by decide)
  rcases yields_declareResult hdeclare with ⟨-, rfl⟩ | ⟨var, rfl, hne, rfl⟩
  · exact hdrawn
  · obtain ⟨path, rfl⟩ := (hresult var rfl).resolve_left hne
    exact hdrawn.declare path _

/-- The variable of a choice is there. -/
theorem Entered.locals {result : Option String} (h : Entered result sc sc')
    (hresult : ResultMade result) : ∀ var, result = some var → Local sc' var := by
  intro var hvar
  rcases h.result var hvar with rfl | hmem
  · exact .shared (by decide)
  · rcases hresult var hvar with rfl | ⟨path, rfl⟩
    · exact .shared (by decide)
    · exact ⟨.inr hmem, isCapture_of_word (Naming.word_groupVar path) (by decide)⟩

section
variable {ws : List String} {k : Nat}

theorem Drawn.bound (h : Drawn ws sc) (hk : sc.counter = k) {w : String} (hw : w ∈ numberedWords)
    (hnew : w ∉ ws) (b : Option Bound) : Drawn (w :: ws) (boundScope w k b sc) := by
  subst hk
  unfold boundScope
  split
  · exact h.integer hw hnew
  · exact h.mono (List.subset_cons_self w ws)

theorem Drawn.saved (h : Drawn ws sc) (hk : sc.counter = k) (hnew : "save" ∉ ws) (min : Bound) :
    Drawn ("save" :: ws) (savedScope k min sc) ∧ (savedScope k min sc).counter = k := by
  subst hk
  unfold savedScope
  split
  · exact ⟨h.integer (by decide) hnew, rfl⟩
  · exact ⟨h.mono (List.subset_cons_self _ ws), rfl⟩

end

theorem tidy_repeatScope (ht : Tidy sc) (min : Bound) (max : Option Bound) :
    Tidy (repeatScope sc min max) := by
  unfold repeatScope
  dsimp only
  -- all variables have the one number that is drawn first
  have hcount : Drawn ["count"] (sc.fresh.2.integer "count" (sc.counter + 1)).2 :=
    (Drawn.fresh ht).integer (by decide) (by decide)
  have hlo := hcount.bound (w := "lo") rfl (by decide) (by decide) (some min)
  have hlower := boundScope_counter (sc.fresh.2.integer "count" (sc.counter + 1)).2 "lo"
    (sc.counter + 1) (some min)
  have hhi := hlo.bound (w := "hi") hlower (by decide) (by decide) max
  have hupper := (boundScope_counter _ "hi" (sc.counter + 1) max).trans hlower
  obtain ⟨hsave, hnumber⟩ := hhi.saved hupper (by decide) min
  have hmark := hsave.integer (w := "mark") (by decide) (by decide)
  rw [hnumber] at hmark
  exact hmark.tidy

/-! ## All constructs -/

/-- What lowering has made refers to captures as the parser does, and the scope behind it
is tidy. -/
structure Lowers (sc : Scope) (bs tree : List Binding) : Prop where
  tidy : Tidy sc
  refers : Refers sc bs tree

theorem isCapture_captures {elements : List Element} {earlier : List Capture}
    (h : elementsTyped p earlier elements) :
    ∀ var ∈ (elements.filterMap fun e => e.capture).map fun c => c.var, isCapture var = true := by
  intro var hvar
  obtain ⟨c, hc, rfl⟩ := List.mem_map.mp hvar
  exact beq_iff_eq.mpr (words_captures h c hc)

/-- A call writes into a variable. -/
theorem refers_call {tree : List Binding} {fail : List Stmt} {call : Resolved.RuleCall}
    {var : String} (hvar : Refers sc (uses [var]) tree) (hfail : Refers sc (stmtsBindings fail) []) :
    Refers sc (stmtsBindings [failUnless (.call call.function [.var var]) fail]) tree := by
  have htest : Refers sc (uses (Expr.call call.function [.var var]).variables) tree := hvar
  exact .single (htest.failOn hfail false)

/-- The statements that leave a repetition. -/
theorem refers_stop {k : Nat} (h : numbered "mark" k ∈ sc.names) :
    Refers sc (stmtsBindings [restore (numbered "mark" k), .exit (some (numbered "rep" k))]) [] :=
  (Refers.restore (.own (by decide) h)).cons (.single (.exit _))

/-- A choice refers to captures as its alternatives do. -/
theorem lowers_choiceOf (hp : p.Typed) {as : List Alternative} {result : Option String}
    (hrows : ∀ {save : String} {fail : List Stmt} {rows : List (List Stmt)} {sc sc' : Scope},
      Local sc save → (∀ var, result = some var → Local sc var) →
      Yields (lowerAlternatives save result fail as) sc rows sc' → Tidy sc →
      Refers sc (stmtsBindings fail) [] →
      Lowers sc' (rows.flatMap stmtsBindings) (alternativesBindings result.isSome as))
    {fail stmts : List Stmt} {save : String} {sc sc' : Scope} (htyped : alternativesTyped p as)
    (hresult : ResultMade result) (h : Yields (lowerChoice fail ⟨as, result⟩) sc (stmts, save) sc')
    (ht : Tidy sc) (hfail : Refers sc (stmtsBindings fail) []) :
    Lowers sc' (stmtsBindings stmts) (alternativesBindings result.isSome as) ∧ Local sc' save ∧
      ∀ var, result = some var → Local sc' var := by
  -- a single alternative needs no loop, and no variable for one
  by_cases hsingle : ∃ a, as = [a]
  · obtain ⟨a, rfl⟩ := hsingle
    obtain ⟨sc₁, row, henter, entered, hrow, h⟩ := yields_single hresult.named h
    obtain ⟨rfl, rfl⟩ := Prod.mk.inj h
    have hgrows := (Makes.alternatives hp _ result _ [a] htyped).grows (yields_singleton hrow)
    have hsave : Local sc₁ (numbered "save" (sc.counter + 1)) := .own (by decide) entered.save
    obtain ⟨ht', hrefers⟩ := hrows hsave (entered.locals hresult) (yields_singleton hrow)
      (drawn_enterChoice hresult ht henter).tidy
      ((Refers.restore hsave).cons (hfail.mono entered.grows.names))
    rw [List.flatMap_singleton] at hrefers
    exact ⟨⟨ht', (Refers.keep (hsave.mono hgrows.names)).cons hrefers⟩, hsave.mono hgrows.names,
      fun var hvar => (entered.locals hresult var hvar).mono hgrows.names⟩
  · obtain ⟨sc₁, rows, henter, entered, hyields, h⟩ :=
      yields_several (fun a ha => hsingle ⟨a, ha⟩) hresult.named h
    obtain ⟨rfl, rfl⟩ := Prod.mk.inj h
    -- the variable of the loop has the number of the choice
    have hi : Drawn ["i", "save"] (sc₁.integer "i" (sc.counter + 1)).2 := by
      rw [← entered.counter]
      exact (drawn_enterChoice hresult ht henter).integer (by decide) (by decide)
    have hsub := (Grows.integer sc₁ "i" (sc.counter + 1)).names
    have hgrows := (Makes.alternatives hp _ result _ as htyped).grows hyields
    have hsave : Local (sc₁.integer "i" (sc.counter + 1)).2 (numbered "save" (sc.counter + 1)) :=
      .own (by decide) (hsub entered.save)
    have hindex : Local (sc₁.integer "i" (sc.counter + 1)).2 (numbered "i" (sc.counter + 1)) :=
      .own (by decide) (integer_mem ..)
    have hvars (var : String) (hvar : result = some var) :=
      (entered.locals hresult var hvar).mono hsub
    have hcycle : Refers (sc₁.integer "i" (sc.counter + 1)).2
        (stmtsBindings [.cycle (some (numbered "alt" (sc.counter + 1)))]) [] := .nil
    obtain ⟨ht', hrefers⟩ := hrows hsave hvars hyields hi.tidy hcycle
    have hloop := refers_choiceLoop (numbered "alt" (sc.counter + 1))
      (hindex.mono hgrows.names) (hsave.mono hgrows.names) hrefers
      (hfail.mono ((entered.grows.trans (.integer ..)).trans hgrows).names)
    exact ⟨⟨ht', (Refers.keep (hsave.mono hgrows.names)).cons (.single hloop)⟩,
      hsave.mono hgrows.names, fun var hvar => (hvars var hvar).mono hgrows.names⟩

mutual

theorem lowers_matcher (hp : p.Typed) : ∀ (m : Matcher) ⦃earlier : List Capture⦄
    ⦃fail stmts : List Stmt⦄ ⦃sc sc' : Scope⦄, m.Typed p earlier →
    (∀ var ∈ earlier.map fun c => c.var, isCapture var = true) →
    Yields (lowerMatcher fail m) sc stmts sc' → Tidy sc → Refers sc (stmtsBindings fail) [] →
    Lowers sc' (stmtsBindings stmts) m.bindings
  | .literal value => fun _ _ _ _ _ _ _ h ht hfail => by
    obtain ⟨rfl, rfl⟩ := yields_literal h
    rw [Matcher.bindings]
    exact ⟨ht, refers_failUnless rfl hfail⟩
  | .class tests => fun _ _ _ _ _ _ _ h ht hfail => by
    obtain ⟨rfl, stmt, hstmt, rfl⟩ := yields_class h
    rw [Matcher.bindings]
    exact ⟨ht, refers_class hstmt hfail⟩
  | .anyChar => fun _ _ _ _ _ _ _ h ht hfail => by
    obtain ⟨rfl, rfl⟩ := yields_anyChar h
    rw [Matcher.bindings]
    exact ⟨ht, refers_failUnless rfl hfail⟩
  | .endOfInput => fun _ _ _ _ _ _ _ h ht hfail => by
    obtain ⟨rfl, rfl⟩ := yields_endOfInput h
    rw [Matcher.bindings]
    exact ⟨ht, refers_failUnless rfl hfail⟩
  | .call call => fun _ _ _ sc _ htyped _ h ht hfail => by
    rw [Matcher.Typed] at htyped
    obtain ⟨rfl, rfl⟩ := yields_call h
    have ht' := ht.scratch call.resultType
    have hvar : Refers (sc.scratch call.resultType).2 (uses [(sc.scratch call.resultType).1]) [] :=
      .vars fun _ hname => List.mem_singleton.mp hname ▸ Local.of_tidy ht' (scratch_mem sc _).1
    rw [Matcher.bindings]
    exact ⟨ht', refers_call hvar (hfail.mono (Grows.scratch sc _).names)⟩
  | .choice ⟨as, result⟩ => fun _ _ _ _ _ htyped _ h ht hfail => by
    rw [Matcher.Typed, Choice.Typed] at htyped
    obtain ⟨save, hchoice⟩ := yields_choice h
    rw [Matcher.bindings, Choice.bindings]
    exact (lowers_choiceOf hp (fun hsave hvars => lowers_alternatives hp as htyped.1 hsave hvars)
      htyped.1 (fun var hvar => .inr (htyped.2 var hvar)) hchoice ht hfail).1
  | .repeat body min max separator => fun _ fail _ sc _ htyped hearlier h ht hfail => by
    rw [Matcher.Typed] at htyped
    obtain ⟨sc₁, between, stmts, hbetween, hbody, rfl⟩ := yields_repeat h
    obtain ⟨-, hgrows, vars⟩ := repeatScope_spec sc min max
    -- the separator is lowered in front of the body, and both leave the loop on failure
    have hgrows₁ := (Makes.separator hp _ separator htyped.2).grows hbetween
    have hgrows₂ := (Makes.matcher hp _ body htyped.1).grows hbody
    have hstop := refers_stop vars.mark
    obtain ⟨ht₁, hseparator⟩ := lowers_separator hp separator htyped.2 hearlier hbetween
      (tidy_repeatScope ht min max) hstop
    obtain ⟨ht₂, hturn⟩ := lowers_matcher hp body htyped.1 hearlier hbody ht₁
      (hstop.mono hgrows₁.names)
    rw [Matcher.bindings]
    refine ⟨ht₂, refers_repeat (vars.mono (hgrows₁.trans hgrows₂).names)
      (hseparator.mono hgrows₂.names) hturn ?_⟩
    exact hfail.mono (hgrows.trans (hgrows₁.trans hgrows₂)).names
  | .lookahead negated body => fun _ _ _ sc _ htyped hearlier h ht hfail => by
    rw [Matcher.Typed] at htyped
    obtain ⟨stmts, hbody, rfl⟩ := yields_lookahead h
    have hsave := integer_mem sc.fresh.2 "save" (sc.counter + 1)
    have hok := logical_mem (sc.fresh.2.integer "save" (sc.counter + 1)).2 "ok" (sc.counter + 1)
    have hdrawn : Drawn ["ok", "save"]
        ((sc.fresh.2.integer "save" (sc.counter + 1)).2.logical "ok" (sc.counter + 1)).2 :=
      ((Drawn.fresh ht).integer (by decide) (by decide)).logical (by decide) (by decide)
    have hgrows := (Makes.matcher hp _ body htyped).grows hbody
    obtain ⟨ht', hrefers⟩ := lowers_matcher hp body htyped hearlier hbody hdrawn.tidy
      (.single (.exit _))
    rw [Matcher.bindings]
    refine ⟨ht', refers_lookahead (.own (by decide) ?_) (.own (by decide) (hgrows.names hok))
      hrefers (hfail.mono ?_)⟩
    · exact hgrows.names ((Grows.logical ..).names hsave)
    · exact (((Grows.fresh sc).trans (.integer ..)).trans ((Grows.logical ..).trans hgrows)).names
  | .predicate negated call => fun _ _ _ _ sc htyped hearlier h ht hfail => by
    rw [Matcher.Typed] at htyped
    obtain ⟨rfl, rfl⟩ := yields_predicate h
    have hargs : Refers sc (uses (actionCall call).variables) (uses call.args) := by
      rw [actionCall, Expr.variables, listVariables_vars]
      exact .captured fun var hvar => hearlier var (Resolved.ActionCall.args_mem htyped var hvar)
    rw [Matcher.bindings]
    exact ⟨ht, .single (hargs.failOn hfail negated)⟩
termination_by m => sizeOf m
decreasing_by all_goals simp +arith

theorem lowers_separator (hp : p.Typed) : ∀ (separator : Option Matcher) ⦃earlier : List Capture⦄
    ⦃fail : List Stmt⦄ ⦃between : Option (List Stmt)⦄ ⦃sc sc' : Scope⦄,
    separatorTyped p earlier separator →
    (∀ var ∈ earlier.map fun c => c.var, isCapture var = true) →
    Yields (lowerSeparator fail separator) sc between sc' → Tidy sc →
    Refers sc (stmtsBindings fail) [] →
    Lowers sc' (optionalBindings between) (separatorBindings separator)
  | none => fun _ _ _ _ _ _ _ h ht _ => by
    obtain ⟨rfl, rfl⟩ := yields_noSeparator h
    rw [separatorBindings]
    exact ⟨ht, .nil⟩
  | some m => fun _ _ _ _ _ htyped hearlier h ht hfail => by
    rw [separatorTyped] at htyped
    obtain ⟨stmts, hstmts, rfl⟩ := yields_separator h
    rw [separatorBindings]
    exact lowers_matcher hp m htyped hearlier hstmts ht hfail
termination_by separator => sizeOf separator
decreasing_by simp +arith

theorem lowers_alternatives (hp : p.Typed) {save : String} {result : Option String} :
    ∀ (as : List Alternative) ⦃fail : List Stmt⦄ ⦃rows : List (List Stmt)⦄ ⦃sc sc' : Scope⦄,
    alternativesTyped p as → Local sc save → (∀ var, result = some var → Local sc var) →
    Yields (lowerAlternatives save result fail as) sc rows sc' → Tidy sc →
    Refers sc (stmtsBindings fail) [] →
    Lowers sc' (rows.flatMap stmtsBindings) (alternativesBindings result.isSome as)
  | [] => fun _ _ _ _ _ _ _ h ht _ => by
    obtain ⟨rfl, rfl⟩ := yields_noAlternatives h
    rw [alternativesBindings]
    exact ⟨ht, .nil⟩
  | a :: rest => fun _ _ _ _ htyped hsave hresult h ht hfail => by
    rw [alternativesTyped] at htyped
    obtain ⟨sc₁, row, rows, hrow, hrows, rfl⟩ := yields_alternatives h
    have hgrows₁ := (Makes.alternative hp _ result _ a htyped.1).grows hrow
    have hgrows₂ := (Makes.alternatives hp _ result _ rest htyped.2).grows hrows
    obtain ⟨ht₁, hfirst⟩ := lowers_alternative hp hsave hresult a htyped.1 hrow ht hfail
    obtain ⟨ht₂, hothers⟩ := lowers_alternatives hp rest htyped.2 (hsave.mono hgrows₁.names)
      (fun var hvar => (hresult var hvar).mono hgrows₁.names) hrows ht₁ (hfail.mono hgrows₁.names)
    rw [alternativesBindings, List.flatMap_cons]
    exact ⟨ht₂, (hfirst.mono hgrows₂.names).append hothers⟩
termination_by as => sizeOf as
decreasing_by all_goals simp +arith

theorem lowers_alternative (hp : p.Typed) {save : String} {result : Option String} {sc : Scope}
    (hsave : Local sc save) (hresult : ∀ var, result = some var → Local sc var) :
    ∀ (a : Alternative) ⦃fail row : List Stmt⦄ ⦃sc' : Scope⦄, a.Typed p →
    Yields (lowerAlternative save result fail a) sc row sc' → Tidy sc →
    Refers sc (stmtsBindings fail) [] → Lowers sc' (stmtsBindings row) (a.bindings result.isSome)
  | ⟨elements, value, type⟩ => fun _ _ _ htyped h ht hfail => by
    rw [Alternative.Typed] at htyped
    obtain ⟨body, hbody, rfl⟩ := yields_alternative h
    have hgrows := (Makes.elements hp _ elements htyped.1).grows hbody
    obtain ⟨ht', hrefers⟩ := lowers_elements hp elements htyped.1 (fun _ h => (nomatch h)) hbody ht
      hfail
    have hassign := refers_assignResult value (hsave.mono hgrows.names)
      (fun var hvar => isCapture_captures htyped.1 var
        (Resolved.AltResult.variables_mem htyped.2.2 var hvar))
      fun var hvar => (hresult var hvar).mono hgrows.names
    rw [Alternative.bindings, stmtsBindings_captureBlock]
    exact ⟨ht', (hrefers.concat hassign).block _⟩
termination_by a => sizeOf a
decreasing_by simp +arith

theorem lowers_elements (hp : p.Typed) : ∀ (elements : List Element) ⦃earlier : List Capture⦄
    ⦃fail stmts : List Stmt⦄ ⦃sc sc' : Scope⦄, elementsTyped p earlier elements →
    (∀ var ∈ earlier.map fun c => c.var, isCapture var = true) →
    Yields (lowerElements fail elements) sc stmts sc' → Tidy sc →
    Refers sc (stmtsBindings fail) [] →
    Lowers sc' (stmtsBindings stmts) (elementsBindings elements)
  | [] => fun _ _ _ _ _ _ _ h ht _ => by
    obtain ⟨rfl, rfl⟩ := yields_noElements h
    rw [elementsBindings]
    exact ⟨ht, .nil⟩
  | ⟨m, capture⟩ :: rest => fun earlier _ _ _ _ htyped hearlier h ht hfail => by
    rw [elementsTyped] at htyped
    obtain ⟨sc₁, first, others, hfirst, hothers, rfl⟩ := yields_elements h
    have hgrows₁ := (Makes.element hp _ ⟨m, capture⟩ htyped.1
      fun c hc => (htyped.2.1 c hc).1).grows hfirst
    have hgrows₂ := (Makes.elements hp _ rest htyped.2.2).grows hothers
    obtain ⟨ht₁, hrefers⟩ := lowers_element hp ⟨m, capture⟩ htyped.1 htyped.2.1 hearlier hfirst ht
      hfail
    have hmore : ∀ var ∈ (earlier ++ capture.toList).map fun c => c.var, isCapture var = true := by
      intro var hvar
      rw [List.map_append, List.mem_append] at hvar
      rcases hvar with hvar | hvar
      · exact hearlier var hvar
      · obtain ⟨c, hc, rfl⟩ := List.mem_map.mp hvar
        exact beq_iff_eq.mpr (word_capture (htyped.2.1 c (Option.mem_toList.mp hc)).2)
    obtain ⟨ht₂, hrest⟩ := lowers_elements hp rest htyped.2.2 hmore hothers ht₁
      (hfail.mono hgrows₁.names)
    rw [elementsBindings]
    exact ⟨ht₂, (hrefers.mono hgrows₂.names).concat hrest⟩
termination_by elements => sizeOf elements
decreasing_by all_goals simp +arith

theorem lowers_element (hp : p.Typed) : ∀ (e : Element) ⦃earlier : List Capture⦄
    ⦃fail stmts : List Stmt⦄ ⦃sc sc' : Scope⦄, e.matcher.Typed p earlier →
    (∀ c, e.capture = some c → e.matcher.Gives c ∧ ∃ i q, c.var = Resolved.captureVar i q) →
    (∀ var ∈ earlier.map fun c => c.var, isCapture var = true) →
    Yields (lowerElement fail e) sc stmts sc' → Tidy sc → Refers sc (stmtsBindings fail) [] →
    Lowers sc' (stmtsBindings stmts)
      (e.matcher.bindings ++ uses (e.capture.toList.map fun c => c.var))
  | ⟨m, none⟩ => fun _ _ _ _ _ htyped _ hearlier h ht hfail => by
    obtain ⟨ht', hrefers⟩ := lowers_matcher hp m htyped hearlier (yields_uncaptured h) ht hfail
    show Lowers _ _ (m.bindings ++ [])
    rw [List.append_nil]
    exact ⟨ht', hrefers⟩
  | ⟨m, some capture⟩ => fun _ _ _ sc sc' htyped hgives hearlier h ht hfail => by
    obtain ⟨hgives, hvar⟩ := hgives capture rfl
    have hcapture : isCapture capture.var = true := beq_iff_eq.mpr (word_capture hvar)
    have huse {sc : Scope} : Refers sc (uses [capture.var]) (uses [capture.var]) :=
      .captured fun _ hname => List.mem_singleton.mp hname ▸ hcapture
    rcases Resolved.gives_cases hgives with hsource | ⟨hsource, ⟨call, rfl⟩ | ⟨as, group, rfl⟩⟩
    · obtain ⟨body, hbody, rfl⟩ := yields_capturedText hsource h
      have hmark := integer_mem sc.fresh.2 "mark" (sc.counter + 1)
      have hgrows := (Makes.matcher hp _ m htyped).grows hbody
      have hdrawn : Drawn ["mark"] (sc.fresh.2.integer "mark" (sc.counter + 1)).2 :=
        (Drawn.fresh ht).integer (by decide) (by decide)
      obtain ⟨ht', hrefers⟩ := lowers_matcher hp m htyped hearlier hbody hdrawn.tidy
        (hfail.mono ((Grows.fresh sc).trans (.integer ..)).names)
      exact ⟨ht', refers_capturedText (.own (by decide) (hgrows.names hmark)) hcapture hrefers⟩
    · rw [Matcher.Typed] at htyped
      obtain ⟨rfl, rfl⟩ := yields_capturedCall hsource h
      rw [Matcher.bindings]
      exact ⟨ht, refers_call huse hfail⟩
    · rw [Matcher.Typed, Choice.Typed] at htyped
      obtain ⟨choice, save, hchoice, rfl⟩ := yields_capturedGroup hsource h
      obtain ⟨⟨ht', hrefers⟩, -, hvars⟩ := lowers_choiceOf hp
        (fun hsave hvars => lowers_alternatives hp as htyped.1 hsave hvars) htyped.1
        (fun var hvar => .inr (htyped.2 var hvar)) hchoice ht hfail
      have hgroup : Refers _ (Stmt.assign capture.var (.var group)).bindings
          (uses [capture.var]) :=
        (Refers.vars fun _ hname => List.mem_singleton.mp hname ▸ hvars group rfl).assign huse
      rw [Matcher.bindings, Choice.bindings]
      exact ⟨ht', hrefers.concat (.single hgroup)⟩
termination_by e => sizeOf e
decreasing_by all_goals subst_vars; simp +arith

end

end

end PegCompiler.Lowering
