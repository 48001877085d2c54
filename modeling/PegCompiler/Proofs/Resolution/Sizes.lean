import PegCompiler.Proofs.Lowering.Numbers
import PegCompiler.Proofs.Resolution.Typing
import PegCompiler.Proofs.Resolved.Captures
import PegCompiler.Proofs.Validity.Nodes
/-
  Sizes. A rule of few nodes draws few numbers, and its captures have low ones: the number
  of an alternative and that of an element are below the number of nodes. The factor of
  two is for a repetition that is captured or looked ahead at, which draws two numbers.
-/

namespace PegCompiler

namespace Resolution

open Grammar (Node Place alternativesNodes elementsNodes)
open Resolved (alternativesBindings alternativesDraws captureVar elementsBindings elementsDraws)
open Target (allBlockNames)

/-! ## Few numbers and low ones -/

/-- A name of a capture of a low number. -/
def Below (limit : Nat) (name : String) : Prop :=
  ∃ i q, i < limit ∧ q < limit ∧ name = captureVar i q

/-- What some nodes come to draws at most twice as many numbers, and its names are below the
number of nodes and of what stands in front of them. -/
structure Sized (lo nodes draws : Nat) (names : List String) : Prop where
  draws : draws ≤ 2 * nodes
  names : ∀ limit, lo + nodes ≤ limit → ∀ name ∈ names, Below limit name

namespace Sized

variable {lo lo' n n' d d' : Nat} {a b : List String}

theorem noNames (hd : d ≤ 2 * n) (ha : a = []) : Sized lo n d a :=
  ⟨hd, fun _ _ _ h => by simp [ha] at h⟩

theorem nothing (lo n : Nat) : Sized lo n 0 [] :=
  noNames (Nat.zero_le _) rfl

theorem append (ha : Sized lo n d a) (hb : Sized lo' n' d' b) (hlo : lo' ≤ lo + n) :
    Sized lo (n + n') (d + d') (a ++ b) where
  draws := by
    have hda := ha.draws
    have hdb := hb.draws
    omega
  names limit hlimit := List.forall_mem_append.mpr
    ⟨ha.names limit (by omega), hb.names limit (by omega)⟩

theorem mono (h : Sized lo n d a) (hlo : lo ≤ lo') (hn : n ≤ n') (hd : d' ≤ 2 * n') (hsub : b ⊆ a) :
    Sized lo' n' d' b :=
  ⟨hd, fun limit hlimit name hname => h.names limit (by omega) name (hsub hname)⟩

end Sized

/-! ## Every part of resolution -/

/-- The nodes of alternatives at places of their own. -/
def placedNodes (place : Nat → Place) (index : Nat) (as : List Grammar.Alternative) :
    List (Place × Node) :=
  (as.zipIdx index).flatMap fun (a, i) => a.nodes (place i)

theorem placedNodes_cons (place : Nat → Place) (index : Nat) (a : Grammar.Alternative)
    (rest : List Grammar.Alternative) : placedNodes place index (a :: rest) =
      a.nodes (place index) ++ placedNodes place (index + 1) rest := by
  simp [placedNodes]

/-- In a group all alternatives have one place. -/
theorem placedNodes_const (place : Place) : ∀ (as : List Grammar.Alternative) (index : Nat),
    placedNodes (fun _ => place) index as = alternativesNodes place as
  | [], _ => by
    rw [alternativesNodes]
    rfl
  | a :: rest, index => by
    rw [placedNodes_cons, alternativesNodes, placedNodes_const place rest]

/-- The variables that a row captures into. -/
def capturedVars (elements : List Resolved.Element) : List String :=
  (elements.filterMap fun e => e.capture).map fun c => c.var

theorem capturedVars_cons (e : Resolved.Element) (rest : List Resolved.Element) :
    capturedVars (e :: rest) = (e.capture.toList.map fun c => c.var) ++ capturedVars rest := by
  unfold capturedVars
  rw [Resolved.captures_cons, List.map_append]

/-- Every part of resolution keeps sizes. A row stands in front of its captures: they have
its number and that of the alternative. -/
def sizing : Relations where
  alternatives _ index _ as rs _ := ∀ (place : Nat → Place) (valued : Bool),
    Sized index (placedNodes place index as).length (alternativesDraws rs)
      (allBlockNames (alternativesBindings valued rs))
  alternative ctx _ a r _ := ∀ (place : Place) (valued : Bool),
    Sized ctx.alternative (a.nodes place).length r.draws (allBlockNames (r.bindings valued)) ∧
      0 < (a.nodes place).length
  elements ctx position _ _ es rs _ _ := ∀ (place : Place) (earlier : List Grammar.Element),
    Sized (ctx.alternative + position) (elementsNodes place earlier es).length (elementsDraws rs)
      (capturedVars rs ++ allBlockNames (elementsBindings rs))
  element ctx _ e r _ := ∀ (place : Place) (earlier : List Grammar.Element),
    Sized (ctx.alternative + ctx.position) (e.nodes place earlier).length r.element.draws
      ((r.element.capture.toList.map fun c => c.var) ++ allBlockNames r.element.matcher.bindings) ∧
      0 < (e.nodes place earlier).length
  quantified _ _ body m _ := ∀ place : Place,
    Sized 0 (body.nodes place).length (m.draws + 1) (allBlockNames m.bindings)
  expr _ _ e m _ := ∀ place : Place,
    Sized 0 (e.nodes place).length m.draws (allBlockNames m.bindings)

theorem length_item (place : Place) (earlier : List Grammar.Element) (plucked : Bool)
    (label : Option String) (body : Grammar.Quantified) : (body.nodes place).length ≤
      ((Grammar.Element.item plucked label body).nodes place earlier).length := by
  rw [Grammar.Element.nodes, List.length_append, List.length_append]
  omega

/-- An item has the size of its body and one more number, if it is captured. -/
theorem sized_keptIf {keep plucked : Bool} {ctx : Context} {label rule : Option String}
    {m : Resolved.Matcher} {type : Resolved.ValueType} {source : Resolved.CaptureSource} {n : Nat}
    (h : Sized 0 n (m.draws + 1) (allBlockNames m.bindings)) :
    Sized (ctx.alternative + ctx.position) n
      (keptIf keep ctx plucked label rule m type source).element.draws
      (((keptIf keep ctx plucked label rule m type source).element.capture.toList.map
        fun c => c.var) ++
        allBlockNames (keptIf keep ctx plucked label rule m type source).element.matcher.bindings) := by
  have hdraws := h.draws
  cases keep with
  | false =>
    refine h.mono (Nat.zero_le _) (Nat.le_refl n) ?_ (List.Subset.refl _)
    show m.draws ≤ 2 * n
    omega
  | true =>
    constructor
    · show 1 + m.draws ≤ 2 * n
      omega
    · intro limit hlimit
      refine List.forall_mem_append.mpr ⟨fun name hname => ?_, h.names limit (by omega)⟩
      obtain rfl := List.mem_singleton.mp hname
      exact ⟨ctx.alternative, ctx.position, by omega, by omega, rfl⟩

theorem length_quantifier (place : Place) (q : Grammar.Quantifier) : 0 < (q.nodes place).length := by
  cases q <;> simp [Grammar.Quantifier.nodes]

theorem bounded_nodes {q : Grammar.Quantifier} {min : Resolved.Bound} {max : Option Resolved.Bound}
    (h : Bounded q min max) (place : Place) : (q.nodes place).length = 1 := by
  cases h <;> simp [Grammar.Quantifier.nodes]

theorem length_quantified (place : Place) (body : Grammar.Quantified) :
    0 < (body.nodes place).length := by
  obtain ⟨e, q⟩ := body
  rw [Grammar.Quantified.nodes, List.length_append]
  exact Nat.add_pos_right _ (length_quantifier place q)

/-- A group draws a number beside those of its alternatives. -/
theorem sized_group {place : Place} {alternatives : List Grammar.Alternative}
    {rs : List Resolved.Alternative} {valued : Bool}
    (h : Sized 0 (placedNodes (fun _ => place.inGroup) 0 alternatives).length (alternativesDraws rs)
      (allBlockNames (alternativesBindings valued rs))) :
    Sized 0 ((Grammar.Expr.group alternatives).nodes place).length (1 + alternativesDraws rs)
      (allBlockNames (alternativesBindings valued rs)) := by
  rw [placedNodes_const] at h
  have hdraws := h.draws
  rw [Grammar.Expr.nodes, List.length_cons]
  exact h.mono (Nat.le_refl _) (Nat.le_succ _) (by omega) (List.Subset.refl _)

theorem sizing_closed (env : Env) : sizing.Closed env where
  noAlternatives {_ i _} place valued := .nothing i _
  moreAlternatives {ctx i out a rest r rs mid out'} ha hrest place valued := by
    obtain ⟨hfirst, hpos⟩ := ha (place i) valued
    rw [placedNodes_cons, List.length_append, alternativesDraws, alternativesBindings,
      Target.allBlockNames_append]
    exact hfirst.append (hrest place valued) (Nat.add_le_add_left hpos i)
  row {ctx out elements action es row mid result type out'} hes _ place valued := by
    have hes : Sized (ctx.alternative + 0) (elementsNodes place [] elements).length (elementsDraws es)
        (capturedVars es ++ allBlockNames (elementsBindings es)) := hes place []
    have hdraws := hes.draws
    rw [Grammar.Alternative.nodes, List.length_append]
    refine ⟨?_, Nat.succ_pos _⟩
    rw [Resolved.Alternative.draws, Resolved.Alternative.bindings, Target.allBlockNames_blockOf,
      Target.allBlockNames_append, Target.allBlockNames_uses, List.append_nil]
    exact hes.mono (Nat.le_refl _) (Nat.le_add_right _ _) (by omega) (List.Subset.refl _)
  noElements {_ _ _ _} place earlier := .nothing _ _
  moreElements {ctx position row out e rest r rs row' mid out'} he hrest place earlier := by
    obtain ⟨hfirst, hpos⟩ := he place earlier
    have hfirst : Sized (ctx.alternative + position) _ _ _ := hfirst
    have hall := hfirst.append (hrest place (earlier ++ [e])) (by omega)
    rw [elementsNodes, List.length_append, elementsDraws, capturedVars_cons,
      Resolved.elementsBindings_cons, Target.allBlockNames_append, Target.allBlockNames_append,
      Target.allBlockNames_uses, List.append_nil]
    refine hall.mono (Nat.le_refl _) (Nat.le_refl _) hall.draws fun name hname => ?_
    simp only [List.mem_append] at hname ⊢
    tauto
  predicate {ctx out negated p call out'} _ place earlier := by
    rw [Grammar.Element.nodes]
    refine ⟨.noNames ?_ ?_, Nat.one_pos⟩
    · show (Resolved.Matcher.predicate negated call).draws ≤ _
      rw [Resolved.Matcher.draws]
      exact Nat.zero_le _
    · show allBlockNames (Resolved.Matcher.predicate negated call).bindings = []
      rw [Resolved.Matcher.bindings, Target.allBlockNames_uses]
  lookahead {ctx out negated body m out'} h place earlier := by
    have hbody := h place.inLookahead
    have hdraws := hbody.draws
    rw [Grammar.Element.nodes]
    refine ⟨hbody.mono (Nat.zero_le _) (Nat.le_refl _) ?_ ?_, length_quantified _ body⟩
    · show (Resolved.Matcher.lookahead negated m).draws ≤ _
      rw [Resolved.Matcher.draws]
      omega
    · show allBlockNames (Resolved.Matcher.lookahead negated m).bindings ⊆ _
      rw [Resolved.Matcher.bindings]
      exact List.Subset.refl _
  reference {ctx out plucked label target call out'} _ _ place earlier := by
    have hpos := Nat.lt_of_lt_of_le (length_quantified place ⟨.ruleRef target, .one⟩)
      (length_item place earlier plucked label _)
    refine ⟨sized_keptIf (.noNames ?_ (by rw [Resolved.Matcher.bindings]; rfl)), hpos⟩
    rw [Resolved.Matcher.draws]
    omega
  group {ctx out plucked label alternatives rs out'} _ _ h _ place earlier := by
    have hlength := length_item place earlier plucked label ⟨.group alternatives, .one⟩
    have hpos := Nat.lt_of_lt_of_le (length_quantified place _) hlength
    have hgroup := sized_group (h (fun _ => place.inGroup)
      (groupChoice (keeps ctx plucked label) ctx rs).result.isSome)
    have hdraws := hgroup.draws
    have hbody : (Grammar.Quantified.nodes place ⟨.group alternatives, .one⟩).length =
        ((Grammar.Expr.group alternatives).nodes place).length + 1 := by
      rw [Grammar.Quantified.nodes, List.length_append, Grammar.Quantifier.nodes]
      · rfl
      · simp
    refine ⟨sized_keptIf (hgroup.mono (Nat.le_refl _) (by omega) ?_ ?_), hpos⟩
    · rw [Resolved.Matcher.draws, groupChoice, Resolved.Choice.draws]
      omega
    · rw [Resolved.Matcher.bindings, groupChoice, Resolved.Choice.bindings]
      exact List.Subset.refl _
  item {ctx out plucked label body m out'} _ _ h place earlier := by
    have hlength := length_item place earlier plucked label body
    have hpos := Nat.lt_of_lt_of_le (length_quantified place body) hlength
    have hdraws := (h place).draws
    exact ⟨sized_keptIf ((h place).mono (Nat.le_refl _) hlength (by omega)
      (List.Subset.refl _)), hpos⟩
  once {ctx out e m out'} h place := by
    have hdraws := (h place).draws
    have hquantifier := length_quantifier place .one
    rw [Grammar.Quantified.nodes, List.length_append]
    exact (h place).mono (Nat.le_refl _) (Nat.le_add_right _ _) (by omega) (List.Subset.refl _)
  repeated {ctx out e q min max m out'} h hbounded place := by
    have hdraws := (h place).draws
    rw [Grammar.Quantified.nodes, List.length_append, bounded_nodes hbounded, Resolved.Matcher.draws,
      Resolved.separatorDraws, Resolved.Matcher.bindings, Resolved.separatorBindings, List.nil_append]
    exact (h place).mono (Nat.le_refl _) (Nat.le_succ _) (by omega) (List.Subset.refl _)
  separated {ctx out e separator m s mid out' count} h _ hs place := by
    have hall := (hs place.inSeparator).append (h place) (Nat.zero_le _)
    have hdraws := hall.draws
    rw [Grammar.Quantified.nodes, List.length_append, Grammar.Quantifier.nodes, List.length_cons,
      Resolved.Matcher.draws, Resolved.separatorDraws, Resolved.Matcher.bindings,
      Resolved.separatorBindings, Target.allBlockNames_append]
    exact hall.mono (Nat.le_refl _) (by omega) (by omega) (List.Subset.refl _)
  literal place := .nothing 0 _
  charClass _ place := .nothing 0 _
  ruleRef _ place := by
    refine .noNames ?_ (by rw [Resolved.Matcher.bindings]; rfl)
    rw [Resolved.Matcher.draws, Grammar.Expr.nodes]
    exact Nat.le_succ 1
  anyChar place := .nothing 0 _
  endOfInput place := .nothing 0 _
  nested {ctx out alternatives rs out'} _ h place := by
    rw [Resolved.Matcher.draws, Resolved.Choice.draws, Resolved.Matcher.bindings,
      Resolved.Choice.bindings]
    exact sized_group (h (fun _ => place.inGroup) _)

/-- The rules of a parser have the sizes of those of the grammar. -/
theorem sized_of_resolve {g : Grammar} {types : ActionTypes} {p : Resolved.Parser}
    (h : resolve g types = .ok p) {r : Resolved.Rule} (hr : r ∈ p.rules) :
    ∃ rule ∈ g.rules, Sized 0 rule.nodes.length r.body.draws (allBlockNames r.body.bindings) := by
  obtain ⟨-, out, hrules, -⟩ := of_resolve h
  have hall : List.Forall₂ (fun (rule : Grammar.Rule) (r : Resolved.Rule) =>
      Sized 0 rule.nodes.length r.body.draws (allBlockNames r.body.bindings)) g.rules p.rules := by
    refine forall₂_of_rules (fun {rule _ _ _} hstep _ => ?_) hrules
    obtain ⟨-, rs, hrs, -, rfl⟩ := of_resolveRule hstep
    have hsized := (sizing_closed _).alternatives _ hrs rule.place true
    have hdraws := hsized.draws
    rw [Grammar.Rule.nodes, List.length_cons, Resolved.Choice.draws, Resolved.Choice.bindings]
    refine hsized.mono (Nat.le_refl _) (Nat.le_succ _) ?_ (List.Subset.refl _)
    show 1 + alternativesDraws rs ≤ 2 * ((placedNodes rule.place 0 rule.alternatives).length + 1)
    omega
  obtain ⟨rule, hrule, hsized⟩ := exists_left hall hr
  exact ⟨rule, hrule, hsized⟩

end Resolution

end PegCompiler
