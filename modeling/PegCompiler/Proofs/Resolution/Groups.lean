import PegCompiler.Proofs.Resolution.Typing
/-
  Captured groups have variables of their own. The variable of a group names the path
  to it, and the paths of two groups of a rule part somewhere: at an alternative, at an
  element, or where one group stands in the other. A repeated body and its separator
  stand at one place, but nothing is captured in a separator.
-/

namespace PegCompiler

namespace Resolved

mutual

/-- The variables of the captured groups in a matcher. -/
def Matcher.groupVars : Matcher → List String
  | .choice choice => choice.groupVars
  | .repeat body _ _ separator => body.groupVars ++ separatorGroupVars separator
  | .lookahead _ body => body.groupVars
  | _ => []

/-- Those in a separator, if there is one. -/
def separatorGroupVars : Option Matcher → List String
  | none => []
  | some m => m.groupVars

/-- The variable of a choice, and those of the groups in it. -/
def Choice.groupVars : Choice → List String
  | ⟨alternatives, result⟩ => result.toList ++ alternativesGroupVars alternatives

/-- The variables of the groups in alternatives. -/
def alternativesGroupVars : List Alternative → List String
  | [] => []
  | a :: rest => a.groupVars ++ alternativesGroupVars rest

/-- The variables of the groups in a row. -/
def Alternative.groupVars : Alternative → List String
  | ⟨elements, _, _⟩ => elementsGroupVars elements

/-- The variables of the groups in elements. -/
def elementsGroupVars : List Element → List String
  | [] => []
  | ⟨matcher, _⟩ :: rest => matcher.groupVars ++ elementsGroupVars rest

end

theorem elementsGroupVars_cons (e : Element) (rest : List Element) :
    elementsGroupVars (e :: rest) = e.matcher.groupVars ++ elementsGroupVars rest := by
  obtain ⟨matcher, capture⟩ := e
  rw [elementsGroupVars]

end Resolved

namespace Resolution

open Resolved (groupVar)

/-- Variables are those of different paths of a kind; where no values are kept there are
none. -/
def Grouped (ctx : Context) (kind : List (Nat × Nat) → Prop) (vars : List String) : Prop :=
  ∃ paths, vars = paths.map groupVar ∧ paths.Nodup ∧ (∀ path ∈ paths, kind path) ∧
    (ctx.capturing = false → paths = [])

/-- A path goes through a place: a group is there, or leads there. -/
def Through (ctx : Context) (alternative position : Nat) (path : List (Nat × Nat)) : Prop :=
  ctx.path ++ [(alternative, position)] <+: path

/-- A path goes through one place of its length only. -/
theorem Through.unique {ctx : Context} {a b p q : Nat} {path : List (Nat × Nat)}
    (h : Through ctx a p path) (h' : Through ctx b q path) : a = b ∧ p = q := by
  have hstarts := List.prefix_of_prefix_length_le h h' (by simp)
  have heq := List.append_cancel_left (hstarts.eq_of_length (by simp))
  simpa using heq

namespace Grouped

variable {ctx : Context} {kind kind' more : List (Nat × Nat) → Prop} {vars vars' : List String}

theorem nothing : Grouped ctx kind [] :=
  ⟨[], rfl, List.nodup_nil, by simp, fun _ => rfl⟩

theorem mono (h : Grouped ctx kind vars) (hkind : ∀ path, kind path → more path) :
    Grouped ctx more vars := by
  obtain ⟨paths, hvars, hnodup, hkinds, hnone⟩ := h
  exact ⟨paths, hvars, hnodup, fun path hpath => hkind path (hkinds path hpath), hnone⟩

/-- Variables of paths of two kinds, no path being of both. -/
theorem append (h : Grouped ctx kind vars) (h' : Grouped ctx kind' vars')
    (hdisjoint : ∀ path, kind path → ¬ kind' path) (hkind : ∀ path, kind path → more path)
    (hkind' : ∀ path, kind' path → more path) : Grouped ctx more (vars ++ vars') := by
  obtain ⟨paths, rfl, hnodup, hkinds, hnone⟩ := h
  obtain ⟨paths', rfl, hnodup', hkinds', hnone'⟩ := h'
  refine ⟨paths ++ paths', List.map_append.symm, ?_, ?_, fun hc => by rw [hnone hc, hnone' hc]; rfl⟩
  · refine List.Nodup.append hnodup hnodup' fun path hpath hpath' => ?_
    exact hdisjoint path (hkinds path hpath) (hkinds' path hpath')
  · intro path hpath
    rcases List.mem_append.mp hpath with hpath | hpath
    · exact hkind path (hkinds path hpath)
    · exact hkind' path (hkinds' path hpath)

/-- Nothing is captured in a context without values. -/
theorem nil_of_not_capturing (h : Grouped ctx kind vars) (hc : ctx.capturing = false) :
    vars = [] := by
  obtain ⟨paths, rfl, -, -, hnone⟩ := h
  rw [hnone hc]
  rfl

theorem nodup (h : Grouped ctx kind vars) : vars.Nodup := by
  obtain ⟨paths, rfl, hnodup, -, -⟩ := h
  exact hnodup.map fun _ _ => Naming.groupVar_inj

end Grouped

/-- Paths of groups go through the places of what the groups stand in. -/
def grouping : Relations where
  alternatives ctx index _ _ rs _ :=
    Grouped ctx (fun path => ∃ a ≥ index, ∃ p, Through ctx a p path)
      (Resolved.alternativesGroupVars rs)
  alternative ctx _ _ r _ :=
    Grouped ctx (fun path => ∃ p, Through ctx ctx.alternative p path) r.groupVars
  elements ctx position _ _ _ rs _ _ :=
    Grouped ctx (fun path => ∃ p ≥ position, Through ctx ctx.alternative p path)
      (Resolved.elementsGroupVars rs)
  element ctx _ _ r _ :=
    Grouped ctx (Through ctx ctx.alternative ctx.position) r.element.matcher.groupVars
  quantified ctx _ _ m _ := Grouped ctx (Through ctx ctx.alternative ctx.position) m.groupVars
  expr ctx _ _ m _ := Grouped ctx (Through ctx ctx.alternative ctx.position) m.groupVars

/-- The groups in a group stand below it. -/
theorem below_group {ctx : Context} {vars : List String}
    (h : Grouped ctx.enterGroup (fun path => ∃ a ≥ 0, ∃ p, Through ctx.enterGroup a p path) vars) :
    Grouped ctx (fun path => Through ctx ctx.alternative ctx.position path ∧
      ctx.groupPath ≠ path) vars := by
  obtain ⟨paths, hvars, hnodup, hkinds, hnone⟩ := h
  refine ⟨paths, hvars, hnodup, fun path hpath => ?_, hnone⟩
  obtain ⟨a, -, p, hthrough⟩ := hkinds path hpath
  refine ⟨(List.prefix_append _ _).trans hthrough, ?_⟩
  rintro rfl
  have hlength := hthrough.length_le
  simp only [Context.enterGroup, List.length_append, List.length_singleton] at hlength
  omega

theorem grouping_closed (env : Env) : grouping.Closed env where
  noAlternatives := .nothing
  moreAlternatives {ctx index out a rest r rs mid out'} ha hrest := by
    have ha : Grouped ctx (fun path => ∃ p, Through ctx index p path) r.groupVars := ha
    refine ha.append hrest ?_ ?_ ?_
    -- a path goes through one alternative only
    · rintro path ⟨p, h⟩ ⟨b, hb, q, h'⟩
      have heq := (h.unique h').1
      omega
    · rintro path ⟨p, h⟩
      exact ⟨index, Nat.le_refl _, p, h⟩
    · rintro path ⟨b, hb, q, h⟩
      exact ⟨b, by omega, q, h⟩
  row {ctx out elements action es row mid result type out'} hes _ := by
    show Grouped ctx _ (Resolved.Alternative.mk es result type).groupVars
    rw [Resolved.Alternative.groupVars]
    exact Grouped.mono hes fun path ⟨p, _, h⟩ => ⟨p, h⟩
  noElements := .nothing
  moreElements {ctx position row out e rest r rs row' mid out'} he hrest := by
    have he : Grouped ctx (Through ctx ctx.alternative position) r.element.matcher.groupVars := he
    show Grouped ctx _ _
    rw [Resolved.elementsGroupVars_cons]
    refine he.append hrest ?_ ?_ ?_
    -- and through one place of its row
    · rintro path h ⟨p, hp, h'⟩
      have heq := (h.unique h').2
      omega
    · intro path h
      exact ⟨position, Nat.le_refl _, h⟩
    · rintro path ⟨p, hp, h⟩
      exact ⟨p, by omega, h⟩
  predicate _ := .nothing
  lookahead {ctx out negated body m out'} h := by
    have hnone : m.groupVars = [] := Grouped.nil_of_not_capturing h rfl
    show Grouped ctx _ (Resolved.Matcher.lookahead negated m).groupVars
    rw [Resolved.Matcher.groupVars, hnone]
    exact .nothing
  reference {ctx out plucked label target call out'} _ _ := by
    show Grouped ctx _ _
    rw [matcher_keptIf]
    exact .nothing
  group {ctx out plucked label alternatives rs out'} _ _ h _ := by
    show Grouped ctx _ _
    rw [matcher_keptIf, groupChoice, Resolved.Matcher.groupVars, Resolved.Choice.groupVars]
    have hbelow := below_group h
    cases hkeep : keeps ctx plucked label with
    | false => exact hbelow.mono fun path hpath => hpath.1
    | true =>
      have hc : ctx.capturing = true := (Bool.and_eq_true_iff.mp hkeep).1
      have hgroup : Grouped ctx (fun path => path = ctx.groupPath) [groupVar ctx.groupPath] :=
        ⟨[ctx.groupPath], rfl, List.nodup_singleton _, by simp, fun h => nomatch hc.symm.trans h⟩
      refine hgroup.append hbelow ?_ ?_ ?_
      -- the path of the group is shorter than those of the groups in it
      · rintro path rfl ⟨-, hne⟩
        exact hne rfl
      · rintro path rfl
        exact List.prefix_refl _
      · exact fun path hpath => hpath.1
  item {ctx out plucked label body m out'} _ _ h := by
    show Grouped ctx _ _
    rw [matcher_keptIf]
    exact h
  once h := h
  repeated {ctx out expr q min max m out'} h _ := by
    show Grouped ctx _ _
    rw [Resolved.Matcher.groupVars, Resolved.separatorGroupVars, List.append_nil]
    exact h
  separated {ctx out expr separator m s mid out' count} h _ hs := by
    have hnone : s.groupVars = [] := Grouped.nil_of_not_capturing hs rfl
    show Grouped ctx _ _
    rw [Resolved.Matcher.groupVars, Resolved.separatorGroupVars, hnone, List.append_nil]
    exact h
  literal := .nothing
  charClass _ := .nothing
  ruleRef _ := .nothing
  anyChar := .nothing
  endOfInput := .nothing
  nested {ctx out alternatives rs out'} _ h := by
    show Grouped ctx _ _
    rw [Resolved.Matcher.groupVars, Resolved.Choice.groupVars]
    exact (below_group h).mono fun path hpath => hpath.1

/-- The captured groups of a rule have variables of their own. -/
theorem nodup_groupVars {g : Grammar} {types : ActionTypes} {p : Resolved.Parser}
    (h : resolve g types = .ok p) {r : Resolved.Rule} (hr : r ∈ p.rules) :
    (Resolved.alternativesGroupVars r.body.alternatives).Nodup := by
  obtain ⟨-, out, hrules, -⟩ := of_resolve h
  have hall : List.Forall₂ (fun _ r => (Resolved.alternativesGroupVars r.body.alternatives).Nodup)
      g.rules p.rules := by
    refine forall₂_of_rules (fun hstep _ => ?_) hrules
    obtain ⟨-, rs, hrs, -, rfl⟩ := of_resolveRule hstep
    exact Grouped.nodup ((grouping_closed _).alternatives _ hrs)
  obtain ⟨_, _, hnodup⟩ := exists_left hall hr
  exact hnodup

end Resolution

end PegCompiler
