import PegCompiler.Proofs.Resolution.Typing
import PegCompiler.Proofs.Resolved.Matchers
/-
  Lookaheads and separators keep nothing. Whoever resolves below one of them goes on in a
  context that keeps no values, and every context derived from it is of that kind too: so
  rows there bind nothing, not even where the grammar has labels and plucks, and a predicate
  finds nothing to take an argument from. Below a separator there is no predicate at all.
-/

namespace PegCompiler

namespace Resolved

mutual

/-- Nothing in a matcher keeps a value: no element is captured, no choice has a variable, the
value of a row is what it consumed, and predicates have no arguments. -/
def Matcher.Silent : Matcher → Prop
  | .choice c => c.Silent
  | .repeat body _ _ separator => body.Silent ∧ separatorSilent separator
  | .lookahead _ body => body.Silent
  | .predicate _ call => call.args = []
  | .literal _ | .class _ | .anyChar | .endOfInput | .call _ => True

/-- Nothing in a separator does, if there is one. -/
def separatorSilent : Option Matcher → Prop
  | none => True
  | some m => m.Silent

/-- Nothing in a choice does. -/
def Choice.Silent : Choice → Prop
  | ⟨alternatives, result⟩ => result = none ∧ alternativesSilent alternatives

/-- Nothing in alternatives does. -/
def alternativesSilent : List Alternative → Prop
  | [] => True
  | a :: rest => a.Silent ∧ alternativesSilent rest

/-- Nothing in a row does. -/
def Alternative.Silent : Alternative → Prop
  | ⟨elements, result, _⟩ => result = .consumed ∧ elementsSilent elements

/-- Nothing in elements does. -/
def elementsSilent : List Element → Prop
  | [] => True
  | ⟨matcher, capture⟩ :: rest => capture = none ∧ matcher.Silent ∧ elementsSilent rest

end

/-- Whether a matcher is a condition in code. -/
def Matcher.isPredicate : Matcher → Bool
  | .predicate _ _ => true
  | _ => false

/-- The body of a matcher keeps nothing if the matcher is a lookahead; its separator keeps
nothing either, and has no predicates. -/
structure Matcher.Guarded (m : Matcher) : Prop where
  lookahead : ∀ negated body, m = .lookahead negated body → body.Silent
  separator : ∀ body min max s, m = .repeat body min max (some s) →
    s.Silent ∧ ∀ inner ∈ s.matchers, inner.isPredicate = false

end Resolved

namespace Resolution

open Resolved (AltResult Matcher ValueType alternativesMatchers alternativesSilent elementsMatchers
  elementsSilent)

/-- Matchers that a context leads to, and whether they are silent: they are where the context
keeps no values, and in a separator none of them is a predicate. -/
structure Keeping (ctx : Context) (ms : List Matcher) (silent : Prop) : Prop where
  guarded : ∀ m ∈ ms, m.Guarded
  silent : ctx.capturing = false → silent
  plain : ctx.separator = true → ∀ m ∈ ms, m.isPredicate = false

namespace Keeping

variable {ctx : Context} {ms ns : List Matcher} {S T : Prop}

theorem nil (h : S) : Keeping ctx [] S :=
  ⟨fun _ hm => (nomatch hm), fun _ => h, fun _ _ hm => (nomatch hm)⟩

theorem append (hm : Keeping ctx ms S) (hn : Keeping ctx ns T) :
    Keeping ctx (ms ++ ns) (S ∧ T) where
  guarded m h := (List.mem_append.mp h).elim (hm.guarded m) (hn.guarded m)
  silent hc := ⟨hm.silent hc, hn.silent hc⟩
  plain hs m h := (List.mem_append.mp h).elim (hm.plain hs m) (hn.plain hs m)

theorem imp (h : Keeping ctx ms S) (himp : S → T) : Keeping ctx ms T :=
  ⟨h.guarded, fun hc => himp (h.silent hc), h.plain⟩

/-- One more matcher around. -/
theorem cons {m : Matcher} (hms : Keeping ctx ms S) (hm : m.Guarded) (hp : m.isPredicate = false) :
    Keeping ctx (m :: ms) S where
  guarded := List.forall_mem_cons.mpr ⟨hm, hms.guarded⟩
  silent := hms.silent
  plain hs := List.forall_mem_cons.mpr ⟨hp, hms.plain hs⟩

/-- A matcher without parts. -/
theorem leaf {m : Matcher} (hl : ∀ negated body, m ≠ .lookahead negated body)
    (hr : ∀ body min max s, m ≠ .repeat body min max (some s)) (hp : m.isPredicate = false) :
    Keeping ctx [m] True :=
  (nil trivial).cons ⟨fun _ _ he => absurd he (hl _ _), fun _ _ _ _ he => absurd he (hr _ _ _ _)⟩
    hp

end Keeping

/-- In a context that keeps no values rows bind nothing, and below a group there are no
actions; so whatever is made there is silent. -/
def keeping : Relations where
  alternatives ctx _ _ _ rs _ :=
    Keeping ctx (alternativesMatchers rs) (ctx.isNested = true → alternativesSilent rs)
  alternative ctx _ _ r _ := Keeping ctx r.matchers (ctx.isNested = true → r.Silent)
  elements ctx _ row _ _ rs row' _ := Keeping ctx (elementsMatchers rs)
    (row = {} → elementsSilent rs ∧ row' = {})
  element ctx _ _ r _ := Keeping ctx r.element.matcher.matchers
    (ctx.labels = [] → ctx.ruleValues = [] →
      r.element.capture = none ∧ r.element.matcher.Silent)
  quantified ctx _ _ m _ := Keeping ctx m.matchers m.Silent
  expr ctx _ _ m _ := Keeping ctx m.matchers m.Silent

section
variable {env : Env} {ctx : Context} {out out' : Emitted}

/-- A row that binds nothing has what it consumed as its value, where it has no action. -/
theorem consumed_of_rowValue {action : Option String} {result : AltResult} {type : ValueType}
    (hnested : ctx.isNested = true)
    (h : Yields (rowValue env ctx {} action) out (result, type) out') : result = .consumed := by
  cases action with
  | some code =>
    obtain ⟨hpath, -⟩ := of_rowValue_some h
    simp [Context.isNested, hpath] at hnested
  | none =>
    obtain ⟨-, hjoined⟩ := of_rowValue_none h
    have hnone : Row.valueCaptures {} = [] := rfl
    rw [hnone] at hjoined
    cases hjoined with
    | nothing => rfl
    | several two _ => simp at two

/-- Without bindings there is no source for a parameter. -/
theorem args_of_resolvePredicate {p : Grammar.Predicate} {call : Resolved.ActionCall}
    (hlabels : ctx.labels = []) (hvalues : ctx.ruleValues = [])
    (h : Yields (resolvePredicate ctx p) out call out') : call.args = [] := by
  obtain ⟨sourced, -, hsourced, rfl, -⟩ := of_resolvePredicate h
  cases sourced with
  | nil => rfl
  | cons s rest =>
    have hs := hsourced s (List.mem_cons_self ..)
    simp [sourceBinding, Context.lookupLabel, Context.lookupRuleValue, hlabels, hvalues] at hs

/-- No predicate stands in a separator. -/
theorem not_separator_of_resolvePredicate {p : Grammar.Predicate} {call : Resolved.ActionCall}
    (h : Yields (resolvePredicate ctx p) out call out') : ctx.separator = false := by
  unfold resolvePredicate refuse at h
  cases hs : ctx.separator with
  | false => rfl
  | true => simp [hs] at h

end

theorem keeping_group {ctx : Context} {alternatives : List Resolved.Alternative}
    {result : Option String} (hresult : ctx.capturing = false → result = none)
    (h : Keeping ctx.enterGroup (alternativesMatchers alternatives)
      (ctx.enterGroup.isNested = true → alternativesSilent alternatives)) :
    Keeping ctx (Matcher.choice ⟨alternatives, result⟩).matchers
      (Matcher.choice ⟨alternatives, result⟩).Silent := by
  have hnested : ctx.enterGroup.isNested = true := by
    simp [Context.isNested, Context.enterGroup, Context.groupPath]
  rw [Matcher.matchers, Resolved.Choice.matchers, Matcher.Silent, Resolved.Choice.Silent]
  have hrows : Keeping ctx (alternativesMatchers alternatives)
      (result = none ∧ alternativesSilent alternatives) :=
    ⟨h.guarded, fun hc => ⟨hresult hc, h.silent hc hnested⟩, h.plain⟩
  refine hrows.cons ⟨?_, ?_⟩ rfl
  · rintro _ _ ⟨⟩
  · rintro _ _ _ _ ⟨⟩

/-- An item that is kept only where values are. -/
theorem keeping_item {kept : Bool} {ctx : Context} {plucked : Bool} {label rule : Option String}
    {m : Matcher} {type : ValueType} {source : Resolved.CaptureSource}
    (hkept : ctx.capturing = false → kept = false) (h : Keeping ctx m.matchers m.Silent) :
    Keeping ctx (keptIf kept ctx plucked label rule m type source).element.matcher.matchers
      (ctx.labels = [] → ctx.ruleValues = [] →
        (keptIf kept ctx plucked label rule m type source).element.capture = none ∧
        (keptIf kept ctx plucked label rule m type source).element.matcher.Silent) := by
  rw [matcher_keptIf]
  refine ⟨h.guarded, fun hc _ _ => ⟨?_, h.silent hc⟩, h.plain⟩
  rw [hkept hc]
  rfl

theorem keeping_closed (env : Env) : keeping.Closed env where
  noAlternatives := .nil fun _ => trivial
  moreAlternatives {ctx i out a rest r rs mid out'} ha hrest := by
    have ha : Keeping ctx r.matchers (ctx.isNested = true → r.Silent) :=
      ⟨ha.guarded, ha.silent, ha.plain⟩
    show Keeping ctx (alternativesMatchers (r :: rs)) _
    rw [alternativesMatchers, alternativesSilent]
    exact (ha.append hrest).imp fun ⟨hr, hrs⟩ hnested => ⟨hr hnested, hrs hnested⟩
  row {ctx out elements action es row mid result type out'} hes hvalue := by
    show Keeping ctx (Resolved.Alternative.mk es result type).matchers _
    rw [Resolved.Alternative.matchers, Resolved.Alternative.Silent]
    refine ⟨hes.guarded, fun hc hnested => ?_, hes.plain⟩
    obtain ⟨hsilent, rfl⟩ := hes.silent hc rfl
    exact ⟨consumed_of_rowValue hnested hvalue, hsilent⟩
  noElements := .nil fun hrow => ⟨trivial, hrow⟩
  moreElements {ctx position row out e rest r rs row' mid out'} he hrest := by
    obtain ⟨⟨matcher, capture⟩, label, rule, plucked⟩ := r
    have he : Keeping ctx matcher.matchers (row.labels = [] → row.ruleValues = [] →
        capture = none ∧ matcher.Silent) := ⟨he.guarded, he.silent, he.plain⟩
    show Keeping ctx (elementsMatchers (⟨matcher, capture⟩ :: rs)) _
    rw [elementsMatchers, elementsSilent]
    refine (he.append hrest).imp ?_
    rintro ⟨hm, hrs⟩ rfl
    obtain ⟨rfl, hmatcher⟩ := hm rfl rfl
    obtain ⟨hsilent, hrow⟩ := hrs rfl
    exact ⟨⟨rfl, hmatcher, hsilent⟩, hrow⟩
  predicate {ctx out negated p call out'} h := by
    show Keeping ctx (Matcher.predicate negated call).matchers _
    rw [Matcher.matchers]
    constructor
    · refine List.forall_mem_singleton.mpr ⟨?_, ?_⟩
      · rintro _ _ ⟨⟩
      · rintro _ _ _ _ ⟨⟩
    · intro _ hlabels hvalues
      exact ⟨rfl, args_of_resolvePredicate hlabels hvalues h⟩
    · intro hs
      rw [not_separator_of_resolvePredicate h] at hs
      cases hs
  lookahead {ctx out negated body m out'} h := by
    show Keeping ctx (Matcher.lookahead negated m).matchers _
    rw [Matcher.matchers]
    -- the body is in a context that keeps no values, whatever the one around it does
    have hsilent : m.Silent := h.silent rfl
    have hbody : Keeping ctx m.matchers (ctx.labels = [] → ctx.ruleValues = [] →
        (none : Option Resolved.Capture) = none ∧ (Matcher.lookahead negated m).Silent) :=
      ⟨h.guarded, fun _ _ _ => ⟨rfl, hsilent⟩, h.plain⟩
    refine hbody.cons ⟨?_, ?_⟩ rfl
    · rintro _ _ ⟨⟩
      exact hsilent
    · rintro _ _ _ _ ⟨⟩
  reference {ctx out plucked label target call out'} _ _ :=
    keeping_item (by simp +contextual [keepsReference])
      (.leaf (fun _ _ he => nomatch he) (fun _ _ _ _ he => nomatch he) rfl)
  group {ctx out plucked label alternatives rs out'} _ _ h _ :=
    keeping_item (by simp +contextual [keeps])
      (keeping_group (by simp +contextual [keeps]) h)
  item _ _ h := keeping_item (by simp +contextual [keeps]) h
  once h := h
  repeated {ctx out expr quantifier min max m out'} h _ := by
    show Keeping ctx (Matcher.repeat m min max none).matchers _
    rw [Matcher.matchers, Resolved.separatorMatchers, List.append_nil, Matcher.Silent]
    refine (Keeping.imp h fun hm => ⟨hm, trivial⟩).cons ⟨?_, ?_⟩ rfl
    · rintro _ _ ⟨⟩
    · rintro _ _ _ _ ⟨⟩
  separated {ctx out expr separator m s mid out' count} h _ hs := by
    show Keeping ctx (Matcher.repeat m _ _ (some s)).matchers _
    rw [Matcher.matchers, Resolved.separatorMatchers, Matcher.Silent, Resolved.separatorSilent]
    have hsilent : s.Silent := hs.silent rfl
    have hplain : ∀ inner ∈ s.matchers, inner.isPredicate = false := hs.plain rfl
    have hparts : Keeping ctx (m.matchers ++ s.matchers) (m.Silent ∧ s.Silent) :=
      Keeping.append h ⟨hs.guarded, fun _ => hsilent, fun _ => hplain⟩
    refine hparts.cons ⟨?_, ?_⟩ rfl
    · rintro _ _ ⟨⟩
    · rintro _ _ _ _ ⟨⟩
      exact ⟨hsilent, hplain⟩
  literal := .leaf (fun _ _ he => nomatch he) (fun _ _ _ _ he => nomatch he) rfl
  charClass _ := .leaf (fun _ _ he => nomatch he) (fun _ _ _ _ he => nomatch he) rfl
  ruleRef _ := .leaf (fun _ _ he => nomatch he) (fun _ _ _ _ he => nomatch he) rfl
  anyChar := .leaf (fun _ _ he => nomatch he) (fun _ _ _ _ he => nomatch he) rfl
  endOfInput := .leaf (fun _ _ he => nomatch he) (fun _ _ _ _ he => nomatch he) rfl
  nested _ h := keeping_group (fun _ => rfl) h

/-- Bodies of lookaheads and separators of a rule keep nothing. -/
theorem guarded_of_resolve {g : Grammar} {types : ActionTypes} {p : Resolved.Parser}
    (h : resolve g types = .ok p) {rule : Resolved.Rule} (hrule : rule ∈ p.rules) :
    ∀ m ∈ rule.body.matchers, m.Guarded := by
  obtain ⟨-, out, hrules, -⟩ := of_resolve h
  have hall : List.Forall₂ (fun _ r => ∀ m ∈ r.body.matchers, Matcher.Guarded m) g.rules p.rules := by
    refine forall₂_of_rules (fun hstep _ => ?_) hrules
    obtain ⟨-, rs, hrs, -, rfl⟩ := of_resolveRule hstep
    intro m hm
    rw [Resolved.Choice.matchers] at hm
    exact Keeping.guarded ((keeping_closed _).alternatives _ hrs) m hm
  obtain ⟨_, _, hguarded⟩ := exists_left hall hrule
  exact hguarded

end Resolution

end PegCompiler
