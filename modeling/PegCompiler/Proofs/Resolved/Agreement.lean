import PegCompiler.Proofs.Resolved.Matchers
import PegCompiler.Proofs.Semantics.Resolved
/-
  Parsers that differ in one place. The place is the matcher of an element that is not
  captured, in some row of some rule, at any depth (`Parser.AgreeBut`). If the two matchers
  there match alike, whatever calls of rules come to, then calls of rules do too
  (`Parser.AgreeBut.call`): nothing around the place looks at the matcher itself.
-/

namespace PegCompiler

namespace Resolved

open Semantics (Host)

mutual

/-- A matcher becomes another one if `m` as an element of a row in it becomes `m'`. -/
inductive Matcher.AgreeBut (m m' : Matcher) : Matcher → Matcher → Prop
  | choice {c c' : Choice} (h : Choice.AgreeBut m m' c c') :
      Matcher.AgreeBut m m' (.choice c) (.choice c')
  | body {body body' : Matcher} (h : Matcher.AgreeBut m m' body body') (min : Bound)
      (max : Option Bound) (separator : Option Matcher) :
      Matcher.AgreeBut m m' (.repeat body min max separator) (.repeat body' min max separator)
  | separator {s s' : Matcher} (h : Matcher.AgreeBut m m' s s') (body : Matcher) (min : Bound)
      (max : Option Bound) :
      Matcher.AgreeBut m m' (.repeat body min max (some s)) (.repeat body min max (some s'))
  | lookahead {body body' : Matcher} (h : Matcher.AgreeBut m m' body body') (negated : Bool) :
      Matcher.AgreeBut m m' (.lookahead negated body) (.lookahead negated body')

/-- A choice does, if one of its rows does. -/
inductive Choice.AgreeBut (m m' : Matcher) : Choice → Choice → Prop
  | row {a a' : Alternative} (h : Alternative.AgreeBut m m' a a') (before after : List Alternative)
      (result : Option String) :
      Choice.AgreeBut m m' ⟨before ++ a :: after, result⟩ ⟨before ++ a' :: after, result⟩

/-- A row does, if one of its elements does. -/
inductive Alternative.AgreeBut (m m' : Matcher) : Alternative → Alternative → Prop
  | element {e e' : Element} (h : Element.AgreeBut m m' e e') (before after : List Element)
      (result : AltResult) (type : ValueType) :
      Alternative.AgreeBut m m' ⟨before ++ e :: after, result, type⟩
        ⟨before ++ e' :: after, result, type⟩

/-- An element does, if it is the place itself or has the place in it. -/
inductive Element.AgreeBut (m m' : Matcher) : Element → Element → Prop
  | here : Element.AgreeBut m m' ⟨m, none⟩ ⟨m', none⟩
  | within {n n' : Matcher} (h : Matcher.AgreeBut m m' n n') (capture : Option Capture) :
      Element.AgreeBut m m' ⟨n, capture⟩ ⟨n', capture⟩

end

/-- Two parsers are the same but for the matcher of one element that is not captured: `m` in one
of them and `m'` in the other. -/
inductive Parser.AgreeBut (m m' : Matcher) : Parser → Parser → Prop
  | rule (prologue epilogue : Option String) (before after : List Rule) (actions : List Action)
      (rule : Rule) {body : Choice} (h : Choice.AgreeBut m m' rule.body body) :
      Parser.AgreeBut m m' ⟨prologue, epilogue, before ++ rule :: after, actions⟩
        ⟨prologue, epilogue, before ++ { rule with body := body } :: after, actions⟩

/-! ## What the place has in it -/

section
variable {m m' : Matcher}

mutual

/-- Whatever is in the matcher at the place is in the one around it. -/
theorem Matcher.AgreeBut.left : ∀ {n n' : Matcher}, Matcher.AgreeBut m m' n n' →
    m.matchers ⊆ n.matchers
  | _, _, .choice h => by
    rw [Matcher.matchers]
    exact List.subset_cons_of_subset _ h.left
  | _, _, .body h _ _ _ => by
    rw [Matcher.matchers]
    exact List.subset_cons_of_subset _ (List.subset_append_of_subset_left _ h.left)
  | _, _, .separator h _ _ _ => by
    rw [Matcher.matchers, separatorMatchers]
    exact List.subset_cons_of_subset _ (List.subset_append_of_subset_right _ h.left)
  | _, _, .lookahead h _ => by
    rw [Matcher.matchers]
    exact List.subset_cons_of_subset _ h.left

theorem Choice.AgreeBut.left : ∀ {c c' : Choice}, Choice.AgreeBut m m' c c' →
    m.matchers ⊆ c.matchers
  | _, _, .row h _ _ _ => by
    rw [Choice.matchers, alternativesMatchers_append, alternativesMatchers]
    exact List.subset_append_of_subset_right _ (List.subset_append_of_subset_left _ h.left)

theorem Alternative.AgreeBut.left : ∀ {a a' : Alternative}, Alternative.AgreeBut m m' a a' →
    m.matchers ⊆ a.matchers
  | _, _, .element (e := ⟨n, capture⟩) h _ _ _ _ => by
    rw [Alternative.matchers, elementsMatchers_append, elementsMatchers]
    exact List.subset_append_of_subset_right _ (List.subset_append_of_subset_left _ h.left)

theorem Element.AgreeBut.left : ∀ {e e' : Element}, Element.AgreeBut m m' e e' →
    m.matchers ⊆ e.matcher.matchers
  | _, _, .here => List.Subset.refl _
  | _, _, .within h _ => h.left

end

mutual

/-- The other way round, the places are exchanged. -/
theorem Matcher.AgreeBut.symm : ∀ {n n' : Matcher}, Matcher.AgreeBut m m' n n' →
    Matcher.AgreeBut m' m n' n
  | _, _, .choice h => .choice h.symm
  | _, _, .body h min max separator => .body h.symm min max separator
  | _, _, .separator h body min max => .separator h.symm body min max
  | _, _, .lookahead h negated => .lookahead h.symm negated

theorem Choice.AgreeBut.symm : ∀ {c c' : Choice}, Choice.AgreeBut m m' c c' →
    Choice.AgreeBut m' m c' c
  | _, _, .row h before after result => .row h.symm before after result

theorem Alternative.AgreeBut.symm : ∀ {a a' : Alternative}, Alternative.AgreeBut m m' a a' →
    Alternative.AgreeBut m' m a' a
  | _, _, .element h before after result type => .element h.symm before after result type

theorem Element.AgreeBut.symm : ∀ {e e' : Element}, Element.AgreeBut m m' e e' →
    Element.AgreeBut m' m e' e
  | _, _, .here => .here
  | _, _, .within h capture => .within h.symm capture

end

variable {p p' : Parser}

theorem Parser.AgreeBut.symm (h : Parser.AgreeBut m m' p p') : Parser.AgreeBut m' m p' p := by
  obtain ⟨prologue, epilogue, before, after, actions, rule, h⟩ := h
  exact .rule prologue epilogue before after actions { rule with body := _ } h.symm

/-- The matchers at the place are matchers of a rule. -/
theorem Parser.AgreeBut.left (h : Parser.AgreeBut m m' p p') :
    ∃ rule ∈ p.rules, m.matchers ⊆ rule.body.matchers := by
  obtain ⟨_, _, before, after, _, rule, h⟩ := h
  exact ⟨rule, List.mem_append_right _ List.mem_cons_self, h.left⟩

end

/-! ## What is around the place -/

section
variable {V : Type} {M : Machine V} {m m' : Matcher}

/-- Rows are tried alike if one of them is exchanged for another that matches alike. -/
theorem runAlternatives_congr {a a' : Alternative} (h : a.run M = a'.run M)
    (after : List Alternative) : ∀ before : List Alternative,
      runAlternatives M (before ++ a :: after) = runAlternatives M (before ++ a' :: after)
  | [] => by
    funext pos
    rw [List.nil_append, List.nil_append, runAlternatives, runAlternatives, h]
  | b :: before => by
    funext pos
    rw [List.cons_append, List.cons_append, runAlternatives, runAlternatives,
      runAlternatives_congr h after before]

/-- Elements are matched alike if one of them is exchanged for another that matches alike. -/
theorem runElements_congr {e e' : Element} (h : ∀ env, e.run M env = e'.run M env)
    (after : List Element) : ∀ (before : List Element) (env : Captured V),
      runElements M env (before ++ e :: after) = runElements M env (before ++ e' :: after)
  | [], env => by
    funext pos
    rw [List.nil_append, List.nil_append, runElements_cons, runElements_cons, h]
  | b :: before, env => by
    have ih := runElements_congr h after before
    funext pos
    simp only [List.cons_append, runElements_cons, ih]

mutual

/-- What is around the place matches alike if the matchers at the place do. -/
theorem run_agreeBut (h : ∀ env, m.run M env = m'.run M env) :
    ∀ {n n' : Matcher}, Matcher.AgreeBut m m' n n' → ∀ env, n.run M env = n'.run M env
  | _, _, .choice hc, env => by
    rw [Matcher.run_choice, Matcher.run_choice, run_choice_agreeBut h hc]
  | _, _, .body hbody min max separator, env => by
    rw [Matcher.run_repeat, Matcher.run_repeat, run_agreeBut h hbody env]
  | .repeat _ _ _ (some s), .repeat _ _ _ (some s'), .separator hs body min max, env => by
    have hrun : runSeparator M env (some s) = runSeparator M env (some s') := by
      funext pos
      rw [runSeparator, runSeparator, run_agreeBut h hs env]
    rw [Matcher.run_repeat, Matcher.run_repeat, hrun]
  | _, _, .lookahead hbody negated, env => by
    rw [Matcher.run_lookahead, Matcher.run_lookahead, run_agreeBut h hbody env]

theorem run_choice_agreeBut (h : ∀ env, m.run M env = m'.run M env) :
    ∀ {c c' : Choice}, Choice.AgreeBut m m' c c' → c.run M = c'.run M
  | _, _, .row ha before after result => by
    rw [Choice.run_eq, Choice.run_eq]
    exact runAlternatives_congr (run_alternative_agreeBut h ha) after before

theorem run_alternative_agreeBut (h : ∀ env, m.run M env = m'.run M env) :
    ∀ {a a' : Alternative}, Alternative.AgreeBut m m' a a' → a.run M = a'.run M
  | _, _, .element he before after result type => by
    funext pos
    rw [Alternative.run, Alternative.run,
      runElements_congr (run_element_agreeBut h he) after before]

theorem run_element_agreeBut (h : ∀ env, m.run M env = m'.run M env) :
    ∀ {e e' : Element}, Element.AgreeBut m m' e e' → ∀ env, e.run M env = e'.run M env
  | _, _, .here, env => by
    funext pos
    rw [Element.run, Element.run, h]
  | _, _, .within hn capture, env => by
    funext pos
    rw [Element.run, Element.run, run_agreeBut h hn]

end

end

/-! ## Calls of rules -/

section
variable {V : Type} {m m' : Matcher} {p p' : Parser} (H : Host V) (input : List Char)

/-- Calls of rules match alike if the matchers at the place do, whatever the calls in them come
to. -/
theorem Parser.AgreeBut.call (h : Parser.AgreeBut m m' p p')
    (hm : ∀ (M : Machine V) (env : Captured V), m.run M env = m'.run M env) :
    ∀ depth, p.call H input depth = p'.call H input depth := by
  obtain ⟨prologue, epilogue, before, after, actions, rule, hbody⟩ := h
  intro depth
  induction depth with
  | zero => rfl
  | succ depth ih =>
    funext id pos
    rw [Parser.call, Parser.call, ← ih]
    unfold Parser.rule
    dsimp only
    rw [List.find?_append, List.find?_append]
    cases before.find? (fun r => r.id == id) with
    | some r => rfl
    | none =>
      rw [Option.none_or, Option.none_or, List.find?_cons, List.find?_cons]
      dsimp only
      cases rule.id == id with
      | false => rfl
      | true =>
        dsimp only [Option.bind_eq_bind, Option.bind_some]
        rw [run_choice_agreeBut (hm _) hbody]
        rfl

/-- So the machines of the two parsers are the same. -/
theorem Parser.AgreeBut.machine (h : Parser.AgreeBut m m' p p')
    (hm : ∀ (M : Machine V) (env : Captured V), m.run M env = m'.run M env) (depth : Nat) :
    p.machine H input depth = p'.machine H input depth := by
  have hactions : p.actions = p'.actions := by
    obtain ⟨_, _, _, _, _, _, _⟩ := h
    rfl
  rw [Parser.machine, Parser.machine, h.call H input hm, hactions]

end

end Resolved

end PegCompiler
