import PegCompiler.Proofs.Resolution.Typing
/-
  What a predicate changes in its row. A row is resolved once as it is and once with one
  more predicate behind its elements. The predicate adds to the sources of the row before
  the first element is looked at, so references that nobody captured may be captured now;
  but such a capture has no label and is not plucked, and no other predicate asks for it.
  The two runs therefore agree on labels and plucks and on the values that the other
  predicates take (`SameBindings`), and so on everything that the value of the row is made of.
-/

namespace PegCompiler.Resolution

open Grammar (Predicate PredicateParam Quantified)
open Resolved (AltResult Matcher ValueType captureVar predicateFunction)

/-! ## Places -/

/-- The same place with other things bound before it. -/
def Context.binding (ctx : Context) (labels ruleValues : List Binding) (sources : List String) :
    Context :=
  { ctx with labels, ruleValues, predicateSources := sources }

/-- The latest binding of a rule. -/
def latest (bindings : List Binding) (rule : String) : Option Binding :=
  bindings.reverse.find? (fun b => b.label == rule)

theorem latest_concat (bindings : List Binding) (b : Binding) (rule : String) :
    latest (bindings ++ [b]) rule = if b.label == rule then some b else latest bindings rule := by
  unfold latest
  rw [List.reverse_append, List.reverse_singleton, List.singleton_append, List.find?_cons]
  cases b.label == rule <;> rfl

section
variable {env : Env} {ctx : Context} {labels ruleValues ruleValues' : List Binding}
  {sources sources' : List String}

/-- What is bound in a row counts only right in the row. -/
theorem resolveExpr_binding (e : Grammar.Expr) :
    resolveExpr env (ctx.binding labels ruleValues sources) e = resolveExpr env ctx e := by
  cases e <;> rw [resolveExpr, resolveExpr] <;> rfl

theorem resolveQuantified_binding (body : Quantified) :
    resolveQuantified env (ctx.binding labels ruleValues sources) body =
      resolveQuantified env ctx body := by
  obtain ⟨e, quantifier⟩ := body
  rw [resolveQuantified, resolveQuantified, resolveExpr_binding]
  refine bind_congr fun m => ?_
  cases quantifier with
  | separated count separator =>
    rw [resolveQuantifier, resolveQuantifier]
    have hs : resolveExpr env (ctx.binding labels ruleValues sources).enterSeparator separator =
        resolveExpr env ctx.enterSeparator separator :=
      show resolveExpr env (ctx.enterSeparator.binding labels ruleValues sources) separator = _ from
        resolveExpr_binding separator
    rw [hs]
    rfl
  | _ => rw [resolveQuantifier, resolveQuantifier] <;> rfl

/-- A predicate asks for labels, and for the rules that it names. -/
theorem predicateParams_binding : ∀ (ps : List PredicateParam) {params args},
    (∀ q ∈ ps, latest ruleValues q.source = latest ruleValues' q.source) →
    predicateParams (ctx.binding labels ruleValues sources) params args ps =
      predicateParams (ctx.binding labels ruleValues' sources') params args ps
  | [], _, _, _ => rfl
  | q :: ps, params, args, h => by
    have hsource : sourceBinding (ctx.binding labels ruleValues sources) q.source =
        sourceBinding (ctx.binding labels ruleValues' sources') q.source := by
      show Option.or _ (latest ruleValues q.source) = Option.or _ (latest ruleValues' q.source)
      rw [h q (List.mem_cons_self ..)]
      rfl
    rw [predicateParams, predicateParams, hsource]
    have hrest {params args} : predicateParams (ctx.binding labels ruleValues sources) params args ps =
        predicateParams (ctx.binding labels ruleValues' sources') params args ps :=
      predicateParams_binding ps fun p hp => h p (List.mem_cons_of_mem q hp)
    split
    · rfl
    split
    · rfl
    split
    · rfl
    · exact hrest

theorem resolvePredicate_binding {p : Predicate}
    (h : ∀ q ∈ p.params, latest ruleValues q.source = latest ruleValues' q.source) :
    resolvePredicate (ctx.binding labels ruleValues sources) p =
      resolvePredicate (ctx.binding labels ruleValues' sources') p := by
  unfold resolvePredicate
  rw [predicateParams_binding p.params h]
  rfl

/-- All elements but plain references come to the same. -/
theorem resolveElement_binding {e : Grammar.Element}
    (hplain : ∀ plucked label target, e ≠ .item plucked label ⟨.ruleRef target, .one⟩)
    (h : ∀ s ∈ predicateSources [e], latest ruleValues s = latest ruleValues' s) :
    resolveElement env (ctx.binding labels ruleValues sources) e =
      resolveElement env (ctx.binding labels ruleValues' sources') e := by
  match e, hplain, h with
  | .check negated (.predicate p), _, h =>
    have hp : resolvePredicate (ctx.binding labels ruleValues sources) p =
        resolvePredicate (ctx.binding labels ruleValues' sources') p := by
      refine resolvePredicate_binding fun q hq => h q.source ?_
      simpa [predicateSources] using ⟨q, hq, rfl⟩
    rw [resolveElement, resolveElement, hp]
  | .check negated (.lookahead body), _, _ =>
    have hbody {values : List Binding} {names : List String} :
        resolveQuantified env (ctx.binding labels values names).enterLookahead body =
          resolveQuantified env ctx.enterLookahead body :=
      show resolveQuantified env (ctx.enterLookahead.binding labels values names) body = _ from
        resolveQuantified_binding body
    rw [resolveElement, resolveElement, hbody, hbody]
  | .item plucked label ⟨expr, quantifier⟩, hplain, _ =>
    cases hbody : isPlain ⟨expr, quantifier⟩ with
    | false =>
      have hitem (values : List Binding) (names : List String) :
          resolveElement env (ctx.binding labels values names) (.item plucked label ⟨expr, quantifier⟩)
            = (do
              checkLabel (ctx.binding labels values names) label
              let m ← resolveQuantified env ctx ⟨expr, quantifier⟩
              if keeps ctx plucked label then
                pure (captured ctx plucked label none m .text .text)
              else pure (uncaptured plucked m)) := by
        rw [resolveElement_item hbody, resolveQuantified_binding]
        rfl
      rw [hitem, hitem]
      rfl
    | true =>
      obtain ⟨rfl, ⟨target, rfl⟩ | ⟨as, rfl⟩⟩ := plain_cases hbody
      · exact absurd rfl (hplain plucked label target)
      · rw [resolveElement, resolveElement]
        rfl

end

/-! ## Two runs over a row -/

/-- Rows that agree on labels and plucks, and on the latest values of some rules. -/
structure SameBindings (sources : List String) (a b : Row) : Prop where
  labels : b.labels = a.labels
  plucks : b.plucks = a.plucks
  ruleValues : ∀ s ∈ sources, latest a.ruleValues s = latest b.ruleValues s

/-- An element is resolved as before, but for a plain reference to a source that nobody had
captured: that one is captured now, where values are kept. -/
inductive Widened (ctx : Context) (sources : List String) (position : Nat) :
    Grammar.Element → Resolved.Element → Resolved.Element → Prop
  | same {e : Grammar.Element} {r : Resolved.Element}
      (h : ∀ plucked label target, e = .item plucked label ⟨.ruleRef target, .one⟩ →
        ctx.capturing = true → target ∈ sources → r.capture ≠ none) :
      Widened ctx sources position e r r
  | captured {plucked : Bool} {label : Option String} {target : String}
      {call : Resolved.RuleCall} (hc : ctx.capturing = true) (hs : target ∈ sources) :
      Widened ctx sources position (.item plucked label ⟨.ruleRef target, .one⟩)
        ⟨.call call, none⟩
        ⟨.call call, some ⟨captureVar ctx.alternative position, call.resultType, .value⟩⟩

/-- The elements of a row from a position on, one by one. -/
inductive RowWidened (ctx : Context) (sources : List String) :
    Nat → List Grammar.Element → List Resolved.Element → List Resolved.Element → Prop
  | nil {position : Nat} : RowWidened ctx sources position [] [] []
  | cons {position : Nat} {e : Grammar.Element} {es : List Grammar.Element}
      {r r' : Resolved.Element} {rs rs' : List Resolved.Element}
      (head : Widened ctx sources position e r r')
      (rest : RowWidened ctx sources (position + 1) es rs rs') :
      RowWidened ctx sources position (e :: es) (r :: rs) (r' :: rs')

namespace SameBindings

variable {sources : List String} {a b : Row} {r : ResolvedElement}

/-- An element that both rows get. -/
theorem add (h : SameBindings sources a b) : SameBindings sources (a.add r) (b.add r) := by
  unfold Row.add
  cases r.element.capture with
  | none => exact h
  | some capture =>
    refine ⟨?_, ?_, fun s hs => ?_⟩
    · dsimp only
      rw [h.labels]
    · dsimp only
      rw [h.plucks]
    · dsimp only
      cases r.rule with
      | none => simpa using h.ruleValues s hs
      | some rule =>
        rw [Option.map_some, Option.toList_some, latest_concat, latest_concat, h.ruleValues s hs]

/-- A capture that only the second row gets: it has no label, is not plucked, and its rule is
none of those asked for. -/
theorem addSource (h : SameBindings sources a b) {capture : Resolved.Capture} {matcher : Matcher}
    {target : String} (ht : target ∉ sources) :
    SameBindings sources a (b.add ⟨⟨matcher, some capture⟩, none, some target, false⟩) := by
  refine ⟨?_, ?_, fun s hs => ?_⟩
  · show b.labels ++ [] = a.labels
    rw [List.append_nil, h.labels]
  · show b.plucks ++ [] = a.plucks
    rw [List.append_nil, h.plucks]
  · have hne : (target == s) = false := beq_false_of_ne fun e => ht (e ▸ hs)
    show _ = latest (b.ruleValues ++ [⟨target, capture.var, capture.type⟩]) s
    rw [latest_concat, h.ruleValues s hs]
    show _ = if (target == s) = true then _ else _
    rw [hne]
    rfl

end SameBindings

section
variable {env : Env} {ctx : Context} {sources more : List String} {position : Nat} {a b : Row}

theorem enterElement_eq (ctx : Context) (sources : List String) (position : Nat)
    (labels ruleValues : List Binding) :
    (ctx.enterRow sources).enterElement position labels ruleValues =
      { ctx with position }.binding labels ruleValues sources :=
  rfl

/-- One element: both runs leave the same behind, and rows that agree. -/
theorem sameBindings_element (hsame : SameBindings sources a b) {e : Grammar.Element}
    (hsub : predicateSources [e] ⊆ sources) {r r' : ResolvedElement} {out mid mid' : Emitted}
    (h : Yields (resolveElement env
      ((ctx.enterRow sources).enterElement position a.labels a.ruleValues) e) out r mid)
    (h' : Yields (resolveElement env
      ((ctx.enterRow (sources ++ more)).enterElement position b.labels b.ruleValues) e)
      out r' mid') :
    mid' = mid ∧ Widened ctx more position e r.element r'.element ∧
      SameBindings sources (a.add r) (b.add r') := by
  by_cases hplain : ∃ plucked label target, e = .item plucked label ⟨.ruleRef target, .one⟩
  · obtain ⟨plucked, label, target, rfl⟩ := hplain
    obtain ⟨call, _, hcall, -, rfl, rfl⟩ := yields_reference h
    obtain ⟨call', _, hcall', -, rfl, rfl⟩ := yields_reference h'
    -- a call does not depend on what is bound
    obtain ⟨hcalls, rfl⟩ := Prod.mk.inj (hcall.symm.trans hcall')
    obtain rfl : call = call' := Except.ok.inj hcalls
    refine ⟨rfl, ?_⟩
    have hkept : keepsReference ((ctx.enterRow sources).enterElement position a.labels
        a.ruleValues) plucked label target =
      (ctx.capturing && (plucked || label.isSome || sources.contains target)) := rfl
    have hkept' : keepsReference ((ctx.enterRow (sources ++ more)).enterElement position b.labels
        b.ruleValues) plucked label target =
      (ctx.capturing && (plucked || label.isSome || (sources ++ more).contains target)) := rfl
    rw [hkept, hkept']
    cases hk : ctx.capturing && (plucked || label.isSome || sources.contains target) with
    | true =>
      have hk' : (ctx.capturing &&
          (plucked || label.isSome || (sources ++ more).contains target)) = true := by
        simp only [Bool.and_eq_true, Bool.or_eq_true, List.contains_iff_mem, List.mem_append] at hk ⊢
        tauto
      rw [hk']
      refine ⟨.same fun _ _ _ _ _ _ hnone => ?_, hsame.add⟩
      cases hnone
    | false =>
      cases hk' : ctx.capturing &&
          (plucked || label.isSome || (sources ++ more).contains target) with
      | false =>
        refine ⟨.same ?_, hsame.add⟩
        rintro _ _ _ ⟨⟩ hc hs
        simp [hc, hs] at hk'
      | true =>
        -- the predicate alone asks for the value
        simp only [Bool.and_eq_true, Bool.or_eq_true, List.contains_iff_mem, List.mem_append,
          Bool.eq_false_iff, ne_eq, not_and, not_or] at hk hk'
        obtain ⟨hc, hsources⟩ := hk'
        obtain ⟨⟨hplucked, hlabel⟩, htarget⟩ := hk hc
        have hs : target ∈ more := by tauto
        obtain rfl : plucked = false := by simpa using hplucked
        obtain rfl : label = none := by simpa using hlabel
        exact ⟨.captured hc hs, hsame.addSource htarget⟩
  · have hsource : resolveElement env (Context.binding { ctx with position } a.labels a.ruleValues
          sources) e =
        resolveElement env (Context.binding { ctx with position } a.labels b.ruleValues
          (sources ++ more)) e :=
      resolveElement_binding (fun plucked label target he => hplain ⟨plucked, label, target, he⟩)
        (fun s hs => hsame.ruleValues s (hsub hs))
    rw [enterElement_eq, hsource] at h
    rw [enterElement_eq, hsame.labels] at h'
    obtain ⟨hr, rfl⟩ := Prod.mk.inj (h.symm.trans h')
    obtain rfl : r = r' := Except.ok.inj hr
    refine ⟨rfl, .same fun plucked label target he => ?_, hsame.add⟩
    exact absurd ⟨plucked, label, target, he⟩ hplain

/-- All elements of a row, with one more behind them in the second run. -/
theorem sameBindings_elements {last : Grammar.Element} : ∀ (es : List Grammar.Element)
    {position : Nat} {a b a' b' : Row} {rs rs' : List Resolved.Element} {out out₁ out₂ : Emitted},
    SameBindings sources a b → predicateSources es ⊆ sources →
    Yields (resolveElements env (ctx.enterRow sources) position a es) out (rs, a') out₁ →
    Yields (resolveElements env (ctx.enterRow (sources ++ more)) position b (es ++ [last])) out
      (rs', b') out₂ →
    ∃ rs'' b'' r, rs' = rs'' ++ [r.element] ∧ RowWidened ctx more position es rs rs'' ∧
      SameBindings sources a' b'' ∧ b' = b''.add r ∧
      Yields (resolveElement env ((ctx.enterRow (sources ++ more)).enterElement
        (position + es.length) b''.labels b''.ruleValues) last) out₁ r out₂
  | [], position, a, b, a', b', rs, rs', out, out₁, out₂, hsame, _, h, h' => by
    obtain ⟨rfl, rfl, rfl⟩ := yields_noElements h
    obtain ⟨r, _, _, hlast, hnone, rfl⟩ := yields_moreElements h'
    obtain ⟨rfl, rfl, rfl⟩ := yields_noElements hnone
    exact ⟨[], b, r, rfl, .nil, hsame, rfl, hlast⟩
  | e :: rest, position, a, b, a', b', rs, rs', out, out₁, out₂, hsame, hsub, h, h' => by
    rw [predicateSources_cons, List.append_subset] at hsub
    obtain ⟨r, mid, _, he, hrest, rfl⟩ := yields_moreElements h
    obtain ⟨r', mid', _, he', hrest', rfl⟩ := yields_moreElements h'
    obtain ⟨rfl, hwidened, hnext⟩ := sameBindings_element hsame hsub.1 he he'
    obtain ⟨rs'', b'', s, rfl, hrow, hfinal, hadd, hlast⟩ :=
      sameBindings_elements rest hnext hsub.2 hrest hrest'
    refine ⟨r'.element :: rs'', b'', s, rfl, .cons hwidened hrow, hfinal, hadd, ?_⟩
    rw [List.length_cons, Nat.add_comm rest.length, ← Nat.add_assoc]
    exact hlast

end

/-! ## The value of the row -/

theorem Joined.unique {cs : List (String × ValueType)} {result result' : AltResult}
    {type type' : ValueType} (h : Joined cs result type) (h' : Joined cs result' type') :
    result' = result ∧ type' = type := by
  cases h with
  | nothing =>
    cases h' with
    | nothing => exact ⟨rfl, rfl⟩
    | several two _ => simp at two
  | one =>
    cases h' with
    | one => exact ⟨rfl, rfl⟩
    | several two _ => simp at two
  | several two _ =>
    cases h' with
    | nothing => simp at two
    | one => simp at two
    | several _ _ => exact ⟨rfl, rfl⟩

/-- Rows that agree have the same value, and the same function is extracted for it. -/
theorem rowValue_of_sameBindings {env : Env} {ctx : Context} {names names' sources : List String}
    {a b : Row} (hsame : SameBindings sources a b) {action : Option String}
    {result result' : AltResult} {type type' : ValueType} {mid mid' out out' : Emitted}
    (h : Yields (rowValue env (ctx.enterRow names) a action) mid (result, type) out)
    (h' : Yields (rowValue env (ctx.enterRow names') b action) mid' (result', type') out') :
    result' = result ∧ type' = type ∧ ∃ fs, fs = action.toList.map (rowAction env ctx a.labels) ∧
      out = { mid with actions := mid.actions ++ fs } ∧
      out' = { mid' with actions := mid'.actions ++ fs } := by
  cases action with
  | some code =>
    obtain ⟨-, rfl, rfl, rfl⟩ := of_rowValue_some h
    obtain ⟨-, rfl, rfl, rfl⟩ := of_rowValue_some h'
    rw [hsame.labels]
    exact ⟨rfl, rfl, _, rfl, rfl, rfl⟩
  | none =>
    obtain ⟨rfl, hjoined⟩ := of_rowValue_none h
    obtain ⟨rfl, hjoined'⟩ := of_rowValue_none h'
    have hcaptures : b.valueCaptures = a.valueCaptures := by
      unfold Row.valueCaptures
      rw [hsame.labels, hsame.plucks]
    rw [hcaptures] at hjoined'
    obtain ⟨rfl, rfl⟩ := hjoined.unique hjoined'
    exact ⟨rfl, rfl, [], rfl, by simp, by simp⟩

/-! ## One more predicate -/

/-- What one more predicate of a row leaves behind: its function stands in front of that of
the action of the row, if there is one, and the next predicate of the rule has the next
number. -/
structure OneMore (env : Env) (ctx : Context) (p : Predicate) (action : Option String)
    (call : Resolved.ActionCall) (out out' : Emitted) : Prop where
  actions : ∃ before labels sourced,
    out.actions = before ++ action.toList.map (rowAction env ctx labels) ∧
    out'.actions = before ++ predicateAction call.function sourced p.code ::
      action.toList.map (rowAction env ctx labels) ∧
    sourced.map (fun s => s.1) = p.params ∧ call.args = sourced.map (fun s => s.2.var)
  function : call.function = predicateFunction ctx.base (out.predicateCount ctx.rule)
  count : out'.predicateCount ctx.rule = out.predicateCount ctx.rule + 1
  others : ∀ rule ≠ ctx.rule, out'.predicateCount rule = out.predicateCount rule
  unresolved : out'.unresolved = out.unresolved
  notes : out'.notes = out.notes

theorem predicateSources_concat (es : List Grammar.Element) (negated : Bool) (p : Predicate) :
    predicateSources (es ++ [.check negated (.predicate p)]) =
      predicateSources es ++ p.params.map (fun q => q.source) := by
  unfold predicateSources
  rw [List.flatMap_append]
  simp

/-- **A predicate does not change the value of its row.** Where a row is accepted with and
without a predicate behind its elements, both have the same value and type and, if there is an
action, the same function and arguments for it. The elements have the same matchers and the
captures that they had; only a plain reference that nobody had captured, to a rule that the
predicate names as a source, is captured too. Behind them stands the predicate, and one
function more, in front of that of the action. -/
theorem row_with_predicate {env : Env} {ctx : Context} {elements : List Grammar.Element}
    {action : Option String} {negated : Bool} {p : Predicate} {r r' : Resolved.Alternative}
    {out out₁ out₂ : Emitted}
    (h : Yields (resolveAlternative env ctx ⟨elements, action⟩) out r out₁)
    (h' : Yields (resolveAlternative env ctx
      ⟨elements ++ [.check negated (.predicate p)], action⟩) out r' out₂) :
    r'.result = r.result ∧ r'.resultType = r.resultType ∧ ∃ call widened,
      r'.elements = widened ++ [⟨.predicate negated call, none⟩] ∧
      RowWidened ctx (p.params.map fun q => q.source) 0 elements r.elements widened ∧
      OneMore env ctx p action call out₁ out₂ := by
  rw [resolveAlternative] at h h'
  simp only [Yields.bind_iff, Yields.pure_iff] at h h'
  obtain ⟨⟨rs, row⟩, mid, hes, ⟨result, type⟩, _, hvalue, rfl, rfl⟩ := h
  obtain ⟨⟨rs', row'⟩, mid', hes', ⟨result', type'⟩, _, hvalue', rfl, rfl⟩ := h'
  rw [predicateSources_concat] at hes' hvalue'
  have hstart : SameBindings (predicateSources elements) {} {} := ⟨rfl, rfl, fun _ _ => rfl⟩
  obtain ⟨widened, b, last, rfl, hwidened, hsame, rfl, hlast⟩ :=
    sameBindings_elements elements hstart (List.Subset.refl _) hes hes'
  rw [resolveElement] at hlast
  simp only [Yields.bind_iff, Yields.pure_iff] at hlast
  obtain ⟨call, _, hcall, rfl, rfl⟩ := hlast
  obtain ⟨sourced, hparams, -, rfl, rfl⟩ := of_resolvePredicate hcall
  obtain ⟨rfl, rfl, fs, rfl, rfl, rfl⟩ := rowValue_of_sameBindings hsame hvalue hvalue'
  refine ⟨rfl, rfl, _, widened, rfl, hwidened, ?_⟩
  exact {
    actions := ⟨mid.actions, row.labels, sourced, rfl, List.append_assoc .., hparams, rfl⟩
    function := rfl
    count := (predicateCount_next mid ctx.rule ctx.rule).trans (if_pos rfl)
    others := fun rule hrule => (predicateCount_next mid ctx.rule rule).trans (if_neg hrule)
    unresolved := rfl
    notes := rfl }

/-- Rules for digits and a sign. -/
def digitsAndSign : Env where
  types := {}
  rules := [("Digits", ⟨⟨"digits", none⟩, "peg_digits", .text⟩),
    ("Sign", ⟨⟨"sign", none⟩, "peg_sign", .text⟩)]

/-- The first alternative of a rule. -/
def sumContext : Context := { rule := "Sum", base := ⟨"sum", none⟩, start := true }

/-- Two numbers around a sign, the first of them labeled and checked. -/
def sumElements : List Grammar.Element := [
  .item false (some "a") ⟨.ruleRef "Digits", .one⟩,
  .check false (.predicate ⟨[⟨"n", "a"⟩], "logical", "res = len(n) < 5"⟩),
  .item false none ⟨.ruleRef "Sign", .one⟩,
  .item false none ⟨.ruleRef "Digits", .one⟩]

/-- A check of the sign, and of the number behind it. -/
def signCheck : Predicate where
  params := [⟨"s", "Sign"⟩, ⟨"d", "Digits"⟩]
  returnType := ""
  code := "res = s // d /= '-0'"

def sumRow : Resolved.Alternative where
  elements := [
    ⟨.call ⟨"Digits", "peg_digits", .text⟩, some ⟨"capture_0_0", .text, .value⟩⟩,
    ⟨.predicate false ⟨"pred_sum_0", ["capture_0_0"]⟩, none⟩,
    ⟨.call ⟨"Sign", "peg_sign", .text⟩, none⟩,
    ⟨.call ⟨"Digits", "peg_digits", .text⟩, none⟩]
  result := .action ⟨"action_sum_0", ["capture_0_0"]⟩
  resultType := .text

def checkedSumRow : Resolved.Alternative where
  elements := [
    ⟨.call ⟨"Digits", "peg_digits", .text⟩, some ⟨"capture_0_0", .text, .value⟩⟩,
    ⟨.predicate false ⟨"pred_sum_0", ["capture_0_0"]⟩, none⟩,
    ⟨.call ⟨"Sign", "peg_sign", .text⟩, some ⟨"capture_0_2", .text, .value⟩⟩,
    ⟨.call ⟨"Digits", "peg_digits", .text⟩, some ⟨"capture_0_3", .text, .value⟩⟩,
    ⟨.predicate true ⟨"pred_sum_1", ["capture_0_2", "capture_0_3"]⟩, none⟩]
  result := .action ⟨"action_sum_0", ["capture_0_0"]⟩
  resultType := .text

/-- The check of the number, and the action. -/
def sumEmitted : Emitted where
  actions := [
    ⟨.predicate, "pred_sum_0", [⟨"n", .text⟩], .declared "logical", "res = len(n) < 5"⟩,
    ⟨.action, "action_sum_0", [⟨"a", .text⟩], .text, "res = a"⟩]
  predicates := [("Sum", 1)]

/-- The same with the check of the sign in between. -/
def checkedSumEmitted : Emitted where
  actions := [
    ⟨.predicate, "pred_sum_0", [⟨"n", .text⟩], .declared "logical", "res = len(n) < 5"⟩,
    ⟨.predicate, "pred_sum_1", [⟨"s", .text⟩, ⟨"d", .text⟩], .declared "logical",
      "res = s // d /= '-0'"⟩,
    ⟨.action, "action_sum_0", [⟨"a", .text⟩], .text, "res = a"⟩]
  predicates := [("Sum", 2)]

theorem sum_with_signCheck :
    Yields (resolveAlternative digitsAndSign sumContext ⟨sumElements, some "res = a"⟩) {}
      sumRow sumEmitted ∧
    Yields (resolveAlternative digitsAndSign sumContext
      ⟨sumElements ++ [.check true (.predicate signCheck)], some "res = a"⟩) {}
      checkedSumRow checkedSumEmitted ∧
    checkedSumRow.result = sumRow.result ∧ checkedSumRow.resultType = sumRow.resultType ∧
    ∃ call widened, checkedSumRow.elements = widened ++ [⟨.predicate true call, none⟩] ∧
      RowWidened sumContext (signCheck.params.map fun q => q.source) 0 sumElements sumRow.elements
        widened ∧
      OneMore digitsAndSign sumContext signCheck (some "res = a") call sumEmitted
        checkedSumEmitted := by
  have hplain : Yields (resolveAlternative digitsAndSign sumContext
      ⟨sumElements, some "res = a"⟩) {} sumRow sumEmitted := by
    unfold Yields
    cbv
  have hchecked : Yields (resolveAlternative digitsAndSign sumContext
      ⟨sumElements ++ [.check true (.predicate signCheck)], some "res = a"⟩) {} checkedSumRow
      checkedSumEmitted := by
    unfold Yields
    cbv
  exact ⟨hplain, hchecked, row_with_predicate hplain hchecked⟩

end PegCompiler.Resolution
