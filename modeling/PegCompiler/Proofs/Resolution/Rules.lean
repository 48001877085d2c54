import PegCompiler.Proofs.Semantics.Grammar
import PegCompiler.Proofs.Yields
import PegCompiler.Resolution.Grammar
/-
  The rules of resolution. What resolution makes of a node is said here once, one
  rule for each kind of node, in a form without the order of its computations:
  `Relations.Closed` lists the rules for a family of relations between nodes and
  what they become. Relations that keep these rules hold of every run of resolution
  that finds no defect (`Closed.alternatives` and the theorems beside it), so a
  property of resolution is proved by checking the rules.
-/

namespace PegCompiler.Resolution

open Grammar (Alternative ClassItem Element Expr Predicate Quantified Quantifier)
open Resolved (Bound Matcher RuleCall)

/-- The bounds that a quantifier without a separator stands for. -/
inductive Bounded : Quantifier → Bound → Option Bound → Prop
  | optional : Bounded .optional (.count 0) (some (.count 1))
  | zeroOrMore : Bounded .zeroOrMore (.count 0) none
  | oneOrMore : Bounded .oneOrMore (.count 1) none
  | exact {count : UInt32} (positive : count ≠ 0) :
      Bounded (.exact count) (.count count.toNat) (some (.count count.toNat))
  | range {min max : Option UInt32} (sound : rangeDefect min max = none) :
      Bounded (.range min max) (.count ((min.map UInt32.toNat).getD 0))
        (max.map (fun n => .count n.toNat))
  | computed {min max : Option String}
      (sound : ∀ code, min = some code ∨ max = some code → Text.isBlankText code = false) :
      Bounded (.computed min max)
        ((min.map (fun code => .code (Text.trimmed code))).getD (.count 0))
        (max.map (fun code => .code (Text.trimmed code)))

/-- Whether the value of an item is that of its rule or group. -/
def isPlain : Quantified → Bool
  | ⟨.ruleRef _, .one⟩ => true
  | ⟨.group _, .one⟩ => true
  | _ => false

/-- The plain groups and references among the items are those with a rule of their own. -/
theorem plain_cases {expr : Expr} {quantifier : Quantifier}
    (h : isPlain ⟨expr, quantifier⟩ = true) : quantifier = .one ∧
      ((∃ target, expr = .ruleRef target) ∨ ∃ as, expr = .group as) := by
  unfold isPlain at h
  split at h
  next heq =>
    cases heq
    exact ⟨rfl, .inl ⟨_, rfl⟩⟩
  next heq =>
    cases heq
    exact ⟨rfl, .inr ⟨_, rfl⟩⟩
  next => cases h

theorem reference_of_not_plain {body : Quantified} (h : isPlain body = false) :
    body.reference? = none := by
  unfold Quantified.reference?
  split
  · cases h
  · rfl

/-- An item with or without a capture. -/
def keptIf (keeps : Bool) (ctx : Context) (plucked : Bool) (label rule : Option String)
    (matcher : Matcher) (type : Resolved.ValueType) (source : Resolved.CaptureSource) :
    ResolvedElement :=
  if keeps then captured ctx plucked label rule matcher type source else uncaptured plucked matcher

theorem matcher_keptIf (keep : Bool) (ctx : Context) (plucked : Bool) (label rule : Option String)
    (m : Matcher) (type : Resolved.ValueType) (source : Resolved.CaptureSource) :
    (keptIf keep ctx plucked label rule m type source).element.matcher = m := by
  cases keep <;> rfl

/-- Whether an item is captured for its own sake. -/
def keeps (ctx : Context) (plucked : Bool) (label : Option String) : Bool :=
  ctx.capturing && (plucked || label.isSome)

/-- Whether a reference is captured, for its own sake or for a predicate. -/
def keepsReference (ctx : Context) (plucked : Bool) (label : Option String) (target : String) :
    Bool :=
  ctx.capturing && (plucked || label.isSome || ctx.isPredicateSource target)

/-- The choice that a group becomes: one that is captured has a variable. -/
def groupChoice (keeps : Bool) (ctx : Context) (alternatives : List Resolved.Alternative) :
    Resolved.Choice :=
  ⟨alternatives, if keeps then some (Resolved.groupVar ctx.groupPath) else none⟩

/-- Relations between nodes, in a context and with what was extracted before them, and
what they become, with what was extracted behind them. -/
structure Relations where
  alternatives : Context → Nat → Emitted → List Alternative → List Resolved.Alternative →
    Emitted → Prop
  alternative : Context → Emitted → Alternative → Resolved.Alternative → Emitted → Prop
  elements : Context → Nat → Row → Emitted → List Element → List Resolved.Element → Row →
    Emitted → Prop
  element : Context → Emitted → Element → ResolvedElement → Emitted → Prop
  quantified : Context → Emitted → Quantified → Matcher → Emitted → Prop
  expr : Context → Emitted → Expr → Matcher → Emitted → Prop

/-- The rules of resolution. -/
structure Relations.Closed (R : Relations) (env : Env) : Prop where
  noAlternatives : ∀ {ctx i out}, R.alternatives ctx i out [] [] out
  moreAlternatives : ∀ {ctx i out a rest r rs mid out'},
    R.alternative (ctx.enterAlternative i) (out.addNote (.alternative i ctx.rule ctx.path)) a r mid →
    R.alternatives ctx (i + 1) mid rest rs out' →
    R.alternatives ctx i out (a :: rest) (r :: rs) out'
  row : ∀ {ctx out elements action es row mid result type out'},
    R.elements (ctx.enterRow (predicateSources elements)) 0 {} out elements es row mid →
    Yields (rowValue env (ctx.enterRow (predicateSources elements)) row action) mid
      (result, type) out' →
    R.alternative ctx out ⟨elements, action⟩ ⟨es, result, type⟩ out'
  noElements : ∀ {ctx position row out}, R.elements ctx position row out [] [] row out
  moreElements : ∀ {ctx position row out e rest r rs row' mid out'},
    R.element (ctx.enterElement position row.labels row.ruleValues) out e r mid →
    R.elements ctx (position + 1) (row.add r) mid rest rs row' out' →
    R.elements ctx position row out (e :: rest) (r.element :: rs) row' out'
  predicate : ∀ {ctx out negated p call out'}, Yields (resolvePredicate ctx p) out call out' →
    R.element ctx out (.check negated (.predicate p))
      (uncaptured false (.predicate negated call)) out'
  lookahead : ∀ {ctx out negated body m out'}, R.quantified ctx.enterLookahead out body m out' →
    R.element ctx out (.check negated (.lookahead body))
      (uncaptured false (.lookahead negated m)) out'
  reference : ∀ {ctx out plucked label target call out'},
    (∀ l, label = some l → labelDefect ctx l = none) →
    Yields (ruleCall env ctx target) out call out' →
    R.element ctx out (.item plucked label ⟨.ruleRef target, .one⟩)
      (keptIf (keepsReference ctx plucked label target) ctx plucked label (some target)
        (.call call) call.resultType .value) out'
  group : ∀ {ctx out plucked label alternatives rs out'},
    (∀ l, label = some l → labelDefect ctx l = none) → alternatives ≠ [] →
    R.alternatives ctx.enterGroup 0 out alternatives rs out' →
    (keeps ctx plucked label = true → ∀ r ∈ rs, r.resultType.isText = true) →
    R.element ctx out (.item plucked label ⟨.group alternatives, .one⟩)
      (keptIf (keeps ctx plucked label) ctx plucked label none
        (.choice (groupChoice (keeps ctx plucked label) ctx rs)) .text .value) out'
  item : ∀ {ctx out plucked label body m out'},
    (∀ l, label = some l → labelDefect ctx l = none) → isPlain body = false →
    R.quantified ctx out body m out' →
    R.element ctx out (.item plucked label body)
      (keptIf (keeps ctx plucked label) ctx plucked label none m .text .text) out'
  once : ∀ {ctx out expr m out'}, R.expr ctx out expr m out' →
    R.quantified ctx out ⟨expr, .one⟩ m out'
  repeated : ∀ {ctx out expr quantifier min max m out'}, R.expr ctx out expr m out' →
    Bounded quantifier min max →
    R.quantified ctx out ⟨expr, quantifier⟩ (.repeat m min max none)
      (out'.addNote (.repetition min max ctx.rule))
  separated : ∀ {ctx out expr separator m s mid out'} {count : UInt32},
    R.expr ctx out expr m mid → count ≠ 0 → R.expr ctx.enterSeparator mid separator s out' →
    R.quantified ctx out ⟨expr, .separated count separator⟩
      (.repeat m (.count count.toNat) (some (.count count.toNat)) (some s))
      (out'.addNote (.repetition (.count count.toNat) (some (.count count.toNat)) ctx.rule))
  literal : ∀ {ctx out value}, R.expr ctx out (.literal value) (.literal value) out
  charClass : ∀ {ctx out items}, classDefect items = none →
    R.expr ctx out (.class items) (.class (classTests items)) out
  ruleRef : ∀ {ctx out target call out'}, Yields (ruleCall env ctx target) out call out' →
    R.expr ctx out (.ruleRef target) (.call call) out'
  anyChar : ∀ {ctx out}, R.expr ctx out .anyChar .anyChar out
  endOfInput : ∀ {ctx out}, R.expr ctx out .endOfInput .endOfInput out
  nested : ∀ {ctx out alternatives rs out'}, alternatives ≠ [] →
    R.alternatives ctx.enterGroup 0 out alternatives rs out' →
    R.expr ctx out (.group alternatives) (.choice ⟨rs, none⟩) out'

/-! ## Runs of resolution keep the rules -/

theorem yields_checkLabel {ctx : Context} {label : Option String} {out out' : Emitted}
    (h : Yields (checkLabel ctx label) out () out') :
    out = out' ∧ ∀ l, label = some l → labelDefect ctx l = none := by
  cases label with
  | none => simpa [checkLabel] using h
  | some l =>
    unfold checkLabel refuse at h
    cases hd : labelDefect ctx l with
    | none => simpa [hd] using h
    | some d => simp [hd] at h

theorem yields_checkChoice {ctx : Context} {alternatives : List Alternative} {out out' : Emitted}
    (h : Yields (checkChoice ctx alternatives) out () out') : out = out' ∧ alternatives ≠ [] := by
  unfold checkChoice refuse at h
  cases alternatives with
  | nil => simp at h
  | cons a rest => simpa using h

theorem yields_checkGroup {ctx : Context} {rs : List Resolved.Alternative} {out out' : Emitted}
    (h : Yields (checkGroup ctx rs) out () out') :
    out = out' ∧ ∀ r ∈ rs, r.resultType.isText = true := by
  unfold checkGroup refuse at h
  cases hf : rs.find? (fun a => !a.resultType.isText) with
  | none =>
    rw [List.find?_eq_none] at hf
    exact ⟨by simpa [List.find?_eq_none.mpr hf] using h, fun r hr => by simpa using hf r hr⟩
  | some r => simp [hf] at h

theorem yields_resolveClass {ctx : Context} {items : List ClassItem} {tests : List _}
    {out out' : Emitted} (h : Yields (resolveClass ctx items) out tests out') :
    classDefect items = none ∧ classTests items = tests ∧ out = out' := by
  unfold resolveClass refuse at h
  cases hd : classDefect items with
  | none => simpa [hd] using h
  | some d => simp [hd] at h

theorem yields_exactBounds {ctx : Context} {count : UInt32} {bounds : Bound × Option Bound}
    {out out' : Emitted} (h : Yields (exactBounds ctx count) out bounds out') :
    count ≠ 0 ∧ (.count count.toNat, some (.count count.toNat)) = bounds ∧ out = out' := by
  unfold exactBounds refuse at h
  by_cases hc : count = 0
  · simp [hc] at h
  · simpa [hc] using h

theorem yields_rangeBounds {ctx : Context} {min max : Option UInt32}
    {bounds : Bound × Option Bound} {out out' : Emitted}
    (h : Yields (rangeBounds ctx min max) out bounds out') :
    rangeDefect min max = none ∧
      (.count ((min.map UInt32.toNat).getD 0), max.map (fun n => .count n.toNat)) = bounds ∧
      out = out' := by
  unfold rangeBounds refuse at h
  cases hd : rangeDefect min max with
  | none => simpa [hd] using h
  | some d => simp [hd] at h

theorem yields_computedBound {ctx : Context} {code : Option String} {bound : Option Bound}
    {out out' : Emitted} (h : Yields (computedBound ctx code) out bound out') :
    (∀ c, code = some c → Text.isBlankText c = false) ∧
      code.map (fun c => .code (Text.trimmed c)) = bound ∧ out = out' := by
  cases code with
  | none => simpa [computedBound] using h
  | some c =>
    unfold computedBound refuse at h
    by_cases hc : Text.isBlankText c = true
    · simp [hc] at h
    · simpa [hc] using h

theorem yields_repeated {ctx : Context} {body : Matcher} {bounds : Bound × Option Bound}
    {separator : Option Matcher} {m : Matcher} {out out' : Emitted}
    (h : Yields (repeated ctx body bounds separator) out m out') :
    .repeat body bounds.1 bounds.2 separator = m ∧
      out.addNote (.repetition bounds.1 bounds.2 ctx.rule) = out' := by
  simpa [repeated, note, and_comm] using h

/-- A condition that decides between two results. -/
theorem yields_ite {c : Bool} {a b r : ResolvedElement} {out out' : Emitted}
    (h : Yields (if c then (pure a : Resolve _) else pure b) out r out') :
    (if c then a else b) = r ∧ out = out' := by
  cases c <;> simpa using h

theorem yields_reference {env : Env} {ctx : Context} {plucked : Bool} {label : Option String}
    {target : String} {r : ResolvedElement} {out out' : Emitted}
    (h : Yields (resolveElement env ctx (.item plucked label ⟨.ruleRef target, .one⟩)) out r out') :
    ∃ call mid, Yields (ruleCall env ctx target) out call mid ∧
      (∀ l, label = some l → labelDefect ctx l = none) ∧
      keptIf (keepsReference ctx plucked label target) ctx plucked label (some target)
        (.call call) call.resultType .value = r ∧ mid = out' := by
  rw [resolveElement] at h
  simp only [Yields.bind_iff] at h
  obtain ⟨_, _, hcheck, call, mid, hcall, h⟩ := h
  obtain ⟨rfl, hlabel⟩ := yields_checkLabel hcheck
  obtain ⟨hr, hout⟩ := yields_ite h
  exact ⟨call, mid, hcall, hlabel, hr, hout⟩

theorem yields_group {env : Env} {ctx : Context} {plucked : Bool} {label : Option String}
    {alternatives : List Alternative} {r : ResolvedElement} {out out' : Emitted}
    (h : Yields (resolveElement env ctx (.item plucked label ⟨.group alternatives, .one⟩))
      out r out') :
    ∃ rs mid, Yields (resolveAlternatives env ctx.enterGroup 0 alternatives) out rs mid ∧
      (∀ l, label = some l → labelDefect ctx l = none) ∧ alternatives ≠ [] ∧
      (keeps ctx plucked label = true → ∀ r ∈ rs, r.resultType.isText = true) ∧
      keptIf (keeps ctx plucked label) ctx plucked label none
        (.choice (groupChoice (keeps ctx plucked label) ctx rs)) .text .value = r ∧
      mid = out' := by
  rw [resolveElement] at h
  simp only [Yields.bind_iff] at h
  obtain ⟨_, _, hcheck, _, _, hchoice, rs, mid, hrs, h⟩ := h
  obtain ⟨rfl, hlabel⟩ := yields_checkLabel hcheck
  obtain ⟨rfl, hne⟩ := yields_checkChoice hchoice
  refine ⟨rs, mid, hrs, hlabel, hne, ?_⟩
  unfold keptIf groupChoice keeps
  split at h
  next hkeeps =>
    simp only [Yields.bind_iff] at h
    obtain ⟨_, _, hgroup, h⟩ := h
    obtain ⟨rfl, htext⟩ := yields_checkGroup hgroup
    obtain ⟨rfl, rfl⟩ := Yields.pure_iff.mp h
    rw [hkeeps]
    exact ⟨fun _ => htext, rfl, rfl⟩
  next hkeeps =>
    obtain ⟨rfl, rfl⟩ := Yields.pure_iff.mp h
    rw [Bool.eq_false_iff.mpr hkeeps]
    refine ⟨?_, rfl, rfl⟩
    rintro ⟨⟩

/-- An item that is neither a plain reference nor a plain group. -/
theorem resolveElement_item {env : Env} {ctx : Context} {plucked : Bool} {label : Option String}
    {body : Quantified} (hplain : isPlain body = false) :
    resolveElement env ctx (.item plucked label body) =
      (do
        checkLabel ctx label
        let matcher ← resolveQuantified env ctx body
        if keeps ctx plucked label then
          pure (captured ctx plucked label none matcher .text .text)
        else pure (uncaptured plucked matcher)) := by
  rw [resolveElement]
  · rfl
  · rintro target rfl
    cases hplain
  · rintro as rfl
    cases hplain

theorem yields_item {env : Env} {ctx : Context} {plucked : Bool} {label : Option String}
    {body : Quantified} (hplain : isPlain body = false) {r : ResolvedElement} {out out' : Emitted}
    (h : Yields (resolveElement env ctx (.item plucked label body)) out r out') :
    ∃ m mid, Yields (resolveQuantified env ctx body) out m mid ∧
      (∀ l, label = some l → labelDefect ctx l = none) ∧
      keptIf (keeps ctx plucked label) ctx plucked label none m .text .text = r ∧ mid = out' := by
  rw [resolveElement_item hplain] at h
  simp only [Yields.bind_iff] at h
  obtain ⟨_, _, hcheck, m, mid, hbody, h⟩ := h
  obtain ⟨rfl, hlabel⟩ := yields_checkLabel hcheck
  obtain ⟨hr, hout⟩ := yields_ite h
  exact ⟨m, mid, hbody, hlabel, hr, hout⟩

theorem yields_noElements {env : Env} {ctx : Context} {position : Nat} {row row' : Row}
    {rs : List Resolved.Element} {out out' : Emitted}
    (h : Yields (resolveElements env ctx position row []) out (rs, row') out') :
    rs = [] ∧ row' = row ∧ out' = out := by
  rw [resolveElements] at h
  simp only [Yields.pure_iff, Prod.mk.injEq] at h
  obtain ⟨⟨rfl, rfl⟩, rfl⟩ := h
  exact ⟨rfl, rfl, rfl⟩

theorem yields_moreElements {env : Env} {ctx : Context} {position : Nat} {row row' : Row}
    {e : Element} {rest : List Element} {rs : List Resolved.Element} {out out' : Emitted}
    (h : Yields (resolveElements env ctx position row (e :: rest)) out (rs, row') out') :
    ∃ r mid others, Yields (resolveElement env
        (ctx.enterElement position row.labels row.ruleValues) e) out r mid ∧
      Yields (resolveElements env ctx (position + 1) (row.add r) rest) mid (others, row') out' ∧
      rs = r.element :: others := by
  rw [resolveElements] at h
  simp only [Yields.bind_iff, Yields.pure_iff, Prod.mk.injEq] at h
  obtain ⟨r, mid, he, ⟨others, _⟩, _, hrest, ⟨rfl, rfl⟩, rfl⟩ := h
  exact ⟨r, mid, others, he, hrest, rfl⟩

namespace Relations.Closed

variable {R : Relations} {env : Env}

mutual

/-- Relations that keep the rules hold of every run over alternatives that finds no
defect. -/
theorem alternatives (hR : R.Closed env) : ∀ (as : List Alternative) {ctx i out rs out'},
    Yields (resolveAlternatives env ctx i as) out rs out' → R.alternatives ctx i out as rs out'
  | [], ctx, i, out, rs, out', h => by
    rw [resolveAlternatives] at h
    obtain ⟨rfl, rfl⟩ := Yields.pure_iff.mp h
    exact hR.noAlternatives
  | a :: rest, ctx, i, out, rs, out', h => by
    rw [resolveAlternatives] at h
    simp only [note, Yields.bind_iff, Yields.modify_iff, Yields.pure_iff] at h
    obtain ⟨_, _, rfl, r, mid, ha, rs, _, hrest, rfl, rfl⟩ := h
    exact hR.moreAlternatives (alternative hR a ha) (alternatives hR rest hrest)

theorem alternative (hR : R.Closed env) : ∀ (a : Alternative) {ctx out r out'},
    Yields (resolveAlternative env ctx a) out r out' → R.alternative ctx out a r out'
  | ⟨es, action⟩, ctx, out, r, out', h => by
    rw [resolveAlternative] at h
    simp only [Yields.bind_iff, Yields.pure_iff] at h
    obtain ⟨⟨rs, row⟩, mid, hes, ⟨result, type⟩, _, hvalue, rfl, rfl⟩ := h
    exact hR.row (elements hR es hes) hvalue

theorem elements (hR : R.Closed env) : ∀ (es : List Element) {ctx position row out rs row' out'},
    Yields (resolveElements env ctx position row es) out (rs, row') out' →
    R.elements ctx position row out es rs row' out'
  | [], ctx, position, row, out, rs, row', out', h => by
    obtain ⟨rfl, rfl, rfl⟩ := yields_noElements h
    exact hR.noElements
  | e :: rest, ctx, position, row, out, rs, row', out', h => by
    obtain ⟨r, mid, others, he, hrest, rfl⟩ := yields_moreElements h
    exact hR.moreElements (element hR e he) (elements hR rest hrest)

theorem element (hR : R.Closed env) : ∀ (e : Element) {ctx out r out'},
    Yields (resolveElement env ctx e) out r out' → R.element ctx out e r out'
  | .check negated (.predicate p), ctx, out, r, out', h => by
    rw [resolveElement] at h
    simp only [Yields.bind_iff, Yields.pure_iff] at h
    obtain ⟨call, _, hcall, rfl, rfl⟩ := h
    exact hR.predicate hcall
  | .check negated (.lookahead body), ctx, out, r, out', h => by
    rw [resolveElement] at h
    simp only [Yields.bind_iff, Yields.pure_iff] at h
    obtain ⟨m, _, hbody, rfl, rfl⟩ := h
    exact hR.lookahead (quantified hR body hbody)
  | .item plucked label ⟨expr, quantifier⟩, ctx, out, r, out', h => by
    cases hplain : isPlain ⟨expr, quantifier⟩ with
    | false =>
      obtain ⟨m, mid, hbody, hlabel, rfl, rfl⟩ := yields_item hplain h
      exact hR.item hlabel hplain (quantified hR ⟨expr, quantifier⟩ hbody)
    | true =>
      match expr, quantifier, hplain, h with
      | .ruleRef target, .one, _, h =>
        obtain ⟨call, mid, hcall, hlabel, rfl, rfl⟩ := yields_reference h
        exact hR.reference hlabel hcall
      | .group as, .one, _, h =>
        obtain ⟨rs, mid, has, hlabel, hne, htext, rfl, rfl⟩ := yields_group h
        exact hR.group hlabel hne (alternatives hR as has) htext

theorem quantified (hR : R.Closed env) : ∀ (body : Quantified) {ctx out m out'},
    Yields (resolveQuantified env ctx body) out m out' → R.quantified ctx out body m out'
  | ⟨e, quantifier⟩, ctx, out, m, out', h => by
    rw [resolveQuantified] at h
    simp only [Yields.bind_iff] at h
    obtain ⟨m', mid, he, h⟩ := h
    have he := expr hR e he
    cases quantifier with
    | one =>
      rw [resolveQuantifier] at h
      obtain ⟨rfl, rfl⟩ := Yields.pure_iff.mp h
      exact hR.once he
    | optional =>
      rw [resolveQuantifier] at h
      obtain ⟨rfl, rfl⟩ := yields_repeated h
      exact hR.repeated he .optional
    | zeroOrMore =>
      rw [resolveQuantifier] at h
      obtain ⟨rfl, rfl⟩ := yields_repeated h
      exact hR.repeated he .zeroOrMore
    | oneOrMore =>
      rw [resolveQuantifier] at h
      obtain ⟨rfl, rfl⟩ := yields_repeated h
      exact hR.repeated he .oneOrMore
    | exact count =>
      rw [resolveQuantifier] at h
      simp only [Yields.bind_iff] at h
      obtain ⟨_, _, hbounds, h⟩ := h
      obtain ⟨hpos, rfl, rfl⟩ := yields_exactBounds hbounds
      obtain ⟨rfl, rfl⟩ := yields_repeated h
      exact hR.repeated he (.exact hpos)
    | range min max =>
      rw [resolveQuantifier] at h
      simp only [Yields.bind_iff] at h
      obtain ⟨_, _, hbounds, h⟩ := h
      obtain ⟨hsound, rfl, rfl⟩ := yields_rangeBounds hbounds
      obtain ⟨rfl, rfl⟩ := yields_repeated h
      exact hR.repeated he (.range hsound)
    | separated count separator =>
      rw [resolveQuantifier] at h
      simp only [Yields.bind_iff] at h
      obtain ⟨_, _, hbounds, s, _, hs, h⟩ := h
      obtain ⟨hpos, rfl, rfl⟩ := yields_exactBounds hbounds
      obtain ⟨rfl, rfl⟩ := yields_repeated h
      exact hR.separated he hpos (expr hR separator hs)
    | computed min max =>
      rw [resolveQuantifier] at h
      simp only [Yields.bind_iff] at h
      obtain ⟨_, _, hmin, _, _, hmax, h⟩ := h
      obtain ⟨hlo, rfl, rfl⟩ := yields_computedBound hmin
      obtain ⟨hhi, rfl, rfl⟩ := yields_computedBound hmax
      obtain ⟨rfl, rfl⟩ := yields_repeated h
      exact hR.repeated he (.computed fun code hcode => hcode.elim (hlo code) (hhi code))

theorem expr (hR : R.Closed env) : ∀ (e : Expr) {ctx out m out'},
    Yields (resolveExpr env ctx e) out m out' → R.expr ctx out e m out'
  | .literal value, ctx, out, m, out', h => by
    rw [resolveExpr] at h
    obtain ⟨rfl, rfl⟩ := Yields.pure_iff.mp h
    exact hR.literal
  | .class items, ctx, out, m, out', h => by
    rw [resolveExpr] at h
    simp only [Yields.bind_iff, Yields.pure_iff] at h
    obtain ⟨tests, _, htests, rfl, rfl⟩ := h
    obtain ⟨hd, rfl, rfl⟩ := yields_resolveClass htests
    exact hR.charClass hd
  | .ruleRef target, ctx, out, m, out', h => by
    rw [resolveExpr] at h
    simp only [Yields.bind_iff, Yields.pure_iff] at h
    obtain ⟨call, _, hcall, rfl, rfl⟩ := h
    exact hR.ruleRef hcall
  | .anyChar, ctx, out, m, out', h => by
    rw [resolveExpr] at h
    obtain ⟨rfl, rfl⟩ := Yields.pure_iff.mp h
    exact hR.anyChar
  | .endOfInput, ctx, out, m, out', h => by
    rw [resolveExpr] at h
    obtain ⟨rfl, rfl⟩ := Yields.pure_iff.mp h
    exact hR.endOfInput
  | .group as, ctx, out, m, out', h => by
    rw [resolveExpr] at h
    simp only [Yields.bind_iff, Yields.pure_iff] at h
    obtain ⟨_, mid, hcheck, rs, _, has, rfl, rfl⟩ := h
    obtain ⟨rfl, hne⟩ := yields_checkChoice hcheck
    exact hR.nested hne (alternatives hR as has)

end

end Relations.Closed

end PegCompiler.Resolution
