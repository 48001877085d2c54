import PegCompiler.Proofs.Resolution.Silent
import PegCompiler.Proofs.Validity.Grammars
/-
  Labels and where they count. A label may be used once in a row, but a repeated label is
  looked for among those that are bound, and nothing is bound in lookaheads and separators:
  a label there is idle. What is shown:

    1. `distinctLabels_of_sound`: a row whose values are kept has different labels if its nodes
       are in order, which in an accepted grammar they are at any depth (`rowsListed_nodes`);
    2. `alternatives_dropIdle` and the theorems beside it: resolution does the same with and
       without idle labels that are spelled as labels have to be. What the induction carries is
       that a row whose values are not kept stays empty;
    3. `distinctLabels_of_resolve`: a grammar becomes a parser exactly when its idle labels are
       spelled so and it becomes that parser without them. A label that is repeated in a
       lookahead or a separator is therefore not refused.
-/

namespace PegCompiler

namespace Grammar

open Resolved (sameName)

/-! ## Different labels -/

/-- No two labels of a row are the same, whatever their case. -/
def DistinctLabels (elements : List Element) : Prop :=
  (elements.filterMap Element.label?).Pairwise fun l m => sameName l m = false

instance (elements : List Element) : Decidable (DistinctLabels elements) :=
  inferInstanceAs (Decidable (List.Pairwise _ _))

theorem distinctLabels_concat {es : List Element} {e : Element} (h : DistinctLabels es)
    (he : ∀ l, e.label? = some l →
      ∀ other ∈ es.filterMap Element.label?, sameName other l = false) :
    DistinctLabels (es ++ [e]) := by
  unfold DistinctLabels
  rw [List.filterMap_append, List.pairwise_append]
  refine ⟨h, List.pairwise_filterMap.mpr (List.pairwise_singleton _ _), ?_⟩
  intro other hother l hl
  obtain ⟨e', he', hlabel⟩ := List.mem_filterMap.mp hl
  obtain rfl := List.mem_singleton.mp he'
  exact he l hlabel other hother

/-- Elements in order, where values are kept, have labels that those in front of them do not
have. -/
theorem distinctLabels_of_sound {typeOf : String → Resolved.ValueType} {place : Place}
    (hplace : place.capturing = true) : ∀ (es earlier : List Element),
    (∀ n ∈ elementsNodes place earlier es, n.2.Sound typeOf n.1) → DistinctLabels earlier →
    DistinctLabels (earlier ++ es)
  | [], earlier, _, h => by
    rw [List.append_nil]
    exact h
  | e :: rest, earlier, hsound, h => by
    rw [elementsNodes] at hsound
    obtain ⟨he, hrest⟩ := List.forall_mem_append.mp hsound
    have hnext : DistinctLabels (earlier ++ [e]) := by
      apply distinctLabels_concat h
      intro l hl
      cases e with
      | check _ _ => cases hl
      | item plucked label body =>
        obtain rfl : label = some l := hl
        have hlabel : (place, Node.label earlier l) ∈
            (Element.item plucked (some l) body).nodes place earlier := by
          rw [Element.nodes]
          exact List.mem_append_left _ (List.mem_append_left _ (List.mem_singleton_self _))
        exact (he _ hlabel).2.2 hplace
    have hall := distinctLabels_of_sound hplace rest (earlier ++ [e]) hrest hnext
    rwa [List.append_assoc, List.singleton_append] at hall

/-! ## Rows are listed with their elements -/

/-- With each row, the nodes of its elements are listed. -/
def RowsListed (ns : List (Place × Node)) : Prop :=
  ∀ place elements action, (place, Node.row elements action) ∈ ns →
    ∀ n ∈ elementsNodes place [] elements, n ∈ ns

namespace RowsListed

variable {ns ms : List (Place × Node)}

theorem nil : RowsListed [] :=
  fun _ _ _ h => nomatch h

theorem append (h : RowsListed ns) (h' : RowsListed ms) : RowsListed (ns ++ ms) := by
  intro place elements action hrow n hn
  rcases List.mem_append.mp hrow with hrow | hrow
  · exact List.mem_append_left _ (h place elements action hrow n hn)
  · exact List.mem_append_right _ (h' place elements action hrow n hn)

theorem node {place : Place} {n : Node} (h : ∀ elements action, n ≠ .row elements action) :
    RowsListed [(place, n)] := by
  intro _ elements action hrow
  exact absurd (Prod.mk.inj (List.mem_singleton.mp hrow)).2.symm (h elements action)

theorem toList {place : Place} {α : Type} (f : α → Node) (h : ∀ a es action, f a ≠ .row es action)
    (x : Option α) : RowsListed (x.map fun a => (place, f a)).toList := by
  cases x with
  | none => exact nil
  | some a => exact node (h a)

theorem flatMap {α : Type} {f : α → List (Place × Node)} {xs : List α}
    (h : ∀ x ∈ xs, RowsListed (f x)) : RowsListed (xs.flatMap f) := by
  induction xs with
  | nil => exact nil
  | cons x xs ih =>
    obtain ⟨hx, hxs⟩ := List.forall_mem_cons.mp h
    exact hx.append (ih hxs)

end RowsListed

mutual

theorem Alternative.rowsListed : ∀ (a : Alternative) (place : Place), RowsListed (a.nodes place)
  | ⟨elements, action⟩, place => by
    rw [Alternative.nodes]
    intro spot es code hrow n hn
    rcases List.mem_append.mp hrow with hrow | hrow
    · exact List.mem_append_left _ (elements_rowsListed elements place [] spot es code hrow n hn)
    · -- the row itself, behind the nodes of its elements
      cases List.mem_singleton.mp hrow
      exact List.mem_append_left _ hn

theorem elements_rowsListed : ∀ (es : List Element) (place : Place) (earlier : List Element),
    RowsListed (elementsNodes place earlier es)
  | [], _, _ => by
    rw [elementsNodes]
    exact .nil
  | e :: rest, place, earlier => by
    rw [elementsNodes]
    exact (Element.rowsListed e place earlier).append (elements_rowsListed rest place _)

theorem Element.rowsListed : ∀ (e : Element) (place : Place) (earlier : List Element),
    RowsListed (e.nodes place earlier)
  | .item plucked label body, place, earlier => by
    rw [Element.nodes]
    refine ((RowsListed.toList (Node.label earlier) (fun _ _ _ h => nomatch h) label).append
      (Quantified.rowsListed body place)).append ?_
    split
    · exact .toList Node.namedGroup (fun _ _ _ h => nomatch h) body.group?
    · exact .nil
  | .check _ (.predicate p), place, earlier => by
    rw [Element.nodes]
    exact .node fun _ _ h => nomatch h
  | .check _ (.lookahead body), place, earlier => by
    rw [Element.nodes]
    exact Quantified.rowsListed body place.inLookahead

theorem Quantified.rowsListed : ∀ (body : Quantified) (place : Place), RowsListed (body.nodes place)
  | ⟨expr, quantifier⟩, place => by
    rw [Quantified.nodes]
    exact (Expr.rowsListed expr place).append (Quantifier.rowsListed quantifier place)

theorem Quantifier.rowsListed : ∀ (q : Quantifier) (place : Place), RowsListed (q.nodes place)
  | .separated count separator, place => by
    have hnode : RowsListed [(place, .quantifier (.separated count separator))] :=
      .node fun _ _ h => nomatch h
    exact hnode.append (Expr.rowsListed separator place.inSeparator)
  | .one, place | .optional, place | .zeroOrMore, place | .oneOrMore, place
  | .exact _, place | .range _ _, place | .computed _ _, place => by
    exact .node fun _ _ h => nomatch h

theorem Expr.rowsListed : ∀ (e : Expr) (place : Place), RowsListed (e.nodes place)
  | .class items, place | .ruleRef target, place => by
    rw [Expr.nodes]
    exact .node fun _ _ h => nomatch h
  | .group as, place => by
    have hnode : RowsListed [(place, .choice as)] := .node fun _ _ h => nomatch h
    rw [Expr.nodes]
    exact hnode.append (alternatives_rowsListed as place.inGroup)
  | .literal _, place | .anyChar, place | .endOfInput, place => by
    exact .nil

theorem alternatives_rowsListed : ∀ (as : List Alternative) (place : Place),
    RowsListed (alternativesNodes place as)
  | [], _ => by
    rw [alternativesNodes]
    exact .nil
  | a :: rest, place => by
    rw [alternativesNodes]
    exact (Alternative.rowsListed a place).append (alternatives_rowsListed rest place)

end

theorem rowsListed_nodes (g : Grammar) : RowsListed g.nodes := by
  refine .flatMap fun rule _ => ?_
  have hnode : RowsListed [(rule.place 0, .choice rule.alternatives)] :=
    .node fun _ _ h => nomatch h
  exact hnode.append (.flatMap fun (a, index) _ => a.rowsListed (rule.place index))

/-! ## Idle labels -/

mutual

/-- A row without its idle labels. -/
def Alternative.dropIdle (capturing : Bool) : Alternative → Alternative
  | ⟨elements, action⟩ => ⟨elementsDropIdle capturing elements, action⟩

/-- Elements without their idle labels. -/
def elementsDropIdle (capturing : Bool) : List Element → List Element
  | [] => []
  | e :: rest => e.dropIdle capturing :: elementsDropIdle capturing rest

/-- An element without its idle labels; its own is idle where no values are kept. -/
def Element.dropIdle (capturing : Bool) : Element → Element
  | .item plucked label body =>
    .item plucked (if capturing then label else none) (body.dropIdle capturing)
  | .check negated (.predicate p) => .check negated (.predicate p)
  | .check negated (.lookahead body) => .check negated (.lookahead (body.dropIdle false))

/-- A quantified expression without its idle labels. -/
def Quantified.dropIdle (capturing : Bool) : Quantified → Quantified
  | ⟨expr, quantifier⟩ => ⟨expr.dropIdle capturing, quantifier.dropIdle⟩

/-- A quantifier without the labels of its separator, which are all idle. -/
def Quantifier.dropIdle : Quantifier → Quantifier
  | .separated count separator => .separated count (separator.dropIdle false)
  | quantifier => quantifier

/-- An expression without its idle labels. -/
def Expr.dropIdle (capturing : Bool) : Expr → Expr
  | .group alternatives => .group (alternativesDropIdle capturing alternatives)
  | expr => expr

/-- Alternatives without their idle labels. -/
def alternativesDropIdle (capturing : Bool) : List Alternative → List Alternative
  | [] => []
  | a :: rest => a.dropIdle capturing :: alternativesDropIdle capturing rest

end

/-- A rule without its idle labels. -/
def Rule.dropIdle (rule : Rule) : Rule :=
  { rule with alternatives := alternativesDropIdle true rule.alternatives }

end Grammar

/-- A grammar without its idle labels: those in lookaheads and separators. -/
def Grammar.dropIdle (g : Grammar) : Grammar :=
  { g with rules := g.rules.map Grammar.Rule.dropIdle }

namespace Resolution

open Grammar (Alternative Element Expr Node Place Quantified Quantifier Rule alternativesDropIdle
  alternativesNodes elementsDropIdle elementsNodes)
open Resolved (Matcher isIdentifier resultVar sameName)

/-- Labels where no values are kept are spelled as labels have to be. -/
def IdleNamed (ns : List (Place × Node)) : Prop :=
  ∀ place earlier l, (place, Node.label earlier l) ∈ ns → place.capturing = false →
    isIdentifier l = true ∧ sameName l resultVar = false

namespace IdleNamed

variable {ns ms : List (Place × Node)}

theorem append (h : IdleNamed (ns ++ ms)) : IdleNamed ns ∧ IdleNamed ms :=
  ⟨fun place earlier l hmem => h place earlier l (List.mem_append_left _ hmem),
    fun place earlier l hmem => h place earlier l (List.mem_append_right _ hmem)⟩

theorem tail {n : Place × Node} (h : IdleNamed (n :: ns)) : IdleNamed ns :=
  fun place earlier l hmem => h place earlier l (List.mem_cons_of_mem n hmem)

theorem alternatives {place : Place} : ∀ {as : List Alternative},
    IdleNamed (alternativesNodes place as) →
    ∀ a ∈ as, ∃ spot : Place, spot.capturing = place.capturing ∧ IdleNamed (a.nodes spot)
  | [], _, _, ha => nomatch ha
  | a :: rest, h, b, hb => by
    rw [alternativesNodes] at h
    rcases List.mem_cons.mp hb with rfl | hb
    · exact ⟨place, rfl, h.append.1⟩
    · exact IdleNamed.alternatives h.append.2 b hb

/-- Alternatives of a group, where a context keeps what the place of the group keeps. -/
theorem group {place : Place} {as : List Alternative} {ctx : Context}
    (h : IdleNamed ((Expr.group as).nodes place)) (hplace : place.capturing = ctx.capturing) :
    ∀ a ∈ as, ∃ spot : Place,
      spot.capturing = ctx.enterGroup.capturing ∧ IdleNamed (a.nodes spot) := by
  intro a ha
  rw [Expr.nodes] at h
  obtain ⟨spot, hspot, hnamed⟩ := h.tail.alternatives a ha
  exact ⟨spot, hspot.trans hplace, hnamed⟩

end IdleNamed

/-! ## Parts of resolution -/

section
variable {env : Env} {ctx : Context}

/-- An idle label that is spelled as a label passes, as nothing is bound that it could repeat. -/
theorem checkLabel_dropIdle {label : Option String}
    (h : ctx.capturing = false → ctx.labels = [] ∧
      ∀ l, label = some l → isIdentifier l = true ∧ sameName l resultVar = false) :
    checkLabel ctx (if ctx.capturing then label else none) = checkLabel ctx label := by
  cases hc : ctx.capturing with
  | true => rfl
  | false =>
    cases label with
    | none => rfl
    | some l =>
      obtain ⟨hlabels, hnamed⟩ := h hc
      obtain ⟨hidentifier, hresult⟩ := hnamed l rfl
      have hnone : labelDefect ctx l = none := by
        simp [labelDefect, Context.lookupLabel, hidentifier, hresult, hlabels]
      have hpass : checkLabel ctx (some l) = pure () := by
        unfold checkLabel
        dsimp only
        rw [hnone]
      exact hpass.symm

theorem checkChoice_dropIdle (as : List Alternative) (capturing : Bool) :
    checkChoice ctx (alternativesDropIdle capturing as) = checkChoice ctx as := by
  cases as <;> rfl

theorem predicateSources_dropIdle (capturing : Bool) (es : List Element) :
    predicateSources (elementsDropIdle capturing es) = predicateSources es := by
  induction es with
  | nil => rfl
  | cons e rest ih =>
    have hfirst : predicateSources [e.dropIdle capturing] = predicateSources [e] := by
      cases e with
      | item plucked label body => rfl
      | check negated condition => cases condition <;> rfl
    rw [elementsDropIdle, predicateSources_cons, predicateSources_cons e rest, hfirst, ih]

theorem isPlain_dropIdle (capturing : Bool) (body : Quantified) :
    isPlain (body.dropIdle capturing) = isPlain body := by
  obtain ⟨expr, quantifier⟩ := body
  cases expr <;> cases quantifier <;> rfl

/-- Where no values are kept, the row stays empty. -/
theorem add_of_not_capturing {e : Element} {position : Nat} {r : ResolvedElement} {row : Row}
    {out out' : Emitted} (hc : ctx.capturing = false)
    (h : Yields (resolveElement env (ctx.enterElement position [] []) e) out r out') :
    row.add r = row := by
  have hkeeping : Keeping (ctx.enterElement position [] []) r.element.matcher.matchers
      ([] = [] → [] = [] → r.element.capture = none ∧ r.element.matcher.Silent) :=
    (keeping_closed env).element e h
  obtain ⟨hnone, -⟩ := hkeeping.silent hc rfl rfl
  unfold Row.add
  rw [hnone]

/-! ## Every part of resolution -/

mutual

/-- Alternatives without their idle labels are resolved like those with them. -/
theorem alternatives_dropIdle : ∀ (as : List Alternative) (ctx : Context) (index : Nat),
    (∀ a ∈ as, ∃ place : Place, place.capturing = ctx.capturing ∧ IdleNamed (a.nodes place)) →
    resolveAlternatives env ctx index (alternativesDropIdle ctx.capturing as) =
      resolveAlternatives env ctx index as
  | [], ctx, index, _ => by
    rw [alternativesDropIdle]
  | a :: rest, ctx, index, h => by
    obtain ⟨⟨place, hplace, ha⟩, hrest⟩ := List.forall_mem_cons.mp h
    have hfirst : resolveAlternative env (ctx.enterAlternative index) (a.dropIdle ctx.capturing) =
        resolveAlternative env (ctx.enterAlternative index) a :=
      alternative_dropIdle a (ctx.enterAlternative index) hplace ha
    rw [alternativesDropIdle, resolveAlternatives, resolveAlternatives, hfirst,
      alternatives_dropIdle rest ctx (index + 1) hrest]

theorem alternative_dropIdle : ∀ (a : Alternative) (ctx : Context) {place : Place},
    place.capturing = ctx.capturing → IdleNamed (a.nodes place) →
    resolveAlternative env ctx (a.dropIdle ctx.capturing) = resolveAlternative env ctx a
  | ⟨elements, action⟩, ctx, place, hplace, h => by
    rw [Alternative.nodes] at h
    have hes : resolveElements env (ctx.enterRow (predicateSources elements)) 0 {}
        (elementsDropIdle ctx.capturing elements) =
          resolveElements env (ctx.enterRow (predicateSources elements)) 0 {} elements :=
      elements_dropIdle elements (ctx.enterRow (predicateSources elements)) 0 {} hplace h.append.1
        fun _ => rfl
    rw [Alternative.dropIdle, resolveAlternative, resolveAlternative, predicateSources_dropIdle,
      hes]

theorem elements_dropIdle : ∀ (es : List Element) (ctx : Context) (position : Nat) (row : Row)
    {place : Place} {earlier : List Element}, place.capturing = ctx.capturing →
    IdleNamed (elementsNodes place earlier es) → (ctx.capturing = false → row = {}) →
    resolveElements env ctx position row (elementsDropIdle ctx.capturing es) =
      resolveElements env ctx position row es
  | [], ctx, position, row, _, _, _, _, _ => by
    rw [elementsDropIdle]
  | e :: rest, ctx, position, row, place, earlier, hplace, h, hrow => by
    rw [elementsNodes] at h
    have hfirst : resolveElement env (ctx.enterElement position row.labels row.ruleValues)
        (e.dropIdle ctx.capturing) =
          resolveElement env (ctx.enterElement position row.labels row.ruleValues) e := by
      apply element_dropIdle e (ctx.enterElement position row.labels row.ruleValues) hplace
        h.append.1
      intro hc
      obtain rfl := hrow hc
      rfl
    rw [elementsDropIdle, resolveElements, resolveElements, hfirst]
    apply Yields.bind_congr
    intro out r out' hr
    -- where no values are kept, the element has bound nothing and the row is empty behind it
    have hnext : ctx.capturing = false → row.add r = {} := by
      intro hc
      obtain rfl := hrow hc
      exact add_of_not_capturing hc hr
    rw [elements_dropIdle rest ctx (position + 1) (row.add r) hplace h.append.2 hnext]

theorem element_dropIdle : ∀ (e : Element) (ctx : Context) {place : Place} {earlier : List Element},
    place.capturing = ctx.capturing → IdleNamed (e.nodes place earlier) →
    (ctx.capturing = false → ctx.labels = []) →
    resolveElement env ctx (e.dropIdle ctx.capturing) = resolveElement env ctx e
  | .check negated (.predicate p), ctx, _, _, _, _, _ => by
    rw [Element.dropIdle]
  | .check negated (.lookahead body), ctx, place, _, _, h, _ => by
    rw [Element.nodes] at h
    have hbody : resolveQuantified env ctx.enterLookahead (body.dropIdle false) =
        resolveQuantified env ctx.enterLookahead body :=
      quantified_dropIdle body ctx.enterLookahead rfl h
    rw [Element.dropIdle, resolveElement, resolveElement, hbody]
  | .item plucked label ⟨expr, quantifier⟩, ctx, place, earlier, hplace, h, hlabels => by
    rw [Element.nodes] at h
    have hbody : IdleNamed (Quantified.nodes place ⟨expr, quantifier⟩) := h.append.1.append.2
    have hlabel : checkLabel ctx (if ctx.capturing then label else none) =
        checkLabel ctx label := by
      refine checkLabel_dropIdle fun hc => ⟨hlabels hc, fun l hl => ?_⟩
      subst hl
      exact h.append.1.append.1 place earlier l (List.mem_singleton_self _) (hplace.trans hc)
    -- a label decides about a capture only where values are kept, and there it has stayed
    cases hplain : isPlain ⟨expr, quantifier⟩ with
    | false =>
      rw [Element.dropIdle, resolveElement_item hplain,
        resolveElement_item ((isPlain_dropIdle ctx.capturing _).trans hplain), hlabel,
        quantified_dropIdle ⟨expr, quantifier⟩ ctx hplace hbody]
      refine bind_congr fun _ => bind_congr fun m => ?_
      unfold keeps
      cases ctx.capturing <;> rfl
    | true =>
      rw [Quantified.nodes] at hbody
      match expr, quantifier, hplain, hbody with
      | .ruleRef target, .one, _, _ =>
        have hdrop : Quantified.dropIdle ctx.capturing ⟨.ruleRef target, .one⟩ =
            ⟨.ruleRef target, .one⟩ := rfl
        rw [Element.dropIdle, hdrop, resolveElement, resolveElement, hlabel]
        refine bind_congr fun _ => bind_congr fun call => ?_
        cases ctx.capturing <;> rfl
      | .group as, .one, _, hbody =>
        have hdrop : Quantified.dropIdle ctx.capturing ⟨.group as, .one⟩ =
            ⟨.group (alternativesDropIdle ctx.capturing as), .one⟩ := rfl
        have has : resolveAlternatives env ctx.enterGroup 0
            (alternativesDropIdle ctx.capturing as) = resolveAlternatives env ctx.enterGroup 0 as :=
          alternatives_dropIdle as ctx.enterGroup 0 (hbody.append.1.group hplace)
        rw [Element.dropIdle, hdrop, resolveElement, resolveElement, hlabel, checkChoice_dropIdle,
          has]
        refine bind_congr fun _ => bind_congr fun _ => bind_congr fun rs => ?_
        cases ctx.capturing <;> rfl

theorem quantified_dropIdle : ∀ (body : Quantified) (ctx : Context) {place : Place},
    place.capturing = ctx.capturing → IdleNamed (body.nodes place) →
    resolveQuantified env ctx (body.dropIdle ctx.capturing) = resolveQuantified env ctx body
  | ⟨expr, quantifier⟩, ctx, place, hplace, h => by
    rw [Quantified.nodes] at h
    have hquantifier : ∀ m, resolveQuantifier env ctx m quantifier.dropIdle =
        resolveQuantifier env ctx m quantifier :=
      quantifier_dropIdle quantifier ctx h.append.2
    rw [Quantified.dropIdle, resolveQuantified, resolveQuantified,
      expr_dropIdle expr ctx hplace h.append.1]
    simp only [hquantifier]

theorem quantifier_dropIdle : ∀ (quantifier : Quantifier) (ctx : Context) {place : Place},
    IdleNamed (quantifier.nodes place) → ∀ m : Matcher,
    resolveQuantifier env ctx m quantifier.dropIdle = resolveQuantifier env ctx m quantifier
  | .separated count separator, ctx, place, h, m => by
    rw [Quantifier.nodes] at h
    have hseparator : resolveExpr env ctx.enterSeparator (separator.dropIdle false) =
        resolveExpr env ctx.enterSeparator separator :=
      expr_dropIdle separator ctx.enterSeparator rfl h.tail
    rw [Quantifier.dropIdle, resolveQuantifier, resolveQuantifier, hseparator]
  | .one, ctx, _, _, m | .optional, ctx, _, _, m | .zeroOrMore, ctx, _, _, m
  | .oneOrMore, ctx, _, _, m | .exact _, ctx, _, _, m | .range _ _, ctx, _, _, m
  | .computed _ _, ctx, _, _, m => by
    rfl

theorem expr_dropIdle : ∀ (e : Expr) (ctx : Context) {place : Place},
    place.capturing = ctx.capturing → IdleNamed (e.nodes place) →
    resolveExpr env ctx (e.dropIdle ctx.capturing) = resolveExpr env ctx e
  | .group as, ctx, place, hplace, h => by
    have has : resolveAlternatives env ctx.enterGroup 0 (alternativesDropIdle ctx.capturing as) =
        resolveAlternatives env ctx.enterGroup 0 as :=
      alternatives_dropIdle as ctx.enterGroup 0 (h.group hplace)
    rw [Expr.dropIdle, resolveExpr, resolveExpr, checkChoice_dropIdle, has]
  | .literal _, ctx, _, _, _ | .class _, ctx, _, _, _ | .ruleRef _, ctx, _, _, _
  | .anyChar, ctx, _, _, _ | .endOfInput, ctx, _, _, _ => by
    rfl

end

/-! ## Rules and grammars -/

theorem alternativesDropIdle_eq_map (capturing : Bool) (as : List Alternative) :
    alternativesDropIdle capturing as = as.map (Alternative.dropIdle capturing) := by
  induction as with
  | nil => rfl
  | cons a rest ih => rw [alternativesDropIdle, ih, List.map_cons]

theorem ruleResult_dropIdle (rule : Rule) (types : ActionTypes) :
    ruleResult rule.dropIdle types = ruleResult rule types := by
  have haction (a : Alternative) : (a.dropIdle true).action = a.action := by
    obtain ⟨elements, action⟩ := a
    rfl
  unfold ruleResult Rule.dropIdle
  rw [alternativesDropIdle_eq_map, List.zipIdx_map, List.filterMap_map]
  simp only [Function.comp_def, Prod.map, haction, id]

/-- The table of a grammar does not look at labels. -/
theorem ofRules_dropIdle (rules : List Rule) (types : ActionTypes) :
    Env.ofRules (rules.map Rule.dropIdle) types = Env.ofRules rules types := by
  have hids : (rules.map Rule.dropIdle).map (fun rule => rule.id) =
      rules.map fun rule => rule.id := by
    rw [List.map_map]
    rfl
  unfold Env.ofRules
  dsimp only
  rw [hids, List.filterMap_map]
  simp only [Function.comp_def, ruleResult_dropIdle]
  rfl

theorem rulesDefect_dropIdle (rules : List Rule) :
    rulesDefect (rules.map Rule.dropIdle) = rulesDefect rules := by
  unfold rulesDefect
  rw [List.map_map, List.filter_map, List.map_map]
  rfl

theorem resolveRule_dropIdle {rule : Rule} (h : IdleNamed rule.nodes) :
    resolveRule env rule.dropIdle = resolveRule env rule := by
  have hinfo : env.info rule.dropIdle = env.info rule := by
    rw [Env.info, Env.info, ruleResult_dropIdle]
    rfl
  have hplaces : ∀ a ∈ rule.alternatives,
      ∃ place : Place, place.capturing = true ∧ IdleNamed (a.nodes place) := by
    intro a ha
    obtain ⟨index, hindex⟩ := List.mem_iff_getElem?.mp ha
    refine ⟨rule.place index, rfl, fun place earlier l hmem => h.tail place earlier l ?_⟩
    exact List.mem_flatMap.mpr ⟨(a, index), List.mk_mem_zipIdx_iff_getElem?.mpr hindex, hmem⟩
  have hchoice : ∀ ctx : Context, ctx.capturing = true →
      resolveChoice env ctx rule.dropIdle.alternatives =
        resolveChoice env ctx rule.alternatives := by
    intro ctx hc
    have hall : resolveAlternatives env ctx 0
        (alternativesDropIdle ctx.capturing rule.alternatives) =
          resolveAlternatives env ctx 0 rule.alternatives :=
      alternatives_dropIdle rule.alternatives ctx 0 (by rwa [hc])
    rw [hc] at hall
    rw [resolveChoice, resolveChoice, Rule.dropIdle, checkChoice_dropIdle, hall]
  unfold resolveRule
  rw [hinfo]
  refine bind_congr fun _ => ?_
  dsimp only
  rw [hchoice _ rfl]
  rfl

/-- Resolution does the same without idle labels, if they are spelled as labels have to be. -/
theorem resolveNoted_dropIdle {g : Grammar} (h : IdleNamed g.nodes) (types : ActionTypes) :
    resolveNoted g.dropIdle types = resolveNoted g types := by
  have hrules : ∀ rules : List Rule, (∀ rule ∈ rules, rule ∈ g.rules) →
      (rules.map Rule.dropIdle).mapM (resolveRule (.ofRules g.rules types)) =
        rules.mapM (resolveRule (.ofRules g.rules types)) := by
    intro rules hrules
    induction rules with
    | nil => rfl
    | cons rule rest ih =>
      obtain ⟨hrule, hrest⟩ := List.forall_mem_cons.mp hrules
      have hnodes : IdleNamed rule.nodes := fun place earlier l hmem =>
        h place earlier l (List.mem_flatMap.mpr ⟨rule, hrule, hmem⟩)
      rw [List.map_cons, List.mapM_cons, List.mapM_cons, resolveRule_dropIdle hnodes, ih hrest]
  have hall : resolveRules g.dropIdle types = resolveRules g types := by
    unfold resolveRules Grammar.dropIdle
    rw [rulesDefect_dropIdle, ofRules_dropIdle, hrules g.rules fun _ hrule => hrule]
  unfold resolveNoted
  rw [hall]
  rfl

end

/-- The nodes of an accepted grammar are in order. -/
theorem sound_of_resolve {g : Grammar} {types : ActionTypes} {p : Resolved.Parser}
    (h : resolve g types = .ok p) :
    ∀ n ∈ g.nodes, n.2.Sound (Env.ofRules g.rules types).typeOf n.1 := by
  obtain ⟨-, _, hrules, -⟩ := of_resolve h
  exact (Visited.rules hrules).sound

theorem idleNamed_of_resolve {g : Grammar} {types : ActionTypes} {p : Resolved.Parser}
    (h : resolve g types = .ok p) : IdleNamed g.nodes := by
  intro place earlier l hmem _
  obtain ⟨hidentifier, hresult, -⟩ := sound_of_resolve h _ hmem
  exact ⟨hidentifier, hresult⟩

/-- **Labels are told apart where values are kept, and only there.** In an accepted grammar
each row outside of lookaheads and separators has different labels, at any depth. What stands
in lookaheads and separators has to be spelled as a label and does nothing else: a grammar is
accepted if its labels there are spelled so, repeated or not, and it is accepted without them,
and it becomes the same parser. -/
theorem distinctLabels_of_resolve (g : Grammar) (types : ActionTypes) (p : Resolved.Parser) :
    (resolve g types = .ok p → ∀ place elements action,
      (place, Node.row elements action) ∈ g.nodes → place.capturing = true →
        Grammar.DistinctLabels elements) ∧
    (resolve g types = .ok p ↔ IdleNamed g.nodes ∧ resolve g.dropIdle types = .ok p) := by
  have hsame : IdleNamed g.nodes → resolve g.dropIdle types = resolve g types := by
    intro hnamed
    rw [resolve, resolve, resolveNoted_dropIdle hnamed]
  constructor
  · intro h place elements action hrow hplace
    have hlisted := Grammar.rowsListed_nodes g place elements action hrow
    have hsound := fun n hn => sound_of_resolve h n (hlisted n hn)
    exact Grammar.distinctLabels_of_sound hplace elements [] hsound .nil
  · constructor
    · intro h
      have hnamed := idleNamed_of_resolve h
      exact ⟨hnamed, (hsame hnamed).trans h⟩
    · rintro ⟨hnamed, h⟩
      exact (hsame hnamed).symm.trans h

/-- A row with a label twice, in different cases. -/
def repeatedRow : List Element :=
  [.item false (some "x") ⟨.literal "b", .one⟩, .item false (some "X") ⟨.literal "c", .one⟩]

/-- A rule that looks ahead for such a row, behind an element with the same label. -/
def repeatedAhead : Grammar where
  rules := [⟨"s", true, [⟨[.item false (some "x") ⟨.literal "a", .one⟩,
    .check false (.lookahead ⟨.group [⟨repeatedRow, none⟩], .one⟩)], none⟩]⟩]

/-- The rows of the rule that keep values have different labels, the one in the lookahead has
not, and the grammar is accepted like the one without its labels. -/
theorem repeatedAhead_accepted : ∃ p, resolve repeatedAhead {} = .ok p ∧
    (∀ place elements action, (place, Node.row elements action) ∈ repeatedAhead.nodes →
      place.capturing = true → Grammar.DistinctLabels elements) ∧
    (∃ place, (place, Node.row repeatedRow none) ∈ repeatedAhead.nodes) ∧
    ¬ Grammar.DistinctLabels repeatedRow ∧ resolve repeatedAhead.dropIdle {} = .ok p := by
  have hrules : ((resolve repeatedAhead {}).map fun p => p.rules.length).toOption = some 1 := by cbv
  obtain ⟨p, hp, -⟩ := exists_ok_of_map hrules
  obtain ⟨hdistinct, hsame⟩ := distinctLabels_of_resolve repeatedAhead {} p
  have hlisted : repeatedAhead.nodes[8]? = some (_, Node.row repeatedRow none) := rfl
  have htwice : decide (Grammar.DistinctLabels repeatedRow) = false := by cbv
  exact ⟨p, hp, hdistinct hp, ⟨_, List.mem_of_getElem? hlisted⟩, of_decide_eq_false htwice,
    (hsame.mp hp).2⟩

end Resolution

end PegCompiler
