import PegCompiler.Compiler
import PegCompiler.Proofs.Grammar.Tables
import PegCompiler.Proofs.Text.Lines
import PegCompiler.Proofs.Validity.Visits
/-
  Which entries of the table of declared types count. The table is looked at in two
  places, each in its own way: the type of a rule is read off before the rule is resolved
  (`ruleResult`), and the type of an action when its row has been resolved (`actionValue`).
  Both ask for alternatives of rules that have an action and for nothing else, and both see
  no more of a declaration than what it states (`ActionTypes.stated`).

  FRAME. Two tables that state the same for the actions of a grammar give the same rule
  table, and resolution keeps to it: `alternatives_frame` is one induction over the
  grammar, in which a row inside a group needs nothing, since its action is refused before
  the table is asked. The induction is on equality of computations, so the order of what is
  extracted, the first defect and the notes are the same as well.
-/

namespace PegCompiler

namespace ActionTypes

/-- What a table states for the action of an alternative: the declared type without the
blanks around it. A blank declaration states nothing. -/
def stated (t : ActionTypes) (rule : String) (index : Nat) : Option String :=
  ((t.declared rule index).map Text.trimmed).filter (· != "")

end ActionTypes

namespace Grammar

/-- A rule of the grammar has an action on an alternative with an index. -/
def HasAction (g : Grammar) (id : String) (index : Nat) : Prop :=
  ∃ rule ∈ g.rules, rule.id = id ∧
    ∃ a, rule.alternatives[index]? = some a ∧ a.action.isSome = true

/-- Tables state the same for every action of a grammar. -/
def StatesSame (g : Grammar) (t t' : ActionTypes) : Prop :=
  ∀ id index, g.HasAction id index → t.stated id index = t'.stated id index

end Grammar

/-! ## What a declaration states -/

namespace Resolved

theorem ofDeclaration_eq (declaration : String) : ValueType.ofDeclaration declaration =
    ((some (Text.trimmed declaration)).filter (· != "")).elim .text .declared := by
  unfold ValueType.ofDeclaration
  by_cases hblank : Text.trimmed declaration = ""
  · rw [if_pos (Text.trimmed_eq_empty.mp hblank), hblank]
    rfl
  · rw [if_neg (mt Text.trimmed_eq_empty.mpr hblank), Option.filter_some,
      if_pos (bne_iff_ne.mpr hblank)]
    rfl

/-- The type of an action is the stated one. -/
theorem actionResult_eq (t : ActionTypes) (rule : String) (index : Nat) :
    actionResult t rule index = (t.stated rule index).elim .text .declared := by
  unfold actionResult ActionTypes.stated
  cases t.declared rule index with
  | none => rfl
  | some declaration => exact ofDeclaration_eq declaration

end Resolved

namespace Resolution

open Grammar (Alternative Element Expr Quantified Quantifier)
open Resolved (Matcher ValueType actionResult actionResult_eq ofDeclaration_eq)

/-- The type of a rule is the first one stated for an action of it. -/
theorem ruleResult_eq (rule : Grammar.Rule) (t : ActionTypes) : ruleResult rule t =
    (rule.alternatives.zipIdx.filterMap fun (a, index) =>
      a.action.bind fun _ => t.stated rule.id index).head?.elim .text .declared := by
  unfold ruleResult
  generalize rule.alternatives.zipIdx = as
  induction as with
  | nil => rfl
  | cons a as ih =>
    obtain ⟨a, index⟩ := a
    rw [List.filterMap_cons, List.filterMap_cons]
    dsimp only
    cases a.action with
    | none => exact ih
    | some code =>
      rw [Option.bind_some, ActionTypes.stated]
      dsimp only
      cases t.declared rule.id index with
      | none => exact ih
      | some declaration =>
        rw [Option.map_some, Option.map_some, ofDeclaration_eq, List.find?_cons]
        -- a blank declaration is passed over, and any other one is taken
        cases (some (Text.trimmed declaration)).filter (· != "") with
        | none => exact ih
        | some name => rfl

variable {env env' : Env}

/-! ## Parts that look a rule up -/

theorem ruleCall_frame (hrules : env.rules = env'.rules) (ctx : Context) (target : String) :
    ruleCall env ctx target = ruleCall env' ctx target := by
  unfold ruleCall Env.rule
  rw [hrules]

/-- The declared types agree on the action of an alternative, which is asked for only at
the alternatives of a rule. -/
def AgreeAt (env env' : Env) (ctx : Context) (action : Option String) : Prop :=
  ctx.isNested = false → action.isSome = true →
    actionResult env.types ctx.rule ctx.alternative =
      actionResult env'.types ctx.rule ctx.alternative

/-- Nothing follows a refusal. -/
theorem refuse_bind {α β : Type} (ctx : Context) (defect : Defect) (f : α → Resolve β) :
    (refuse ctx defect >>= f) = refuse ctx defect :=
  rfl

theorem rowValue_frame {ctx : Context} {action : Option String}
    (h : AgreeAt env env' ctx action) (row : Row) :
    rowValue env ctx row action = rowValue env' ctx row action := by
  cases action with
  | none => rfl
  | some code =>
    unfold rowValue actionValue
    dsimp only
    cases hnested : ctx.isNested with
    | true => rw [if_pos rfl, if_pos rfl, refuse_bind, refuse_bind]
    | false => rw [h hnested rfl]

/-- In groups no declared type is looked up. -/
theorem group_frame {as : List Alternative} (h : ∀ (ctx : Context) (index : Nat),
    (∀ i a, as[i]? = some a → AgreeAt env env' (ctx.enterAlternative (index + i)) a.action) →
    resolveAlternatives env ctx index as = resolveAlternatives env' ctx index as) (ctx : Context) :
    resolveAlternatives env ctx.enterGroup 0 as = resolveAlternatives env' ctx.enterGroup 0 as := by
  apply h
  intro i a _ hnested
  exact absurd (isNested_enterGroup ctx) (Bool.eq_false_iff.mp hnested)

/-! ## Every part of resolution -/

mutual

theorem alternatives_frame (hrules : env.rules = env'.rules) : ∀ (as : List Alternative)
    (ctx : Context) (index : Nat),
    (∀ i a, as[i]? = some a → AgreeAt env env' (ctx.enterAlternative (index + i)) a.action) →
    resolveAlternatives env ctx index as = resolveAlternatives env' ctx index as
  | [] => fun ctx index _ => by
    rw [resolveAlternatives, resolveAlternatives]
  | a :: rest => fun ctx index h => by
    have hfirst : resolveAlternative env (ctx.enterAlternative index) a =
        resolveAlternative env' (ctx.enterAlternative index) a :=
      alternative_frame hrules a _ (h 0 a rfl)
    have hrest : resolveAlternatives env ctx (index + 1) rest =
        resolveAlternatives env' ctx (index + 1) rest := by
      apply alternatives_frame hrules rest
      intro i b hb
      rw [Nat.add_assoc, Nat.add_comm 1 i]
      exact h (i + 1) b hb
    rw [resolveAlternatives, resolveAlternatives, hfirst, hrest]

theorem alternative_frame (hrules : env.rules = env'.rules) : ∀ (a : Alternative) (ctx : Context),
    AgreeAt env env' ctx a.action →
    resolveAlternative env ctx a = resolveAlternative env' ctx a
  | ⟨elements, action⟩ => fun ctx h => by
    have hvalue : ∀ row, rowValue env (ctx.enterRow (predicateSources elements)) row action =
        rowValue env' (ctx.enterRow (predicateSources elements)) row action :=
      fun row => rowValue_frame (fun hnested hsome => h hnested hsome) row
    rw [resolveAlternative, resolveAlternative, elements_frame hrules elements]
    simp only [hvalue]

theorem elements_frame (hrules : env.rules = env'.rules) : ∀ (es : List Element) (ctx : Context)
    (position : Nat) (row : Row),
    resolveElements env ctx position row es = resolveElements env' ctx position row es
  | [] => fun ctx position row => by
    rw [resolveElements, resolveElements]
  | e :: rest => fun ctx position row => by
    have hrest : ∀ e : ResolvedElement, resolveElements env ctx (position + 1) (row.add e) rest =
        resolveElements env' ctx (position + 1) (row.add e) rest :=
      fun e => elements_frame hrules rest ctx (position + 1) (row.add e)
    rw [resolveElements, resolveElements, element_frame hrules e]
    simp only [hrest]

theorem element_frame (hrules : env.rules = env'.rules) : ∀ (e : Element) (ctx : Context),
    resolveElement env ctx e = resolveElement env' ctx e
  | .check negated (.predicate p) => fun ctx => by
    rw [resolveElement, resolveElement]
  | .check negated (.lookahead body) => fun ctx => by
    rw [resolveElement, resolveElement, quantified_frame hrules body]
  | .item plucked label ⟨expr, quantifier⟩ => fun ctx => by
    cases hplain : isPlain ⟨expr, quantifier⟩ with
    | false =>
      rw [resolveElement_item hplain, resolveElement_item hplain,
        quantified_frame hrules ⟨expr, quantifier⟩]
    | true =>
      match expr, quantifier, hplain with
      | .ruleRef target, .one, _ =>
        rw [resolveElement, resolveElement, ruleCall_frame hrules]
      | .group as, .one, _ =>
        rw [resolveElement, resolveElement, group_frame (alternatives_frame hrules as)]

theorem quantified_frame (hrules : env.rules = env'.rules) : ∀ (body : Quantified) (ctx : Context),
    resolveQuantified env ctx body = resolveQuantified env' ctx body
  | ⟨expr, quantifier⟩ => fun ctx => by
    have hquantifier : ∀ m, resolveQuantifier env ctx m quantifier =
        resolveQuantifier env' ctx m quantifier :=
      quantifier_frame hrules quantifier ctx
    rw [resolveQuantified, resolveQuantified, expr_frame hrules expr]
    simp only [hquantifier]

/-- Only a separator looks anything up. -/
theorem quantifier_frame (hrules : env.rules = env'.rules) : ∀ (quantifier : Quantifier)
    (ctx : Context) (body : Matcher),
    resolveQuantifier env ctx body quantifier = resolveQuantifier env' ctx body quantifier
  | .separated count separator, ctx, body => by
    rw [resolveQuantifier, resolveQuantifier, expr_frame hrules separator]
  | .one, ctx, body | .optional, ctx, body | .zeroOrMore, ctx, body | .oneOrMore, ctx, body
  | .exact _, ctx, body | .range _ _, ctx, body | .computed _ _, ctx, body => by
    rw [resolveQuantifier, resolveQuantifier]

theorem expr_frame (hrules : env.rules = env'.rules) : ∀ (e : Expr) (ctx : Context),
    resolveExpr env ctx e = resolveExpr env' ctx e
  | .ruleRef target, ctx => by
    rw [resolveExpr, resolveExpr, ruleCall_frame hrules]
  | .group as, ctx => by
    rw [resolveExpr, resolveExpr, group_frame (alternatives_frame hrules as)]
  | .literal _, ctx | .class _, ctx | .anyChar, ctx | .endOfInput, ctx => by
    rw [resolveExpr, resolveExpr]

end

/-! ## Rules and grammars -/

section
variable {g : Grammar} {t t' : ActionTypes}

theorem ruleResult_frame (h : g.StatesSame t t') {rule : Grammar.Rule} (hrule : rule ∈ g.rules) :
    ruleResult rule t = ruleResult rule t' := by
  have hstated : ∀ x ∈ rule.alternatives.zipIdx,
      (x.1.action.bind fun _ => t.stated rule.id x.2) =
        x.1.action.bind fun _ => t'.stated rule.id x.2 := by
    intro (a, index) hx
    have ha : rule.alternatives[index]? = some a := List.mk_mem_zipIdx_iff_getElem?.mp hx
    dsimp only
    cases haction : a.action with
    | none => rfl
    | some code => exact h rule.id index ⟨rule, hrule, rfl, a, ha, by rw [haction]; rfl⟩
  rw [ruleResult_eq, ruleResult_eq, List.filterMap_congr hstated]

theorem ofRules_frame (h : g.StatesSame t t') :
    (Env.ofRules g.rules t).rules = (Env.ofRules g.rules t').rules := by
  apply List.filterMap_congr
  intro rule hrule
  rw [ruleResult_frame h hrule]

theorem resolveRule_frame (h : g.StatesSame t t') {rule : Grammar.Rule} (hrule : rule ∈ g.rules) :
    resolveRule (.ofRules g.rules t) rule = resolveRule (.ofRules g.rules t') rule := by
  have hrules := ofRules_frame h
  have hinfo : (Env.ofRules g.rules t).info rule = (Env.ofRules g.rules t').info rule := by
    have htype : ruleResult rule (Env.ofRules g.rules t).types =
        ruleResult rule (Env.ofRules g.rules t').types := ruleResult_frame h hrule
    rw [Env.info, Env.info, Env.rule, Env.rule, hrules, htype]
  have hchoice : ∀ ctx : Context, ctx.rule = rule.id →
      resolveAlternatives (.ofRules g.rules t) ctx 0 rule.alternatives =
        resolveAlternatives (.ofRules g.rules t') ctx 0 rule.alternatives := by
    intro ctx hctx
    apply alternatives_frame hrules
    intro i a ha _ hsome
    have hstated : t.stated rule.id i = t'.stated rule.id i :=
      h rule.id i ⟨rule, hrule, rfl, a, ha, hsome⟩
    change actionResult t ctx.rule (0 + i) = actionResult t' ctx.rule (0 + i)
    rw [hctx, Nat.zero_add, actionResult_eq, actionResult_eq, hstated]
  unfold resolveRule resolveChoice
  rw [hinfo]
  simp only [hchoice]

theorem resolveRules_frame (h : g.StatesSame t t') : resolveRules g t = resolveRules g t' := by
  have hmapM : ∀ rules : List Grammar.Rule, (∀ rule ∈ rules, rule ∈ g.rules) →
      rules.mapM (resolveRule (.ofRules g.rules t)) =
        rules.mapM (resolveRule (.ofRules g.rules t')) := by
    intro rules hrules
    induction rules with
    | nil => rw [List.mapM_nil, List.mapM_nil]
    | cons rule rest ih =>
      obtain ⟨hrule, hrest⟩ := List.forall_mem_cons.mp hrules
      rw [List.mapM_cons, List.mapM_cons, resolveRule_frame h hrule, ih hrest]
  unfold resolveRules
  rw [hmapM g.rules fun _ hrule => hrule]

/-- Resolution has the same result and the same notes. -/
theorem resolveNoted_frame (h : g.StatesSame t t') : resolveNoted g t = resolveNoted g t' := by
  unfold resolveNoted
  rw [resolveRules_frame h]

end

end Resolution

/-! ## Documents -/

/-- **Only what is stated for actions counts.** Tables that state the same for the actions
of a grammar give the same document with the same functions, or the same error. An entry
for a rule or an alternative that there is not, or for an alternative without an action,
changes nothing. -/
theorem compile_statesSame (g : Grammar) (o : Options) :
    (∀ t t', g.StatesSame t t' → compile g t o = compile g t' o) ∧
    ∀ t e, ¬ g.HasAction e.rule e.alternative.toNat → compile g (t.insert e) o = compile g t o := by
  have hsame : ∀ t t', g.StatesSame t t' → compile g t o = compile g t' o := by
    intro t t' h
    unfold compile Resolution.resolve
    rw [Resolution.resolveNoted_frame h]
  refine ⟨hsame, fun t e hnone => hsame _ _ fun id index haction => ?_⟩
  have hother : ¬ (e.rule = id ∧ e.alternative.toNat = index) := by
    rintro ⟨rfl, rfl⟩
    exact hnone haction
  rw [ActionTypes.stated, ActionTypes.stated, ActionTypes.declared_insert_of_ne hother]

/-- Two rules with typed actions, and an alternative without an action. -/
def measured : Grammar where
  rules := [
    ⟨"S", true, [⟨[.item false (some "x") ⟨.ruleRef "A", .one⟩], some "res = x"⟩,
      ⟨[.item true none ⟨.ruleRef "A", .one⟩], none⟩]⟩,
    ⟨"A", false, [⟨[.item false none ⟨.literal "a", .one⟩], some "res = 1"⟩]⟩]

def measuredTypes : ActionTypes where
  entries := [⟨"A", 0, "integer"⟩, ⟨"S", 0, "integer"⟩]

/-- The types of `measured` with blanks around them, among entries that do not count. -/
def spacedTypes : ActionTypes where
  entries := [⟨"A", 0, " integer"⟩, ⟨"B", 0, "real"⟩, ⟨"S", 0, "integer "⟩, ⟨"S", 1, "real"⟩,
    ⟨"S", 9, "real"⟩]

theorem measured_statesSame :
    ((Resolution.resolve measured measuredTypes).toOption.map fun p =>
      p.rules.map fun r => r.resultType) = some [.declared "integer", .declared "integer"] ∧
    (measured.StatesSame measuredTypes spacedTypes ∧
      compile measured measuredTypes {} = compile measured spacedTypes {}) ∧
    ¬ measured.HasAction "S" 1 ∧
      compile measured (measuredTypes.insert ⟨"S", 1, "real"⟩) {} =
        compile measured measuredTypes {} := by
  have hactions : ∀ id index, measured.HasAction id index →
      id = "S" ∧ index = 0 ∨ id = "A" ∧ index = 0 := by
    rintro id index ⟨rule, hrule, rfl, a, ha, hsome⟩
    simp only [measured, List.mem_cons, List.not_mem_nil, or_false] at hrule
    rcases hrule with rfl | rfl
    · match index, ha with
      | 0, _ => exact .inl ⟨rfl, rfl⟩
      | 1, ha =>
        obtain rfl := Option.some.inj ha
        cases hsome
    · match index, ha with
      | 0, _ => exact .inr ⟨rfl, rfl⟩
  have hsame : measured.StatesSame measuredTypes spacedTypes := by
    intro id index haction
    obtain ⟨rfl, rfl⟩ | ⟨rfl, rfl⟩ := hactions id index haction
    · decide +kernel
    · decide +kernel
  have hnone : ¬ measured.HasAction "S" 1 := by
    intro haction
    rcases hactions _ _ haction with ⟨-, hindex⟩ | ⟨-, hindex⟩
    · cases hindex
    · cases hindex
  refine ⟨by decide +kernel, ⟨hsame, ?_⟩, hnone, ?_⟩
  · exact (compile_statesSame measured {}).1 _ _ hsame
  · exact (compile_statesSame measured {}).2 _ ⟨"S", 1, "real"⟩ hnone

end PegCompiler
