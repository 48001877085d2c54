import PegCompiler.Proofs.Lowering.Modules
import PegCompiler.Proofs.Resolution.Groups
/-
  The code of a grammar's author in the order of the grammar. Predicates and actions of a
  rule become functions in the order of the text, a predicate inside an alternative in
  front of the action of the alternative, and every function is called in one place only.

  The invariant (`Adds`) says what a node adds to what was extracted before it: as many
  predicates as it has, with numbers that go on from the last one of the rule, and calls
  of just these functions in the same order.
-/

namespace PegCompiler

/-! ## Predicates of a grammar -/

namespace Grammar

mutual

/-- The predicates of an alternative, at every depth and in the order of the text. -/
def Alternative.predicates : Alternative → List Predicate
  | ⟨elements, _⟩ => elementsPredicates elements

/-- The predicates of elements in a row. -/
def elementsPredicates : List Element → List Predicate
  | [] => []
  | e :: rest => e.predicates ++ elementsPredicates rest

/-- The predicates of an element. -/
def Element.predicates : Element → List Predicate
  | .item _ _ body => body.predicates
  | .check _ (.predicate p) => [p]
  | .check _ (.lookahead body) => body.predicates

/-- The predicates of a quantified expression: those of a separator come last. -/
def Quantified.predicates : Quantified → List Predicate
  | ⟨expr, quantifier⟩ => expr.predicates ++ quantifier.predicates

/-- The predicates of a quantifier. -/
def Quantifier.predicates : Quantifier → List Predicate
  | .separated _ separator => separator.predicates
  | _ => []

/-- The predicates of an expression. -/
def Expr.predicates : Expr → List Predicate
  | .group alternatives => alternativesPredicates alternatives
  | _ => []

/-- The predicates of alternatives one after another. -/
def alternativesPredicates : List Alternative → List Predicate
  | [] => []
  | a :: rest => a.predicates ++ alternativesPredicates rest

end

end Grammar

/-! ## Calls of a parser -/

namespace Resolved

/-- The functions that the value of a row calls. -/
def AltResult.calls : AltResult → List String
  | .action call => [call.function]
  | _ => []

mutual

/-- The functions that a matcher calls, one entry for each place of a call. -/
def Matcher.calls : Matcher → List String
  | .call call => [call.function]
  | .choice choice => choice.calls
  | .repeat body _ _ separator => body.calls ++ separatorCalls separator
  | .lookahead _ body => body.calls
  | .predicate _ call => [call.function]
  | .literal _ | .class _ | .anyChar | .endOfInput => []

/-- The functions that a separator calls, if there is one. -/
def separatorCalls : Option Matcher → List String
  | none => []
  | some m => m.calls

/-- The functions that a choice calls. -/
def Choice.calls : Choice → List String
  | ⟨alternatives, _⟩ => alternativesCalls alternatives

/-- The functions that alternatives call. -/
def alternativesCalls : List Alternative → List String
  | [] => []
  | a :: rest => a.calls ++ alternativesCalls rest

/-- The functions that a row and its value call. -/
def Alternative.calls : Alternative → List String
  | ⟨elements, result, _⟩ => elementsCalls elements ++ result.calls

/-- The functions that elements call. -/
def elementsCalls : List Element → List String
  | [] => []
  | e :: rest => e.calls ++ elementsCalls rest

/-- The functions that an element calls. -/
def Element.calls : Element → List String
  | ⟨m, _⟩ => m.calls

end

/-- The functions that all rules of a parser call. -/
def Parser.calls (p : Parser) : List String :=
  p.rules.flatMap fun rule => rule.body.calls

end Resolved

namespace Resolution

open Grammar (Alternative Predicate alternativesPredicates elementsPredicates)
open Resolved (ActionKind BaseName RuleNames actionFunction alternativesCalls elementsCalls
  predicateFunction)

/-! ## Extracted functions -/

/-- An extracted function as the author knows it: what it was made from, its name, and its
code. -/
structure Extract where
  kind : ActionKind
  function : String
  code : String
  deriving DecidableEq

def extractOf (a : Resolved.Action) : Extract :=
  ⟨a.kind, a.function, a.code⟩

/-- The functions of predicates of a rule, numbered from `first` on. -/
def predicateExtracts (base : BaseName) (first : Nat) (ps : List Predicate) : List Extract :=
  (ps.zipIdx first).map fun (p, n) => ⟨.predicate, predicateFunction base n, p.code⟩

/-- The function of the action of an alternative, if it has one. -/
def actionExtract (base : BaseName) (index : Nat) (action : Option String) : List Extract :=
  (action.map fun code => ⟨.action, actionFunction base index, code⟩).toList

/-- The functions of alternatives of a rule, where `first` predicates of the rule stand in
front of them: for each alternative its predicates and then its action. -/
def choiceExtracts (base : BaseName) : (index first : Nat) → List Alternative → List Extract
  | _, _, [] => []
  | index, first, a :: rest =>
    predicateExtracts base first a.predicates ++ actionExtract base index a.action ++
      choiceExtracts base (index + 1) (first + a.predicates.length) rest

/-- The functions of a rule. -/
def ruleExtracts (base : BaseName) (rule : Grammar.Rule) : List Extract :=
  choiceExtracts base 0 0 rule.alternatives

theorem predicateExtracts_append (base : BaseName) (first : Nat) (ps qs : List Predicate) :
    predicateExtracts base first (ps ++ qs) =
      predicateExtracts base first ps ++ predicateExtracts base (first + ps.length) qs := by
  unfold predicateExtracts
  rw [List.zipIdx_append, List.map_append]

/-- Whether a name is that of an extracted function. -/
def isExtracted (name : String) : Bool :=
  Naming.word name == "pred".toList || Naming.word name == "action".toList

theorem isExtracted_predicate (base : BaseName) (n : Nat) :
    isExtracted (predicateFunction base n) = true := by
  simp [isExtracted, Naming.word_predicateFunction]

theorem isExtracted_action (base : BaseName) (n : Nat) :
    isExtracted (actionFunction base n) = true := by
  simp [isExtracted, Naming.word_actionFunction]

/-! ## What a node adds -/

/-- A node of a rule adds functions to those extracted before it, `count` predicates among
them, and is made of calls that are of just these functions, apart from those of rules. -/
structure Adds (rule : String) (extracts : List Extract) (count : Nat) (calls : List String)
    (out out' : Emitted) : Prop where
  actions : ∃ new, out'.actions = out.actions ++ new ∧ new.map extractOf = extracts ∧
    calls.filter isExtracted = new.map fun a => a.function
  counts : ∀ other, out'.predicateCount other =
    out.predicateCount other + if other = rule then count else 0

/-- A node adds its predicates. -/
def AddsPredicates (rule : String) (base : BaseName) (ps : List Predicate) (calls : List String)
    (out out' : Emitted) : Prop :=
  Adds rule (predicateExtracts base (out.predicateCount rule) ps) ps.length calls out out'

section
variable {rule : String} {base : BaseName} {es fs : List Extract} {m n : Nat} {cs ds : List String}
  {ps qs : List Predicate} {out mid out' : Emitted}

namespace Adds

theorem nothing (hcalls : cs.filter isExtracted = []) : Adds rule [] 0 cs out out where
  actions := ⟨[], (List.append_nil _).symm, rfl, hcalls⟩
  counts other := by split <;> rfl

theorem append (h : Adds rule es m cs out mid) (h' : Adds rule fs n ds mid out') :
    Adds rule (es ++ fs) (m + n) (cs ++ ds) out out' where
  actions := by
    obtain ⟨new, hnew, rfl, hcalls⟩ := h.actions
    obtain ⟨more, hmore, rfl, hcalls'⟩ := h'.actions
    refine ⟨new ++ more, ?_, List.map_append, ?_⟩
    · rw [hmore, hnew, List.append_assoc]
    · rw [List.filter_append, hcalls, hcalls', List.map_append]
  counts other := by
    rw [h'.counts, h.counts, Nat.add_assoc]
    split <;> omega

theorem addNote (h : Adds rule es m cs out out') (note : Note) :
    Adds rule es m cs out (out'.addNote note) :=
  ⟨h.actions, h.counts⟩

theorem of_addNote {note : Note} (h : Adds rule es m cs (out.addNote note) out') :
    Adds rule es m cs out out' :=
  ⟨h.actions, h.counts⟩

/-- The predicates of the rule are those before the node and its own. -/
theorem count (h : Adds rule es m cs out out') :
    out'.predicateCount rule = out.predicateCount rule + m := by
  rw [h.counts, if_pos rfl]

/-- The value of an alternative of a rule adds the function of its action. -/
theorem rowValue {env : Env} {ctx : Context} {row : Row} {action : Option String}
    {result : Resolved.AltResult} {type : Resolved.ValueType}
    (h : Yields (rowValue env ctx row action) out (result, type) out') :
    Adds rule (actionExtract ctx.base ctx.alternative action) 0 result.calls out out' := by
  cases action with
  | some code =>
    obtain ⟨-, -, rfl, rfl⟩ := of_rowValue_some h
    constructor
    · exact ⟨[rowAction env ctx row.labels code], rfl, rfl,
        List.filter_cons_of_pos (isExtracted_action ..)⟩
    · intro other
      split <;> rfl
  | none =>
    obtain ⟨rfl, hjoined⟩ := of_rowValue_none h
    generalize row.valueCaptures = captures at hjoined
    cases hjoined <;> exact .nothing rfl

end Adds

namespace AddsPredicates

theorem nothing (hcalls : cs.filter isExtracted = []) : AddsPredicates rule base [] cs out out :=
  Adds.nothing hcalls

theorem append (h : AddsPredicates rule base ps cs out mid)
    (h' : AddsPredicates rule base qs ds mid out') :
    AddsPredicates rule base (ps ++ qs) (cs ++ ds) out out' := by
  unfold AddsPredicates at h h' ⊢
  rw [h.count] at h'
  rw [predicateExtracts_append, List.length_append]
  exact Adds.append h h'

theorem addNote (h : AddsPredicates rule base ps cs out out') (note : Note) :
    AddsPredicates rule base ps cs out (out'.addNote note) :=
  Adds.addNote h note

/-- A predicate adds its function and its call. -/
theorem predicate {ctx : Context} {p : Predicate} {call : Resolved.ActionCall}
    (h : Yields (resolvePredicate ctx p) out call out') :
    AddsPredicates ctx.rule ctx.base [p] [call.function] out out' := by
  obtain ⟨sourced, -, -, rfl, rfl⟩ := of_resolvePredicate h
  constructor
  · exact ⟨[_], rfl, rfl, List.filter_cons_of_pos (isExtracted_predicate ..)⟩
  · intro other
    show (out.nextPredicate ctx.rule).2.predicateCount other = _
    rw [predicateCount_next]
    split
    next hrule => rw [hrule]; rfl
    next => rfl

/-- A call of a rule adds nothing. -/
theorem ruleCall {env : Env} {ctx : Context} {target : String} {call : Resolved.RuleCall}
    (henv : ∀ {target info}, env.rule target = some info → isExtracted info.function = false)
    (h : Yields (ruleCall env ctx target) out call out') :
    AddsPredicates rule base [] [call.function] out out' := by
  obtain ⟨info, hinfo, rfl, rfl⟩ | ⟨-, rfl, rfl⟩ := of_ruleCall h
  · exact nothing (List.filter_cons_of_neg (by simp [henv hinfo]))
  · have hcalls : [""].filter isExtracted = [] := by decide
    have hsame : AddsPredicates rule base [] [""] out out := nothing hcalls
    exact ⟨hsame.actions, hsame.counts⟩

/-- The value of a row in a group calls nothing. -/
theorem rowValue {env : Env} {ctx : Context} {row : Row} {action : Option String}
    {result : Resolved.AltResult} {type : Resolved.ValueType} (hpath : ctx.path ≠ [])
    (h : Yields (rowValue env ctx row action) out (result, type) out') :
    AddsPredicates rule base [] result.calls out out' := by
  cases action with
  | some code => exact absurd (of_rowValue_some h).1 hpath
  | none => exact Adds.rowValue h

end AddsPredicates

end

/-! ## Every part of resolution -/

/-- Nodes add their predicates, and alternatives of a rule also their actions. -/
def adding : Relations where
  alternatives ctx i out as rs out' :=
    (ctx.path ≠ [] → AddsPredicates ctx.rule ctx.base (alternativesPredicates as)
      (alternativesCalls rs) out out') ∧
    (ctx.path = [] → Adds ctx.rule (choiceExtracts ctx.base i (out.predicateCount ctx.rule) as)
      (alternativesPredicates as).length (alternativesCalls rs) out out')
  alternative ctx out a r out' :=
    (ctx.path ≠ [] → AddsPredicates ctx.rule ctx.base a.predicates r.calls out out') ∧
    (ctx.path = [] → Adds ctx.rule
      (predicateExtracts ctx.base (out.predicateCount ctx.rule) a.predicates ++
        actionExtract ctx.base ctx.alternative a.action) a.predicates.length r.calls out out')
  elements ctx _ _ out es rs _ out' :=
    AddsPredicates ctx.rule ctx.base (elementsPredicates es) (elementsCalls rs) out out'
  element ctx out e r out' :=
    AddsPredicates ctx.rule ctx.base e.predicates r.element.calls out out'
  quantified ctx out body m out' :=
    AddsPredicates ctx.rule ctx.base body.predicates m.calls out out'
  expr ctx out e m out' := AddsPredicates ctx.rule ctx.base e.predicates m.calls out out'

theorem bounded_predicates {quantifier : Grammar.Quantifier} {min : Resolved.Bound}
    {max : Option Resolved.Bound} (h : Bounded quantifier min max) : quantifier.predicates = [] := by
  cases h <;> simp [Grammar.Quantifier.predicates]

theorem calls_keptIf (keep : Bool) (ctx : Context) (plucked : Bool) (label rule : Option String)
    (m : Resolved.Matcher) (type : Resolved.ValueType) (source : Resolved.CaptureSource) :
    (keptIf keep ctx plucked label rule m type source).element.calls = m.calls := by
  cases keep <;> exact Resolved.Element.calls.eq_1 ..

theorem adding_closed {env : Env}
    (henv : ∀ {target info}, env.rule target = some info → isExtracted info.function = false) :
    adding.Closed env where
  noAlternatives := ⟨fun _ => .nothing rfl, fun _ => .nothing rfl⟩
  moreAlternatives {ctx i out a rest r rs mid out'} ha hrest := by
    refine ⟨fun hpath => ?_, fun hpath => ?_⟩
    · have hfirst : AddsPredicates ctx.rule ctx.base a.predicates r.calls out mid :=
        (ha.1 hpath).of_addNote
      exact hfirst.append (hrest.1 hpath)
    · have hfirst : Adds ctx.rule
          (predicateExtracts ctx.base (out.predicateCount ctx.rule) a.predicates ++
            actionExtract ctx.base i a.action) a.predicates.length r.calls out mid :=
        (ha.2 hpath).of_addNote
      have hmore := hrest.2 hpath
      rw [hfirst.count] at hmore
      show Adds ctx.rule (_ ++ choiceExtracts ..) (a.predicates ++ alternativesPredicates rest).length
        (r.calls ++ alternativesCalls rs) out out'
      rw [List.length_append]
      exact hfirst.append hmore
  row {ctx out elements action es row mid result type out'} hes hvalue := by
    have hes : AddsPredicates ctx.rule ctx.base (elementsPredicates elements) (elementsCalls es)
        out mid := hes
    refine ⟨fun hpath => ?_, fun hpath => ?_⟩
    · have h := hes.append (AddsPredicates.rowValue hpath hvalue)
      rwa [List.append_nil] at h
    · exact Adds.append hes (.rowValue hvalue)
  noElements := .nothing rfl
  moreElements {ctx position row out e rest r rs row' mid out'} he hrest := by
    have he : AddsPredicates ctx.rule ctx.base e.predicates r.element.calls out mid := he
    exact he.append hrest
  predicate h := .predicate h
  lookahead h := h
  reference {ctx out plucked label target call out'} _ hcall := by
    show AddsPredicates _ _ _ (keptIf ..).element.calls _ _
    rw [calls_keptIf]
    exact .ruleCall henv hcall
  group {ctx out plucked label alternatives rs out'} _ _ h _ := by
    show AddsPredicates ctx.rule ctx.base (alternativesPredicates alternatives ++ [])
      (keptIf ..).element.calls out out'
    rw [calls_keptIf, List.append_nil]
    exact h.1 (Numbered.path_enterGroup ctx)
  item {ctx out plucked label body m out'} _ _ h := by
    show AddsPredicates _ _ _ (keptIf ..).element.calls _ _
    rw [calls_keptIf]
    exact h
  once {ctx out expr m out'} h := by
    show AddsPredicates ctx.rule ctx.base (expr.predicates ++ []) m.calls out out'
    rw [List.append_nil]
    exact h
  repeated {ctx out expr quantifier min max m out'} h hbounded := by
    show AddsPredicates ctx.rule ctx.base (expr.predicates ++ quantifier.predicates) (m.calls ++ [])
      out _
    rw [bounded_predicates hbounded, List.append_nil, List.append_nil]
    exact h.addNote _
  separated {ctx out expr separator m s mid out' count} h _ hs := by
    have h : AddsPredicates ctx.rule ctx.base expr.predicates m.calls out mid := h
    exact (h.append hs).addNote _
  literal := .nothing rfl
  charClass _ := .nothing rfl
  ruleRef hcall := .ruleCall henv hcall
  anyChar := .nothing rfl
  endOfInput := .nothing rfl
  nested {ctx out alternatives rs out'} _ h := h.1 (Numbered.path_enterGroup ctx)

/-! ## Rules one after another -/

/-- The functions of the rules of a table are not extracted. -/
theorem isExtracted_ofRules {rules : List Grammar.Rule} {types : ActionTypes} {target : String}
    {info : RuleInfo} (h : (Env.ofRules rules types).rule target = some info) :
    isExtracted info.function = false := by
  obtain ⟨rule, -, base, -, -, rfl⟩ := rule_ofRules_some h
  have hword : Naming.word (Resolved.ruleFunction base) = "peg".toList := Naming.word_ruleFunction base
  simp [entry, isExtracted, hword]

theorem adds_rule {env : Env}
    (henv : ∀ {target info}, env.rule target = some info → isExtracted info.function = false)
    {rule : Grammar.Rule} {r : Resolved.Rule} {out out' : Emitted}
    (h : Yields (resolveRule env rule) out r out') (hcount : out.predicateCount rule.id = 0) :
    Adds rule.id (ruleExtracts (env.info rule).base rule)
      (alternativesPredicates rule.alternatives).length r.body.calls out out' := by
  obtain ⟨-, rs, hrs, -, rfl⟩ := of_resolveRule h
  have hadds : Adds rule.id (choiceExtracts (env.info rule).base 0 (out.predicateCount rule.id)
      rule.alternatives) (alternativesPredicates rule.alternatives).length (alternativesCalls rs)
      out out' := ((adding_closed henv).alternatives _ hrs).2 rfl |>.of_addNote
  rw [hcount] at hadds
  exact hadds

/-- The rules of a grammar add their functions one after another. -/
theorem extracts_of_rules {env : Env}
    (henv : ∀ {target info}, env.rule target = some info → isExtracted info.function = false) :
    ∀ {rules : List Grammar.Rule} {rs : List Resolved.Rule} {out out' : Emitted},
      Yields (rules.mapM (resolveRule env)) out rs out' → (rules.map fun r => r.id).Nodup →
      (∀ r ∈ rules, out.predicateCount r.id = 0) →
      ∃ groups, out'.actions = out.actions ++ groups.flatten ∧
        List.Forall₂ (fun rule actions =>
          actions.map extractOf = ruleExtracts (env.info rule).base rule) rules groups ∧
        (rs.flatMap fun r => r.body.calls).filter isExtracted =
          groups.flatten.map fun a => a.function
  | [], _, _, _, h, _, _ => by
    obtain ⟨rfl, rfl⟩ := Yields.mapM_nil_iff.mp h
    exact ⟨[], (List.append_nil _).symm, .nil, rfl⟩
  | rule :: rest, _, out, out', h, hids, hcounts => by
    obtain ⟨r, mid, hr, rs, hrest, rfl⟩ := Yields.mapM_cons_iff.mp h
    rw [List.map_cons, List.nodup_cons] at hids
    rw [List.forall_mem_cons] at hcounts
    have hadds := adds_rule henv hr hcounts.1
    -- the predicates of the rule are not counted for those behind it
    have hrestCounts : ∀ s ∈ rest, mid.predicateCount s.id = 0 := by
      intro s hs
      have hne : s.id ≠ rule.id := fun he =>
        hids.1 (he ▸ List.mem_map_of_mem (f := fun r => r.id) hs)
      rw [hadds.counts, if_neg hne, hcounts.2 s hs]
    obtain ⟨new, hnew, hextracts, hcalls⟩ := hadds.actions
    obtain ⟨groups, hgroups, hrules, hmore⟩ := extracts_of_rules henv hrest hids.2 hrestCounts
    refine ⟨new :: groups, ?_, .cons hextracts hrules, ?_⟩
    · rw [hgroups, hnew, List.flatten_cons, List.append_assoc]
    · rw [List.flatMap_cons, List.filter_append, hcalls, hmore, List.flatten_cons, List.map_append]

/-! ## Grammars -/

/-- The base of the names of a rule of a grammar. -/
def baseOf (g : Grammar) (rule : Grammar.Rule) : Option BaseName :=
  (RuleNames.ofIds (g.rules.map fun r => r.id)).base rule.id

/-- A function of a module is the one of an extracted function: it has its name and its
parameters, declares them and the result in this order, and has its code unchanged. -/
structure Carries (a : Resolved.Action) (f : Target.Function) : Prop where
  name : f.name = a.function
  args : f.args = a.params.map fun p => p.name
  declared : f.decls.map (fun d => d.names) = a.params.map (fun p => [p.name]) ++ [[f.result]]
  code : f.body = .verbatim a.code

/-- No code of a grammar is lost, duplicated or moved in its parser. -/
structure KeepsCode (g : Grammar) (p : Resolved.Parser) : Prop where
  /-- The extracted functions are those of the rules one after another. -/
  actions : ∃ groups, p.actions = groups.flatten ∧ List.Forall₂ (fun rule actions =>
    ∃ base, baseOf g rule = some base ∧ actions.map extractOf = ruleExtracts base rule)
    g.rules groups
  /-- Every one of them is called in one place. -/
  calls : ∀ a ∈ p.actions, p.calls.count a.function = 1
  /-- The rules are those of the grammar in its order. -/
  rules : List.Forall₂ (fun rule r => r.id = rule.id ∧
    ∃ base, baseOf g rule = some base ∧ r.function = Resolved.ruleFunction base) g.rules p.rules
  /-- A module of the parser has the functions of the rules, and behind them the extracted
  ones with their code. -/
  functions : ∀ {o : Options} {m : Target.Module}, Lowering.lower p o = .ok m →
    ∃ fs extracted, m.functions = fs ++ extracted ∧
      List.Forall₂ (fun r f => Lowering.lowerRule r = .ok f ∧ f.name = r.function) p.rules fs ∧
      extracted = p.actions.map Lowering.lowerAction ∧ List.Forall₂ Carries p.actions extracted

section
variable {g : Grammar} {types : ActionTypes} {p : Resolved.Parser}

/-- Rules related one by one to something are also when they are known to have bases. -/
theorem forall₂_baseOf (h : resolve g types = .ok p) {β : Type}
    {P : BaseName → Grammar.Rule → β → Prop} {bs : List β}
    (hP : List.Forall₂ (fun rule b => P ((Env.ofRules g.rules types).info rule).base rule b)
      g.rules bs) :
    List.Forall₂ (fun rule b => ∃ base, baseOf g rule = some base ∧ P base rule b) g.rules bs := by
  have hids := (sound_of_rulesDefect (of_resolve h).1).1
  have hbases : ∀ rule ∈ g.rules,
      baseOf g rule = some ((Env.ofRules g.rules types).info rule).base := by
    intro rule hrule
    obtain ⟨base, hbase, hinfo⟩ := rule_ofRules_of_mem types hids hrule
    rw [info_of_rule hinfo]
    exact hbase
  exact ((List.forall₂_and_left _ _).mpr ⟨hbases, hP⟩).imp fun rule b hb => ⟨_, hb.1, hb.2⟩

theorem carries_lowerAction (a : Resolved.Action) : Carries a (Lowering.lowerAction a) where
  name := rfl
  args := rfl
  declared := by
    rw [Lowering.lowerAction, List.map_append, List.map_map]
    rfl
  code := rfl

/-- **No code of the author is lost, duplicated or moved.** -/
theorem code_resolve (h : resolve g types = .ok p) : KeepsCode g p := by
  obtain ⟨hdefect, out, hrules, -, hactions⟩ := of_resolve h
  have hids := (sound_of_rulesDefect hdefect).1
  obtain ⟨groups, hgroups, hextracts, hcalls⟩ :=
    extracts_of_rules isExtracted_ofRules hrules hids fun _ _ => rfl
  have hgroups : p.actions = groups.flatten := by
    rw [hactions, hgroups]
    rfl
  constructor
  · exact ⟨groups, hgroups, forall₂_baseOf h hextracts⟩
  · intro a ha
    have hextracted : isExtracted a.function = true := by
      obtain ⟨base, k, hname | hname⟩ := exists_actionName h ha
      · rw [hname]
        exact isExtracted_predicate base k
      · rw [hname]
        exact isExtracted_action base k
    calc p.calls.count a.function
      _ = (p.calls.filter isExtracted).count a.function := (List.count_filter hextracted).symm
      _ = (p.actions.map fun a => a.function).count a.function := by
        rw [hgroups]
        exact congrArg (List.count a.function) hcalls
      _ = 1 := List.count_eq_one_of_mem (nodup_actions h) (List.mem_map_of_mem ha)
  · have hkept : List.Forall₂ (fun (rule : Grammar.Rule) (r : Resolved.Rule) => r.id = rule.id ∧
        r.function = Resolved.ruleFunction ((Env.ofRules g.rules types).info rule).base)
        g.rules p.rules := by
      have hinfos : ∀ rule ∈ g.rules, ((Env.ofRules g.rules types).info rule).function =
          Resolved.ruleFunction ((Env.ofRules g.rules types).info rule).base := by
        intro rule hrule
        obtain ⟨base, -, hinfo⟩ := rule_ofRules_of_mem types hids hrule
        rw [info_of_rule hinfo]
        rfl
      refine ((List.forall₂_and_left _ _).mpr ⟨hinfos, rules_kept h⟩).imp fun rule r hr => ?_
      exact ⟨hr.2.id, hr.2.function.trans hr.1⟩
    have hbases := forall₂_baseOf (P := fun base (rule : Grammar.Rule) (r : Resolved.Rule) =>
      r.id = rule.id ∧ r.function = Resolved.ruleFunction base) h hkept
    exact hbases.imp fun rule r ⟨base, hbase, hid, hfunction⟩ => ⟨hid, base, hbase, hfunction⟩
  · intro o m hm
    obtain ⟨fs, hlowered⟩ := Lowering.lowered_of_lower hm
    have hcarries : List.Forall₂ Carries p.actions (p.actions.map Lowering.lowerAction) :=
      List.forall₂_map_right_iff.mpr (List.forall₂_same.mpr fun a _ => carries_lowerAction a)
    exact ⟨fs, _, hlowered.functions_eq,
      hlowered.rules.imp fun r f hf => ⟨hf, Lowering.name_lowerRule hf⟩, rfl, hcarries⟩

end

/-- Predicates in a row, in a repeated group and in a lookahead, and an action for every
alternative. -/
def coded : Grammar where
  rules := [
    ⟨"S", true, [
      ⟨[.item false (some "x") ⟨.ruleRef "A", .one⟩,
        .check false (.predicate ⟨[⟨"d", "x"⟩], "logical", "res = len(d) < 5"⟩),
        .item false none ⟨.group [⟨[.check true (.predicate ⟨[], "", "res = full()"⟩),
          .item false none ⟨.ruleRef "A", .one⟩], none⟩], .zeroOrMore⟩], some "res = x"⟩,
      ⟨[.check false (.lookahead ⟨.group [⟨[.check false (.predicate ⟨[], "", "res = open()"⟩)],
          none⟩], .one⟩),
        .item false none ⟨.ruleRef "A", .one⟩], some "res = ''"⟩]⟩,
    ⟨"A", false, [⟨[.item false none ⟨.literal "a", .one⟩], some "res = 'a'"⟩]⟩]

def codedParser : Resolved.Parser where
  rules := [
    ⟨"S", "peg_s", true, .text, ⟨[
      ⟨[⟨.call ⟨"A", "peg_a", .text⟩, some ⟨"capture_0_0", .text, .value⟩⟩,
        ⟨.predicate false ⟨"pred_s_0", ["capture_0_0"]⟩, none⟩,
        ⟨.repeat (.choice ⟨[⟨[⟨.predicate true ⟨"pred_s_1", []⟩, none⟩,
          ⟨.call ⟨"A", "peg_a", .text⟩, none⟩], .consumed, .text⟩], none⟩) (.count 0) none none,
          none⟩], .action ⟨"action_s_0", ["capture_0_0"]⟩, .text⟩,
      ⟨[⟨.lookahead false (.choice ⟨[⟨[⟨.predicate false ⟨"pred_s_2", []⟩, none⟩], .consumed,
          .text⟩], none⟩), none⟩,
        ⟨.call ⟨"A", "peg_a", .text⟩, none⟩], .action ⟨"action_s_1", []⟩, .text⟩], some "res"⟩⟩,
    ⟨"A", "peg_a", false, .text, ⟨[⟨[⟨.literal "a", none⟩], .action ⟨"action_a_0", []⟩, .text⟩],
      some "res"⟩⟩]
  actions := [
    ⟨.predicate, "pred_s_0", [⟨"d", .text⟩], .declared "logical", "res = len(d) < 5"⟩,
    ⟨.predicate, "pred_s_1", [], .declared "logical", "res = full()"⟩,
    ⟨.action, "action_s_0", [⟨"x", .text⟩], .text, "res = x"⟩,
    ⟨.predicate, "pred_s_2", [], .declared "logical", "res = open()"⟩,
    ⟨.action, "action_s_1", [], .text, "res = ''"⟩,
    ⟨.action, "action_a_0", [], .text, "res = 'a'"⟩]

theorem coded_keepsCode : resolve coded {} = .ok codedParser ∧ KeepsCode coded codedParser ∧
    codedParser.calls = ["peg_a", "pred_s_0", "pred_s_1", "peg_a", "action_s_0", "pred_s_2",
      "peg_a", "action_s_1", "action_a_0"] ∧
    ∃ m fs extracted, Lowering.lower codedParser {} = .ok m ∧ m.functions = fs ++ extracted ∧
      fs.map (fun f => f.name) = ["peg_s", "peg_a"] ∧
      extracted.map (fun f => (f.name, f.args, f.body)) = [
        ("pred_s_0", ["d"], .verbatim "res = len(d) < 5"),
        ("pred_s_1", [], .verbatim "res = full()"),
        ("action_s_0", ["x"], .verbatim "res = x"),
        ("pred_s_2", [], .verbatim "res = open()"),
        ("action_s_1", [], .verbatim "res = ''"),
        ("action_a_0", [], .verbatim "res = 'a'")] := by
  have h : resolve coded {} = .ok codedParser := by cbv
  have hkeeps := code_resolve h
  have hlowers : (Lowering.lower codedParser {}).toOption.isSome = true := by decide +kernel
  cases hm : Lowering.lower codedParser {} with
  | error failure =>
    rw [hm] at hlowers
    exact absurd hlowers Bool.false_ne_true
  | ok m =>
    obtain ⟨fs, extracted, hfunctions, hrules, hextracted, -⟩ := hkeeps.functions hm
    have hnames : fs.map (fun f => f.name) = codedParser.rules.map fun r => r.function :=
      map_eq_map (hrules.flip.imp fun _ _ hf => hf.2)
    exact ⟨h, hkeeps, by decide, m, fs, extracted, rfl, hfunctions, hnames, by rw [hextracted]; rfl⟩

end Resolution

end PegCompiler
