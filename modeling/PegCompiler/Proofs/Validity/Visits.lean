import PegCompiler.Proofs.Resolution.Extracted
import PegCompiler.Proofs.Validity.Checks
/-
  What a run of resolution without a defect has seen. `Visited` says it of a list of
  nodes: they are in order, the references among them to rules outside of the table
  are recorded one after another, and their predicates are counted. A run visits
  exactly the nodes that it is given, in their order (`visiting_closed`).

  The labels, plucks and references of a row are the one thing that resolution carries
  along where the conditions on nodes look at the elements in front; `RowOf` relates
  the two.
-/

namespace PegCompiler.Resolution

open Grammar (Alternative Element Expr Node Place Quantified Quantifier undefinedAt joinedType
  valueTypes alternativesNodes elementsNodes)
open Resolved (ValueType)

/-! ## Places -/

/-- The place of a node for its context. -/
def Context.place (ctx : Context) : Place :=
  ⟨ctx.rule, ctx.ruleAlternative, ctx.isNested, ctx.capturing, ctx.separator⟩

@[simp] theorem place_enterElement (ctx : Context) (position : Nat) (ls vs : List Binding) :
    (ctx.enterElement position ls vs).place = ctx.place := rfl

@[simp] theorem place_enterRow (ctx : Context) (sources : List String) :
    (ctx.enterRow sources).place = ctx.place := rfl

@[simp] theorem place_enterLookahead (ctx : Context) :
    ctx.enterLookahead.place = ctx.place.inLookahead := rfl

@[simp] theorem place_enterSeparator (ctx : Context) :
    ctx.enterSeparator.place = ctx.place.inSeparator := rfl

@[simp] theorem place_enterGroup (ctx : Context) : ctx.enterGroup.place = ctx.place.inGroup := by
  simp [Context.place, Place.inGroup, Context.enterGroup, Context.isNested, Context.groupPath]

/-- The alternatives of a group stand in the same alternative of the rule. -/
theorem place_enterAlternative {ctx : Context} (h : ctx.isNested = true) (index : Nat) :
    (ctx.enterAlternative index).place = ctx.place := by
  unfold Context.isNested at h
  simp [Context.place, Context.enterAlternative, Context.isNested, h]

theorem isNested_enterGroup (ctx : Context) : ctx.enterGroup.isNested = true := by
  simp [Context.isNested, Context.enterGroup, Context.groupPath]

/-- The nodes of alternatives that are counted from a number. -/
def choiceNodes (ctx : Context) (index : Nat) (alternatives : List Alternative) :
    List (Place × Node) :=
  (alternatives.zipIdx index).flatMap fun (a, i) => a.nodes (ctx.enterAlternative i).place

theorem choiceNodes_cons (ctx : Context) (index : Nat) (a : Alternative)
    (rest : List Alternative) :
    choiceNodes ctx index (a :: rest) =
      a.nodes (ctx.enterAlternative index).place ++ choiceNodes ctx (index + 1) rest := by
  simp [choiceNodes]

/-- In a group, the number of an alternative is not part of a place. -/
theorem choiceNodes_nested {ctx : Context} (h : ctx.isNested = true) :
    ∀ (alternatives : List Alternative) (index : Nat),
    choiceNodes ctx index alternatives = alternativesNodes ctx.place alternatives
  | [], index => by simp [choiceNodes, alternativesNodes]
  | a :: rest, index => by
    rw [choiceNodes_cons, place_enterAlternative h, choiceNodes_nested h rest, alternativesNodes]

/-! ## Visited nodes -/

/-- Whether the table has a rule. -/
def Env.defines (env : Env) (target : String) : Bool :=
  (env.rule target).isSome

/-- The type that calls of a rule are given. -/
def Env.typeOf (env : Env) (target : String) : ValueType :=
  match env.rule target with
  | some info => info.resultType
  | none => .text

/-- Whether a node is a predicate of a rule. -/
def isPredicateOf (rule : String) (n : Place × Node) : Bool :=
  n.2.isPredicate && n.1.rule == rule

/-- Nodes were visited without a defect. -/
structure Visited (env : Env) (nodes : List (Place × Node)) (out out' : Emitted) : Prop where
  sound : ∀ n ∈ nodes, n.2.Sound env.typeOf n.1
  unresolved : out'.unresolved = out.unresolved ++ nodes.filterMap (undefinedAt env.defines)
  predicates : ∀ rule,
    out'.predicateCount rule = out.predicateCount rule + nodes.countP (isPredicateOf rule)

namespace Visited

variable {env : Env} {ns ms : List (Place × Node)} {out mid out' : Emitted}

theorem nothing : Visited env [] out out :=
  ⟨by simp, by simp, by simp⟩

theorem append (h : Visited env ns out mid) (h' : Visited env ms mid out') :
    Visited env (ns ++ ms) out out' where
  sound n hn := (List.mem_append.mp hn).elim (h.sound n) (h'.sound n)
  unresolved := by
    rw [h'.unresolved, h.unresolved, List.filterMap_append, List.append_assoc]
  predicates rule := by
    rw [h'.predicates, h.predicates, List.countP_append, Nat.add_assoc]

theorem addNote (h : Visited env ns out out') (note : Note) :
    Visited env ns out (out'.addNote note) :=
  ⟨h.sound, h.unresolved, h.predicates⟩

theorem of_addNote {note : Note} (h : Visited env ns (out.addNote note) out') :
    Visited env ns out out' :=
  ⟨h.sound, h.unresolved, h.predicates⟩

/-- A node that is neither a reference nor a predicate leaves nothing behind. -/
theorem node {place : Place} {n : Node} (sound : n.Sound env.typeOf place)
    (hundefined : undefinedAt env.defines (place, n) = none)
    (hpredicate : ∀ rule, isPredicateOf rule (place, n) = false) :
    Visited env [(place, n)] out out :=
  ⟨by simpa using sound, by simp [hundefined], by simp [hpredicate]⟩

theorem row {place : Place} {es : List Element} {action : Option String}
    (h : (Node.row es action).Sound env.typeOf place) :
    Visited env [(place, .row es action)] out out :=
  node h rfl fun _ => rfl

theorem label {place : Place} {earlier : List Element} {l : Option String}
    (h : ∀ name, l = some name → (Node.label earlier name).Sound env.typeOf place) :
    Visited env (l.map fun name => (place, Node.label earlier name)).toList out out := by
  cases l with
  | none => exact nothing
  | some name => exact node (h name rfl) rfl fun _ => rfl

theorem quantifier {place : Place} {q : Quantifier} (h : q.Sound) :
    Visited env [(place, .quantifier q)] out out :=
  node h rfl fun _ => rfl

theorem choice {place : Place} {as : List Alternative} (h : as ≠ [])
    (hrest : Visited env ns out out') : Visited env ((place, .choice as) :: ns) out out' := by
  have hchoice : Visited env [(place, .choice as)] out out := node h rfl fun _ => rfl
  exact hchoice.append hrest

/-- The nodes of an item: its label, its body and, if it is a group with a name, that. -/
theorem item {place : Place} {earlier : List Element} {plucked : Bool} {l : Option String}
    {body : Quantified}
    (hlabel : ∀ name, l = some name → (Node.label earlier name).Sound env.typeOf place)
    (hbody : Visited env (body.nodes place) out out')
    (hgroup : (plucked || l.isSome) = true → ∀ as, body.group? = some as →
      (Node.namedGroup as).Sound env.typeOf place) :
    Visited env ((Element.item plucked l body).nodes place earlier) out out' := by
  have hnamed : Visited env (if plucked || l.isSome then
      (body.group?.map fun as => (place, Node.namedGroup as)).toList else []) out' out' := by
    split
    next hname =>
      cases hg : body.group? with
      | none => exact nothing
      | some as => exact node (hgroup hname as hg) rfl fun _ => rfl
    next => exact nothing
  rw [Element.nodes]
  exact ((label hlabel).append hbody).append hnamed

theorem ruleCall {ctx : Context} {target : String} {call : Resolved.RuleCall}
    (h : Yields (ruleCall env ctx target) out call out') :
    Visited env [(ctx.place, .reference target)] out out' := by
  obtain ⟨info, hinfo, -, rfl⟩ | ⟨hnone, -, rfl⟩ := of_ruleCall h
  · exact node trivial (by simp [undefinedAt, Env.defines, hinfo]) fun _ => rfl
  · refine ⟨by simp [Node.Sound], ?_, fun rule => rfl⟩
    simp [undefinedAt, Env.defines, hnone, Emitted.addUnresolved, Emitted.addNote, Context.place]

theorem predicate {ctx : Context} {earlier : List Element} {p : Grammar.Predicate}
    {call : Resolved.ActionCall} (sound : (Node.predicate earlier p).Sound env.typeOf ctx.place)
    (h : Yields (resolvePredicate ctx p) out call out') :
    Visited env [(ctx.place, .predicate earlier p)] out out' := by
  obtain ⟨sourced, -, -, -, rfl⟩ := of_resolvePredicate h
  refine ⟨by simpa using sound, by simp [undefinedAt, Emitted.addAction, Emitted.nextPredicate],
    fun rule => ?_⟩
  show (out.nextPredicate ctx.rule).2.predicateCount rule = _
  rw [predicateCount_next]
  by_cases hrule : rule = ctx.rule
  · simp [isPredicateOf, Node.isPredicate, Context.place, hrule]
  · have hother : ctx.rule ≠ rule := fun h => hrule h.symm
    simp [isPredicateOf, Node.isPredicate, Context.place, hrule, hother]

/-- What an action leaves behind is neither a reference nor a predicate. -/
theorem of_rowValue {ctx : Context} {row : Row} {action : Option String}
    {value : Resolved.AltResult × ValueType}
    (h : Yields (rowValue env ctx row action) mid value out') (hv : Visited env ns out mid) :
    Visited env ns out out' := by
  cases action with
  | none =>
    obtain ⟨rfl, -⟩ := of_rowValue_none h
    exact hv
  | some code =>
    obtain ⟨-, -, -, rfl⟩ := of_rowValue_some h
    exact ⟨hv.sound, hv.unresolved, hv.predicates⟩

end Visited

/-! ## What a row has bound -/

/-- What a row has bound, beside the elements that it was bound by: nothing where no
values are kept. References are only bound for themselves or for a predicate of the
row, so those that no predicate names are left out. -/
structure RowOf (env : Env) (ctx : Context) (earlier : List Element) (row : Row) : Prop where
  labels : row.labels.map (fun b => b.label) =
    if ctx.capturing then earlier.filterMap Element.label? else []
  types : row.labels.map (fun b => b.type) =
    if ctx.capturing then earlier.filterMap (Element.labeled? env.typeOf) else []
  plucks : row.plucks.map (fun c => c.2) =
    if ctx.capturing then earlier.filterMap (Element.plucked? env.typeOf) else []
  references : ∀ s ∈ ctx.predicateSources,
    (∃ b ∈ row.ruleValues, b.label = s) ↔
      ctx.capturing = true ∧ s ∈ earlier.filterMap Element.reference?

namespace RowOf

variable {env : Env} {ctx : Context} {earlier : List Element} {row : Row}

theorem empty : RowOf env ctx [] {} :=
  ⟨by simp, by simp, by simp, by simp⟩

/-- The element's own place in its row does not matter. -/
theorem enterElement {position : Nat} {ls vs : List Binding} :
    RowOf env (ctx.enterElement position ls vs) earlier row ↔ RowOf env ctx earlier row :=
  ⟨fun ⟨labels, types, plucks, references⟩ => ⟨labels, types, plucks, references⟩,
    fun ⟨labels, types, plucks, references⟩ => ⟨labels, types, plucks, references⟩⟩

theorem filterMap_concat {α β : Type} (f : α → Option β) (xs : List α) (x : α) :
    (xs ++ [x]).filterMap f = xs.filterMap f ++ (f x).toList := by
  rw [List.filterMap_append]
  cases h : f x <;> simp [h]

/-- A row binds behind an element what the element has, where values are kept. -/
theorem next (h : RowOf env ctx earlier row) {e : Element} {row' : Row}
    (hlabels : row'.labels.map (fun b => b.label) =
      row.labels.map (fun b => b.label) ++ if ctx.capturing then e.label?.toList else [])
    (htypes : row'.labels.map (fun b => b.type) =
      row.labels.map (fun b => b.type) ++
        if ctx.capturing then (e.labeled? env.typeOf).toList else [])
    (hplucks : row'.plucks.map (fun c => c.2) =
      row.plucks.map (fun c => c.2) ++
        if ctx.capturing then (e.plucked? env.typeOf).toList else [])
    (hreferences : ∀ s ∈ ctx.predicateSources, (∃ b ∈ row'.ruleValues, b.label = s) ↔
      (∃ b ∈ row.ruleValues, b.label = s) ∨ ctx.capturing = true ∧ e.reference? = some s) :
    RowOf env ctx (earlier ++ [e]) row' where
  labels := by
    rw [hlabels, h.labels, filterMap_concat]
    cases ctx.capturing <;> rfl
  types := by
    rw [htypes, h.types, filterMap_concat]
    cases ctx.capturing <;> rfl
  plucks := by
    rw [hplucks, h.plucks, filterMap_concat]
    cases ctx.capturing <;> rfl
  references s hs := by
    rw [hreferences s hs, h.references s hs, filterMap_concat, List.mem_append, Option.mem_toList,
      and_or_left]

/-- A check binds nothing. -/
theorem check (h : RowOf env ctx earlier row) (negated : Bool) (condition : Grammar.Condition)
    (matcher : Resolved.Matcher) :
    RowOf env ctx (earlier ++ [.check negated condition])
      (row.add (uncaptured false matcher)) := by
  apply h.next <;> simp [Row.add, uncaptured, Element.label?, Element.labeled?, Element.plucked?,
    Element.reference?]

/-- An item binds its value where values are kept and it is labeled, plucked or a
reference that a predicate names. -/
theorem item (h : RowOf env ctx earlier row) {keep plucked : Bool} {label : Option String}
    (body : Quantified) {matcher : Resolved.Matcher} {type : ValueType}
    {source : Resolved.CaptureSource}
    (hkeep : keep = (ctx.capturing &&
      (plucked || label.isSome || body.reference?.any ctx.isPredicateSource)))
    (htype : type = body.valueType env.typeOf) :
    RowOf env ctx (earlier ++ [.item plucked label body])
      (row.add (keptIf keep ctx plucked label body.reference? matcher type source)) := by
  cases keep with
  | false =>
    have hadd : row.add (keptIf false ctx plucked label body.reference? matcher type source) =
        row := rfl
    rw [hadd]
    cases hc : ctx.capturing with
    | false => apply h.next <;> simp [hc]
    | true =>
      -- values are kept, but not this one: nothing names it
      obtain ⟨⟨rfl, rfl⟩, hsource⟩ : (plucked = false ∧ label = none) ∧
          body.reference?.any ctx.isPredicateSource = false := by simpa [hc] using hkeep
      apply h.next
      · simp [Element.label?]
      · simp [Element.labeled?]
      · simp [Element.plucked?]
      · intro s hs
        have hnot : body.reference? ≠ some s := by
          intro href
          simp [href, Context.isPredicateSource, hs] at hsource
        simp [Element.reference?, hnot]
  | true =>
    obtain ⟨hc, -⟩ := Bool.and_eq_true_iff.mp hkeep.symm
    subst htype
    apply h.next
    · cases label <;> simp [hc, Row.add, keptIf, captured, Element.label?]
    · cases label <;> simp [hc, Row.add, keptIf, captured, Element.labeled?]
    · cases plucked <;> simp [hc, Row.add, keptIf, captured, Element.plucked?]
    · intro s hs
      simp [hc, Row.add, keptIf, captured, Element.reference?, or_and_right, exists_or]

/-- The captures that a row's value is made of are of the types of its elements. -/
theorem valueCaptures (h : RowOf env ctx earlier row) : row.valueCaptures.map (fun c => c.2) =
    if ctx.capturing then valueTypes env.typeOf earlier else [] := by
  have hplucks := h.plucks
  have htypes : (row.labels.map (fun b => (b.var, b.type))).map (fun c => c.2) = _ :=
    (List.map_map ..).trans h.types
  have hempty : row.plucks.isEmpty = (row.plucks.map (fun c => c.2)).isEmpty := by simp
  unfold Row.valueCaptures valueTypes
  rw [hempty, hplucks]
  cases hc : ctx.capturing with
  | false =>
    rw [hc] at htypes
    simpa using htypes
  | true =>
    rw [hc] at htypes hplucks
    simp only [if_true] at htypes hplucks ⊢
    split
    next => exact htypes
    next => exact hplucks

/-! ## The checks for the elements in front -/

/-- A label is refused exactly when it is not in order behind the elements. -/
theorem label (h : RowOf env ctx earlier row) (hlabels : row.labels = ctx.labels) (l : String) :
    labelDefect ctx l = none ↔ (Node.label earlier l).Sound env.typeOf ctx.place := by
  have hold : (∀ b ∈ ctx.labels, Resolved.sameName b.label l = false) ↔
      ∀ other ∈ ctx.labels.map (fun b => b.label), Resolved.sameName other l = false := by simp
  rw [labelDefect_eq_none, hold, ← hlabels, h.labels]
  cases hc : ctx.capturing <;> simp [Node.Sound, Context.place, hc]

/-- A source has a binding exactly when the elements provide it. -/
theorem source (h : RowOf env ctx earlier row) (hlabels : row.labels = ctx.labels)
    (hvalues : row.ruleValues = ctx.ruleValues) {s : String} (hs : s ∈ ctx.predicateSources) :
    (sourceBinding ctx s).isSome ↔ ctx.capturing = true ∧ Grammar.Provides earlier s := by
  have hold : (∃ b ∈ ctx.labels, Resolved.sameName b.label s = true) ↔
      ∃ l ∈ ctx.labels.map (fun b => b.label), Resolved.sameName l s = true := by simp
  rw [isSome_sourceBinding, hold, ← hlabels, ← hvalues, h.labels, h.references s hs]
  cases hc : ctx.capturing <;> simp [Grammar.Provides]

/-- A predicate is extracted exactly when it is in order behind the elements. -/
theorem predicate (h : RowOf env ctx earlier row) (hlabels : row.labels = ctx.labels)
    (hvalues : row.ruleValues = ctx.ruleValues) {p : Grammar.Predicate}
    (hs : p.params.map (fun q => q.source) ⊆ ctx.predicateSources) (out : Emitted) :
    Succeeds (resolvePredicate ctx p) out ↔
      (Node.predicate earlier p).Sound env.typeOf ctx.place := by
  have hsources : (∀ q ∈ p.params, (sourceBinding ctx q.source).isSome) ↔
      ∀ q ∈ p.params, ctx.capturing = true ∧ Grammar.Provides earlier q.source := by
    refine forall₂_congr fun q hq => ?_
    exact h.source hlabels hvalues (hs (List.mem_map_of_mem hq))
  rw [resolvePredicate_succeeds, hsources]
  rfl

end RowOf

/-! ## Values of rows and groups -/

/-- Captures are put together exactly when they are few or texts. -/
theorem concatResult_succeeds (ctx : Context) (cs : List (String × ValueType)) (out : Emitted) :
    Succeeds (concatResult ctx cs) out ↔
      (2 ≤ cs.length → ∀ c ∈ cs, c.2 = .text) := by
  constructor
  · rintro ⟨⟨result, type⟩, out', h⟩ hlength
    obtain ⟨-, hjoined⟩ := of_concatResult h
    cases hjoined with
    | nothing => simp at hlength
    | one => simp at hlength
    | several _ htexts => exact htexts
  · intro htexts
    match cs, htexts with
    | [], _ => exact ⟨_, out, rfl⟩
    | [(var, type)], _ => exact ⟨_, out, rfl⟩
    | c :: d :: rest, htexts =>
      have hnone : (c :: d :: rest).find? (fun c => !c.2.isText) = none := by
        rw [List.find?_eq_none]
        intro e he
        rw [htexts (by simp) e he]
        decide
      refine ⟨(.concat ((c :: d :: rest).map (fun c => c.1)), .text), out, ?_⟩
      rw [concatResult, hnone]
      · rfl
      all_goals simp

theorem type_of_joined {cs : List (String × ValueType)} {result : Resolved.AltResult}
    {type : ValueType} (h : Joined cs result type) : type = joinedType (cs.map (fun c => c.2)) := by
  cases h with
  | nothing => rfl
  | one => rfl
  | several two _ =>
    match cs, two with
    | _ :: _ :: _, _ => rfl

namespace RowOf

variable {env : Env} {ctx : Context} {elements : List Element} {row : Row}

/-- A row has a value exactly when it is in order. -/
theorem value (h : RowOf env ctx elements row) (action : Option String) (out : Emitted) :
    Succeeds (rowValue env ctx row action) out ↔
      (Node.row elements action).Sound env.typeOf ctx.place := by
  cases action with
  | none =>
    have hrow : rowValue env ctx row none = concatResult ctx row.valueCaptures := by
      show (if row.plucks.isEmpty then _ else _) = _
      unfold Row.valueCaptures
      split <;> rfl
    have htexts : (∀ c ∈ row.valueCaptures, c.2 = .text) ↔
        ∀ type ∈ row.valueCaptures.map (fun c => c.2), type = .text := by
      rw [List.forall_mem_map]
    have hlength : row.valueCaptures.length = (row.valueCaptures.map (fun c => c.2)).length :=
      (List.length_map _).symm
    rw [hrow, concatResult_succeeds, htexts, hlength, h.valueCaptures]
    cases hc : ctx.capturing <;> simp [Node.Sound, Context.place, hc]
  | some code =>
    show _ ↔ ctx.isNested = false
    unfold Succeeds rowValue actionValue refuse
    cases ctx.isNested with
    | true => simp
    | false => simp

/-- The type of a row's value is that of its alternative. -/
theorem type (h : RowOf env ctx elements row) (hc : ctx.capturing = true)
    {action : Option String} {result : Resolved.AltResult} {type : ValueType} {out out' : Emitted}
    (hvalue : Yields (rowValue env ctx row action) out (result, type) out') :
    type = Alternative.valueType env.typeOf env.types ctx.rule ctx.alternative
      ⟨elements, action⟩ := by
  cases action with
  | none =>
    obtain ⟨-, hjoined⟩ := of_rowValue_none hvalue
    rw [type_of_joined hjoined, h.valueCaptures, hc]
    rfl
  | some code => exact (of_rowValue_some hvalue).2.1

end RowOf

/-- The types of the values of alternatives that are counted from a number. -/
def choiceTypes (env : Env) (ctx : Context) (index : Nat) (alternatives : List Alternative) :
    List ValueType :=
  (alternatives.zipIdx index).map fun (a, i) => a.valueType env.typeOf env.types ctx.rule i

/-- Alternatives in a group have no actions. -/
theorem choiceTypes_nested {env : Env} (ctx : Context) {place : Place}
    (hn : place.nested = true) : ∀ (index : Nat) {as : List Alternative},
    (∀ n ∈ alternativesNodes place as, n.2.Sound env.typeOf n.1) →
    choiceTypes env ctx index as = as.map fun a => joinedType (valueTypes env.typeOf a.elements)
  | _, [], _ => rfl
  | index, ⟨es, action⟩ :: rest, h => by
    rw [alternativesNodes, Alternative.nodes] at h
    have hrow : (Node.row es action).Sound env.typeOf place := h (place, .row es action) (by simp)
    have hrest := choiceTypes_nested ctx hn (index + 1)
      fun n h' => h n (List.mem_append_right _ h')
    cases action with
    | some code => exact absurd (hn.symm.trans hrow) (by decide)
    | none =>
      show _ :: choiceTypes env ctx (index + 1) rest = _
      rw [hrest]
      rfl

/-- A captured group is refused exactly when one of its alternatives is not of type
text. -/
theorem namedGroup_iff {env : Env} {ctx : Context} {as : List Alternative}
    {rs : List Resolved.Alternative} (hc : ctx.capturing = true)
    (hnodes : ∀ n ∈ alternativesNodes ctx.place.inGroup as, n.2.Sound env.typeOf n.1)
    (htypes : rs.map (fun r => r.resultType) = choiceTypes env ctx.enterGroup 0 as) :
    (∀ r ∈ rs, r.resultType.isText = true) ↔
      (Node.namedGroup as).Sound env.typeOf ctx.place := by
  have htext : (∀ r ∈ rs, r.resultType.isText = true) ↔
      ∀ type ∈ rs.map (fun r => r.resultType), type = .text := by
    rw [List.forall_mem_map]
    refine forall₂_congr fun r hr => ⟨eq_text_of_isText, fun h => ?_⟩
    rw [h]
    rfl
  rw [htext, htypes, choiceTypes_nested _ rfl _ hnodes, List.forall_mem_map]
  simp [Node.Sound, Context.place, hc]

/-! ## A run visits the nodes that it is given -/

/-- Runs visit nodes, rows bind what their elements have, and alternatives are of their
types. -/
def visiting (env : Env) : Relations where
  alternatives ctx index out as rs out' := Visited env (choiceNodes ctx index as) out out' ∧
    (ctx.capturing = true → rs.map (fun r => r.resultType) = choiceTypes env ctx index as)
  alternative ctx out a r out' := Visited env (a.nodes ctx.place) out out' ∧
    (ctx.capturing = true →
      r.resultType = a.valueType env.typeOf env.types ctx.rule ctx.alternative)
  elements ctx _ row out es _ row' out' := ∀ earlier, RowOf env ctx earlier row →
    predicateSources es ⊆ ctx.predicateSources →
    Visited env (elementsNodes ctx.place earlier es) out out' ∧ RowOf env ctx (earlier ++ es) row'
  element ctx out e r out' := ∀ earlier row, RowOf env ctx earlier row →
    row.labels = ctx.labels → row.ruleValues = ctx.ruleValues →
    predicateSources [e] ⊆ ctx.predicateSources →
    Visited env (e.nodes ctx.place earlier) out out' ∧ RowOf env ctx (earlier ++ [e]) (row.add r)
  quantified ctx out body _ out' := Visited env (body.nodes ctx.place) out out'
  expr ctx out e _ out' := Visited env (e.nodes ctx.place) out out'

theorem sound_of_bounded {q : Quantifier} {min : Resolved.Bound} {max : Option Resolved.Bound}
    (h : Bounded q min max) : q.Sound := by
  cases h with
  | optional | zeroOrMore | oneOrMore => trivial
  | exact positive => exact UInt32.pos_iff_ne_zero.mpr positive
  | range sound => exact (rangeDefect_eq_none _ _).mp sound
  | computed sound => exact sound

theorem nodes_of_bounded {q : Quantifier} {min : Resolved.Bound} {max : Option Resolved.Bound}
    (h : Bounded q min max) (place : Place) : q.nodes place = [(place, .quantifier q)] := by
  cases h <;> rfl

theorem group_of_not_plain {body : Quantified} (h : isPlain body = false) :
    body.group? = none := by
  unfold Quantified.group?
  split
  · cases h
  · rfl

theorem type_of_ruleCall {env : Env} {ctx : Context} {target : String} {call : Resolved.RuleCall}
    {out out' : Emitted} (h : Yields (ruleCall env ctx target) out call out') :
    call.resultType = env.typeOf target := by
  obtain ⟨info, hinfo, rfl, -⟩ | ⟨hnone, rfl, -⟩ := of_ruleCall h
  · simp [Env.typeOf, hinfo]
  · simp [Env.typeOf, hnone]

/-- A run of resolution visits the nodes that it is given, one after another. -/
theorem visiting_closed (env : Env) : (visiting env).Closed env where
  noAlternatives := ⟨.nothing, fun _ => rfl⟩
  moreAlternatives {ctx index out a rest r rs mid out'} ha hrest := by
    refine ⟨?_, fun hc => ?_⟩
    · rw [choiceNodes_cons]
      exact ha.1.of_addNote.append hrest.1
    · exact congrArg₂ List.cons (ha.2 hc) (hrest.2 hc)
  row {ctx out elements action es row mid result type out'} hes hvalue := by
    obtain ⟨hvisited, hrow⟩ := hes [] .empty (fun _ h => h)
    refine ⟨?_, fun hc => hrow.type hc hvalue⟩
    have hsound := (hrow.value action mid).mp ⟨_, _, hvalue⟩
    exact (hvisited.append (Visited.row hsound)).of_rowValue hvalue
  noElements := by
    intro ctx position row out earlier hrow _
    rw [List.append_nil]
    exact ⟨.nothing, hrow⟩
  moreElements {ctx position row out e rest r rs row' mid out'} he hrest := by
    intro earlier hrow hsources
    rw [predicateSources_cons, List.append_subset] at hsources
    obtain ⟨hvisited, hnext⟩ := he earlier row (RowOf.enterElement.mpr hrow) rfl rfl hsources.1
    obtain ⟨hvisited', hlast⟩ := hrest (earlier ++ [e]) (RowOf.enterElement.mp hnext) hsources.2
    rw [List.append_assoc] at hlast
    exact ⟨hvisited.append hvisited', hlast⟩
  predicate {ctx out negated p call out'} h := by
    intro earlier row hrow hlabels hvalues hsources
    have hsound := (hrow.predicate hlabels hvalues (by simpa [predicateSources] using hsources)
      out).mp ⟨call, out', h⟩
    exact ⟨.predicate hsound h, hrow.check _ _ _⟩
  lookahead h := fun _ _ hrow _ _ _ => ⟨h, hrow.check _ _ _⟩
  reference {ctx out plucked label target call out'} hlabel hcall := by
    intro earlier row hrow hlabels _ _
    have hbody : Visited env (Quantified.nodes ctx.place ⟨.ruleRef target, .one⟩) out out' :=
      (Visited.ruleCall hcall).append (.quantifier trivial)
    refine ⟨.item (fun l hl => (hrow.label hlabels l).mp (hlabel l hl)) hbody ?_,
      hrow.item ⟨.ruleRef target, .one⟩ rfl (type_of_ruleCall hcall)⟩
    intro _ as h
    cases h
  group {ctx out plucked label alternatives rs out'} hlabel hne h htext := by
    intro earlier row hrow hlabels _ _
    obtain ⟨has, htypes⟩ := h
    rw [choiceNodes_nested (isNested_enterGroup ctx), place_enterGroup] at has
    have hbody : Visited env (Quantified.nodes ctx.place ⟨.group alternatives, .one⟩) out out' :=
      (has.choice hne).append (.quantifier trivial)
    refine ⟨.item (fun l hl => (hrow.label hlabels l).mp (hlabel l hl)) hbody ?_,
      hrow.item ⟨.group alternatives, .one⟩ ?_ rfl⟩
    · rintro hname as ⟨⟩
      cases hc : ctx.capturing with
      | false => exact fun h => absurd (hc.symm.trans h) (by decide)
      | true =>
        -- a group with a name is captured, and was looked at for its types
        have hkeeps : keeps ctx plucked label = true := by simp [keeps, hc, hname]
        exact (namedGroup_iff hc has.sound (htypes hc)).mp (htext hkeeps)
    · simp [keeps, Quantified.reference?]
  item {ctx out plucked label body m out'} hlabel hplain h := by
    intro earlier row hrow hlabels _ _
    have href := reference_of_not_plain hplain
    refine ⟨.item (fun l hl => (hrow.label hlabels l).mp (hlabel l hl)) h ?_, ?_⟩
    · intro _ as hg
      cases (group_of_not_plain hplain).symm.trans hg
    · rw [← href]
      exact hrow.item body (by simp [keeps, href]) (by simp [Quantified.valueType, href])
  once h := h.append (.quantifier trivial)
  repeated {ctx out expr q min max m out'} h hbounded := by
    have hq : Visited env (q.nodes ctx.place) out' out' := by
      rw [nodes_of_bounded hbounded]
      exact .quantifier (sound_of_bounded hbounded)
    exact (h.append hq).addNote _
  separated {ctx out expr separator m s mid out' count} h hcount hs := by
    have hq : Visited env [(ctx.place, .quantifier (.separated count separator))] mid mid :=
      .quantifier (UInt32.pos_iff_ne_zero.mpr hcount)
    exact (h.append (hq.append hs)).addNote _
  literal := .nothing
  charClass {ctx out items} h := .node ((classDefect_eq_none items).mp h) rfl fun _ => rfl
  ruleRef h := .ruleCall h
  anyChar := .nothing
  endOfInput := .nothing
  nested {ctx out alternatives rs out'} hne h := by
    have has := h.1
    rw [choiceNodes_nested (isNested_enterGroup ctx), place_enterGroup] at has
    exact has.choice hne

end PegCompiler.Resolution
