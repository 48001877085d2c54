import PegCompiler.Grammar.Document
import PegCompiler.Proofs.Grammar.Tables
import PegCompiler.Proofs.Json.Results
import PegCompiler.Proofs.Json.Shapes
/-
  Documents read as they are written. By induction over the grammar, every part that nests
  no deeper than its reader may go is read from its own text as itself; the cases are those
  of the functions that write.

  A document that is read comes from any text that stands for it, with fields left out, out
  of order or unknown. Its table of declared types is a table (`ordered_of_parse`), so what
  was read can be written and read again as long as it does not nest too deep.
-/

namespace PegCompiler

namespace Json

/-! ## Nesting -/

mutual

/-- The levels of arrays and objects of a value. -/
def depth : Json → Nat
  | .array items => itemsDepth items + 1
  | .object entries => entriesDepth entries + 1
  | _ => 0

/-- The levels below an array. -/
def itemsDepth : List Json → Nat
  | [] => 0
  | v :: rest => max v.depth (itemsDepth rest)

/-- The levels below an object. -/
def entriesDepth : List (String × Json) → Nat
  | [] => 0
  | (_, v) :: rest => max v.depth (entriesDepth rest)

end

theorem itemsDepth_le {items : List Json} {n : Nat} :
    itemsDepth items ≤ n ↔ ∀ v ∈ items, v.depth ≤ n := by
  induction items with
  | nil => simp [itemsDepth]
  | cons v rest ih => rw [itemsDepth, max_le_iff, ih, List.forall_mem_cons]

theorem entriesDepth_le {entries : List (String × Json)} {n : Nat} :
    entriesDepth entries ≤ n ↔ ∀ e ∈ entries, e.2.depth ≤ n := by
  induction entries with
  | nil => simp [entriesDepth]
  | cons e rest ih => rw [entriesDepth, max_le_iff, ih, List.forall_mem_cons]

theorem depth_array_le {items : List Json} {n : Nat} (h : (Json.array items).depth ≤ n) :
    ∃ m, n = m + 1 ∧ ∀ v ∈ items, v.depth ≤ m := by
  rw [depth] at h
  refine ⟨n - 1, by omega, itemsDepth_le.mp (by omega)⟩

theorem depth_object_le {entries : List (String × Json)} {n : Nat}
    (h : (Json.object entries).depth ≤ n) : ∃ m, n = m + 1 ∧ ∀ e ∈ entries, e.2.depth ≤ m := by
  rw [depth] at h
  refine ⟨n - 1, by omega, entriesDepth_le.mp (by omega)⟩

theorem depth_tagged_le {tag : String} {v : Json} {n : Nat} (h : (tagged tag v).depth ≤ n) :
    ∃ m, n = m + 1 ∧ v.depth ≤ m := by
  obtain ⟨m, rfl, hm⟩ := depth_object_le h
  exact ⟨m, rfl, hm _ List.mem_cons_self⟩

/-- A list is read item by item. -/
theorem reads_list {α : Type} {read : Reader α} {write : α → Json} {n : Nat} {as : List α}
    (hopens : ∀ a, Opens (write a).text)
    (hreads : ∀ a ∈ as, (write a).depth ≤ n → Reads read (write a).text a)
    (h : ∀ v ∈ as.map write, v.depth ≤ n) :
    Reads (listOf read) (Json.array (as.map write)).text as := by
  apply reads_listOf
  induction as with
  | nil => exact .nil
  | cons a as ih =>
    rw [List.map_cons, List.forall_mem_cons] at h
    rw [List.forall_mem_cons] at hreads
    exact .cons ⟨hopens a, hreads.1 h.1⟩ (ih hreads.2 h.2)

theorem reads_optional (s : Option String) :
    Reads (nullable textValue) (optional s).text s := by
  cases s with
  | none => exact reads_nullable_none _
  | some s => exact (reads_textValue s).nullable (opens_string s)

end Json

namespace Grammar

open Json (Reads Opens tagged optional nat depth_object_le depth_array_le depth_tagged_le)

theorem reads_optionalCount (n : Option UInt32) :
    Reads (Json.nullable Json.wordValue) (optionalCount n).text n := by
  cases n with
  | none => exact Json.reads_nullable_none _
  | some n => exact (Json.reads_wordValue n).nullable (Json.opens_nat _)

/-! ## Parts without rules -/

theorem reads_oneText {expected field : String} {s : String} {n : Nat}
    (h : (Json.object [(field, .string s)]).depth ≤ n) :
    Reads (Read.oneText expected field n) (Json.object [(field, .string s)]).text s := by
  obtain ⟨m, rfl, -⟩ := depth_object_le h
  exact Json.reads_record1 (Json.reads_textValue s)

theorem reads_item {i : ClassItem} {n : Nat} (h : i.toJson.depth ≤ n) :
    Reads (Read.item n) i.toJson.text i := by
  cases i with
  | char c =>
    obtain ⟨m, rfl, -⟩ := depth_tagged_le h
    exact Json.reads_tagged rfl ((Json.reads_charValue c).map _)
  | range bottom top =>
    obtain ⟨m, rfl, hm⟩ := depth_tagged_le h
    obtain ⟨m, rfl, -⟩ := depth_object_le hm
    have hbounds : Reads (Json.record2 "struct Range" (Json.required "bottom" Json.charValue)
        (Json.required "top" Json.charValue))
        (Json.object [("bottom", charJson bottom), ("top", charJson top)]).text (bottom, top) :=
      Json.reads_record2 (by decide) (Json.reads_charValue bottom) (Json.reads_charValue top)
    exact Json.reads_tagged rfl (hbounds.bind fun _ => rfl)

theorem opens_item (i : ClassItem) : Opens i.toJson.text := by
  cases i <;> exact Json.opens_object _

theorem reads_charClass {items : List ClassItem} {n : Nat}
    (h : (Json.object [("items", .array (items.map ClassItem.toJson))]).depth ≤ n) :
    Reads (Read.charClass n) (Json.object [("items", .array (items.map ClassItem.toJson))]).text
      items := by
  obtain ⟨m, rfl, hm⟩ := depth_object_le h
  obtain ⟨m, rfl, hitems⟩ := depth_array_le (hm _ List.mem_cons_self)
  exact Json.reads_record1 (Json.reads_list opens_item (fun _ _ => reads_item) hitems)

theorem reads_param {p : PredicateParam} {n : Nat} (h : p.toJson.depth ≤ n) :
    Reads (Read.param n) p.toJson.text p := by
  obtain ⟨m, rfl, -⟩ := depth_object_le h
  exact (Json.reads_record2 (by decide) (Json.reads_textValue p.name)
    (Json.reads_textValue p.source)).bind fun _ => rfl

theorem reads_predicate {p : Predicate} {n : Nat} (h : p.toJson.depth ≤ n) :
    Reads (Read.predicate n) p.toJson.text p := by
  obtain ⟨m, rfl, hm⟩ := depth_object_le h
  obtain ⟨m, rfl, hparams⟩ := depth_array_le (hm _ List.mem_cons_self)
  have hread : Reads (Read.params (m + 1)) _ p.params :=
    Json.reads_list (fun _ => Json.opens_object _) (fun _ _ => reads_param) hparams
  exact (Json.reads_record3 (by decide : "params" ≠ "return_type" ∧ "params" ≠ "code" ∧
    "return_type" ≠ "code") hread (Json.reads_textValue p.returnType)
      (Json.reads_textValue p.code)).bind fun _ => rfl

/-- The code of an action, or null. -/
def actionJson : Option String → Json
  | some code => .object [("code", .string code)]
  | none => .null

theorem toJson_alternative (elements : List Element) (action : Option String) :
    (Alternative.mk elements action).toJson =
      .object [("elements", .array (elementsJson elements)), ("action", actionJson action)] := by
  cases action <;> rw [Alternative.toJson, actionJson]

theorem reads_action {action : Option String} {n : Nat} (h : (actionJson action).depth ≤ n) :
    Reads (Json.nullable (Read.oneText "struct Action" "code" n)) (actionJson action).text
      action := by
  cases action with
  | none => exact Json.reads_nullable_none _
  | some code => exact (reads_oneText h).nullable (Json.opens_object _)

/-- The bounds of a range. -/
theorem reads_bounds {α : Type} {name : String} {read : Json.Reader α} {v w : Json}
    {min max : Option α} {n : Nat} (h : (Json.object [("min", v), ("max", w)]).depth ≤ n)
    (hv : Reads (Json.nullable read) v.text min) (hw : Reads (Json.nullable read) w.text max) :
    Reads (Read.bounds name read n) (Json.object [("min", v), ("max", w)]).text (min, max) := by
  obtain ⟨m, rfl, -⟩ := depth_object_le h
  exact Json.reads_record2 (by decide : "min" ≠ "max") hv hw

/-! ## Parts with rules -/

theorem opens_alternative (a : Alternative) : Opens a.toJson.text := by
  obtain ⟨elements, action⟩ := a
  rw [toJson_alternative]
  exact Json.opens_object _

theorem opens_element (e : Element) : Opens e.toJson.text := by
  cases e with
  | item plucked label body =>
    rw [Element.toJson]
    cases plucked <;> exact Json.opens_object _
  | check negated condition =>
    rw [Element.toJson]
    exact Json.opens_object _

/-- Each alternative is read from its own text. -/
def ReadsAlternatives (n : Nat) (as : List Alternative) : Prop :=
  List.Forall₂ (fun v a => Opens v.text ∧ Reads (Read.alternative n) v.text a)
    (alternativesJson as) as

/-- A choice is read as long as its alternatives are. -/
theorem reads_choice {as : List Alternative} {n : Nat} (h : (choiceJson as).depth ≤ n)
    (has : ∀ {m}, (∀ v ∈ alternativesJson as, v.depth ≤ m) → ReadsAlternatives m as) :
    Reads (Read.choice n) (choiceJson as).text as := by
  obtain ⟨m, rfl, hfields⟩ := depth_object_le h
  obtain ⟨k, rfl, halternatives⟩ := depth_array_le (hfields _ List.mem_cons_self)
  rw [Read.choice]
  exact Json.reads_record1 (Json.reads_listOf (has halternatives))

mutual

theorem reads_alternatives : ∀ (as : List Alternative) {n : Nat},
    (∀ v ∈ alternativesJson as, v.depth ≤ n) → ReadsAlternatives n as
  | [], _, _ => .nil
  | a :: rest, n, h => by
    rw [alternativesJson, List.forall_mem_cons] at h
    rw [ReadsAlternatives, alternativesJson]
    exact .cons ⟨opens_alternative a, reads_alternative a h.1⟩ (reads_alternatives rest h.2)

theorem reads_alternative : ∀ (a : Alternative) {n : Nat}, a.toJson.depth ≤ n →
    Reads (Read.alternative n) a.toJson.text a
  | ⟨elements, action⟩, n, h => by
    rw [toJson_alternative] at *
    obtain ⟨m, rfl, hm⟩ := depth_object_le h
    simp only [List.forall_mem_cons] at hm
    obtain ⟨k, rfl, helements⟩ := depth_array_le hm.1
    rw [Read.alternative]
    have hread : Reads (Read.elements (k + 1)) _ elements :=
      Json.reads_listOf (reads_elements elements helements)
    exact (Json.reads_record2 (by decide : "elements" ≠ "action") hread
      (reads_action hm.2.1)).bind fun _ => rfl

theorem reads_elements : ∀ (es : List Element) {n : Nat},
    (∀ v ∈ elementsJson es, v.depth ≤ n) →
    List.Forall₂ (fun v e => Opens v.text ∧ Reads (Read.element n) v.text e) (elementsJson es) es
  | [], _, _ => .nil
  | e :: rest, n, h => by
    rw [elementsJson, List.forall_mem_cons] at *
    exact .cons ⟨opens_element e, reads_element e h.1⟩ (reads_elements rest h.2)

theorem reads_element : ∀ (e : Element) {n : Nat}, e.toJson.depth ≤ n →
    Reads (Read.element n) e.toJson.text e
  | .item plucked label body, n, h => by
    rw [Element.toJson] at *
    have hlabeled : ∀ {m}, (Json.object [("label", optional label),
        ("annotated", body.toJson)]).depth ≤ m → Reads (Read.labeled m) (Json.object
          [("label", optional label), ("annotated", body.toJson)]).text (label, body) := by
      intro m hm
      obtain ⟨k, rfl, hfields⟩ := depth_object_le hm
      simp only [List.forall_mem_cons] at hfields
      rw [Read.labeled]
      exact Json.reads_record2 (by decide : "label" ≠ "annotated") (Json.reads_optional label)
        (reads_quantified body hfields.2.1)
    cases plucked with
    | true =>
      obtain ⟨m, rfl, hpayload⟩ := depth_tagged_le h
      obtain ⟨k, rfl, hfields⟩ := depth_object_le hpayload
      have hpluck : Reads (Read.pluck (k + 1)) (Json.object [("labeled", Json.object
          [("label", optional label), ("annotated", body.toJson)])]).text (label, body) := by
        rw [Read.pluck]
        exact Json.reads_record1 (hlabeled (hfields _ List.mem_cons_self))
      rw [Read.element]
      exact Json.reads_tagged rfl (hpluck.map _)
    | false =>
      obtain ⟨m, rfl, hpayload⟩ := depth_tagged_le h
      rw [Read.element]
      exact Json.reads_tagged rfl ((hlabeled hpayload).map _)
  | .check negated condition, n, h => by
    rw [Element.toJson] at *
    obtain ⟨m, rfl, hpayload⟩ := depth_tagged_le h
    obtain ⟨k, rfl, hfields⟩ := depth_object_le hpayload
    have hassertion : Reads (Read.assertion (k + 1))
        (Json.object [("target", condition.toJson)]).text condition := by
      rw [Read.assertion]
      exact Json.reads_record1 (reads_condition condition (hfields _ List.mem_cons_self))
    rw [Read.element]
    cases negated with
    | true => exact Json.reads_tagged rfl (hassertion.map _)
    | false => exact Json.reads_tagged rfl (hassertion.map _)

theorem reads_condition : ∀ (c : Condition) {n : Nat}, c.toJson.depth ≤ n →
    Reads (Read.condition n) c.toJson.text c
  | .predicate p, n, h => by
    rw [Condition.toJson] at *
    obtain ⟨m, rfl, hm⟩ := depth_tagged_le h
    rw [Read.condition]
    exact Json.reads_tagged rfl ((reads_predicate hm).map _)
  | .lookahead body, n, h => by
    rw [Condition.toJson] at *
    obtain ⟨m, rfl, hm⟩ := depth_tagged_le h
    rw [Read.condition]
    exact Json.reads_tagged rfl ((reads_quantified body hm).map _)

theorem reads_quantified : ∀ (body : Quantified) {n : Nat}, body.toJson.depth ≤ n →
    Reads (Read.quantified n) body.toJson.text body
  | ⟨expr, quantifier⟩, n, h => by
    rw [Quantified.toJson] at *
    obtain ⟨m, rfl, hm⟩ := depth_object_le h
    simp only [List.forall_mem_cons] at hm
    rw [Read.quantified]
    exact (Json.reads_record2 (by decide : "expr" ≠ "qty") (reads_expr expr hm.1)
      (reads_quantifier quantifier hm.2.1)).bind fun _ => rfl

theorem reads_quantifier : ∀ (q : Quantifier) {n : Nat}, q.toJson.depth ≤ n →
    Reads (Read.quantifier n) q.toJson.text q
  | .one, n, _ | .optional, n, _ | .zeroOrMore, n, _ | .oneOrMore, n, _ => by
    rw [Quantifier.toJson]
    rcases n with _ | _ | n <;> rw [Read.quantifier] <;> exact Json.reads_bare rfl _
  | .exact count, n, h => by
    rw [Quantifier.toJson] at *
    obtain ⟨m, rfl, -⟩ := depth_tagged_le h
    cases m with
    | zero =>
      rw [Read.quantifier]
      exact Json.reads_tagged rfl ((Json.reads_wordValue count).map _)
    | succ m =>
      rw [Read.quantifier]
      exact Json.reads_tagged rfl ((Json.reads_wordValue count).map _)
  | .range min max, n, h => by
    rw [Quantifier.toJson] at *
    obtain ⟨m, rfl, hpayload⟩ := depth_tagged_le h
    have hbounds : Reads (Read.bounds "struct variant Quantifier::Range" _ m) _ (min, max) :=
      reads_bounds hpayload (reads_optionalCount min) (reads_optionalCount max)
    obtain ⟨k, rfl, -⟩ := depth_object_le hpayload
    rw [Read.quantifier]
    exact Json.reads_tagged rfl (hbounds.bind fun _ => rfl)
  | .separated count separator, n, h => by
    rw [Quantifier.toJson] at *
    obtain ⟨m, rfl, hpayload⟩ := depth_tagged_le h
    obtain ⟨k, rfl, hfields⟩ := depth_object_le hpayload
    simp only [List.forall_mem_cons] at hfields
    rw [Read.quantifier]
    exact Json.reads_tagged rfl ((Json.reads_record2 (by decide : "count" ≠ "separator")
      (Json.reads_wordValue count) (reads_expr separator hfields.2.1)).bind fun _ => rfl)
  | .computed min max, n, h => by
    rw [Quantifier.toJson] at *
    obtain ⟨m, rfl, hpayload⟩ := depth_tagged_le h
    have hbounds : Reads (Read.bounds "struct variant Quantifier::Dynamic" _ m) _ (min, max) :=
      reads_bounds hpayload (Json.reads_optional min) (Json.reads_optional max)
    obtain ⟨k, rfl, -⟩ := depth_object_le hpayload
    rw [Read.quantifier]
    exact Json.reads_tagged rfl (hbounds.bind fun _ => rfl)

theorem reads_expr : ∀ (e : Expr) {n : Nat}, e.toJson.depth ≤ n →
    Reads (Read.expr n) e.toJson.text e
  | .literal value, n, h => by
    rw [Expr.toJson] at *
    obtain ⟨m, rfl, hm⟩ := depth_tagged_le h
    rw [Read.expr]
    exact Json.reads_tagged rfl ((reads_oneText hm).map _)
  | .class items, n, h => by
    rw [Expr.toJson] at *
    obtain ⟨m, rfl, hm⟩ := depth_tagged_le h
    rw [Read.expr]
    exact Json.reads_tagged rfl ((reads_charClass hm).map _)
  | .ruleRef target, n, h => by
    rw [Expr.toJson] at *
    obtain ⟨m, rfl, hm⟩ := depth_tagged_le h
    rw [Read.expr]
    exact Json.reads_tagged rfl ((reads_oneText hm).map _)
  | .anyChar, n, h => by
    rw [Expr.toJson]
    cases n <;> rw [Read.expr] <;> exact Json.reads_bare rfl _
  | .endOfInput, n, h => by
    rw [Expr.toJson]
    cases n <;> rw [Read.expr] <;> exact Json.reads_bare rfl _
  | .group alternatives, n, h => by
    rw [Expr.toJson] at *
    obtain ⟨m, rfl, hpayload⟩ := depth_tagged_le h
    rw [Read.expr]
    exact Json.reads_tagged rfl ((reads_choice hpayload (reads_alternatives alternatives)).map _)

end

/-! ## Documents -/

theorem reads_rule {r : Rule} {n : Nat} (h : r.toJson.depth ≤ n) :
    Reads (Read.rule n) r.toJson.text r := by
  obtain ⟨m, rfl, hfields⟩ := depth_object_le h
  simp only [List.forall_mem_cons] at hfields
  exact (Json.reads_record3 (by decide : "id" ≠ "start" ∧ "id" ≠ "body" ∧ "start" ≠ "body")
    (Json.reads_textValue r.id) (Json.reads_boolValue r.start)
      (reads_choice hfields.2.2.1 (reads_alternatives r.alternatives))).bind fun _ => rfl

theorem reads_grammar {g : Grammar} {n : Nat} (h : g.toJson.depth ≤ n) :
    Reads (Read.grammar n) g.toJson.text g := by
  obtain ⟨m, rfl, hfields⟩ := depth_object_le h
  obtain ⟨k, rfl, hrules⟩ := depth_array_le (hfields _ List.mem_cons_self)
  have hread : Reads (Read.rules (k + 1)) _ g.rules :=
    Json.reads_list (fun _ => Json.opens_object _) (fun _ _ => reads_rule) hrules
  exact (Json.reads_record3 (by decide : "rules" ≠ "prologue" ∧ "rules" ≠ "epilogue" ∧
    "prologue" ≠ "epilogue") hread (Json.reads_optional g.prologue)
      (Json.reads_optional g.epilogue)).bind fun _ => rfl

theorem reads_actionType {e : ActionType} {n : Nat} (h : e.toJson.depth ≤ n) :
    Reads (Read.actionType n) e.toJson.text e := by
  obtain ⟨m, rfl, -⟩ := depth_object_le h
  exact (Json.reads_record3 (by decide : "rule" ≠ "alternative" ∧ "rule" ≠ "return_type" ∧
    "alternative" ≠ "return_type") (Json.reads_textValue e.rule)
      (Json.reads_sizeValue e.alternative) (Json.reads_textValue e.returnType)).bind fun _ => rfl

theorem reads_actionTypes {t : ActionTypes} {n : Nat} (ht : t.Ordered) (h : t.toJson.depth ≤ n) :
    Reads (Read.actionTypes n) t.toJson.text t := by
  obtain ⟨m, rfl, hentries⟩ := depth_array_le h
  have hread : Reads (Json.listOf (Read.actionType m)) t.toJson.text t.entries :=
    Json.reads_list (fun _ => Json.opens_object _) (fun _ _ => reads_actionType) hentries
  have htable := hread.map ActionTypes.ofList
  rw [ActionTypes.ofList_entries ht] at htable
  exact htable

theorem reads_document {d : Document} {n : Nat} (ht : d.actionTypes.Ordered)
    (h : d.toJson.depth ≤ n) : Reads (Read.document n) d.toJson.text d := by
  obtain ⟨m, rfl, hfields⟩ := depth_object_le h
  simp only [List.forall_mem_cons] at hfields
  exact (Json.reads_record2 (by decide : "grammar" ≠ "action_types") (reads_grammar hfields.1)
    (reads_actionTypes ht hfields.2.1)).bind fun _ => rfl

end Grammar

namespace Document

theorem parse_render {d : Document} (ht : d.actionTypes.Ordered)
    (h : d.toJson.depth ≤ Json.depthLimit) : parse d.render = .ok d := by
  apply Json.Reads.whole
  rw [render, Json.render, String.toList_ofList]
  exact Grammar.reads_document ht h

/-- Whatever text a document is read from, its declared types are a table. -/
theorem ordered_of_parse {text : String} {d : Document} (h : parse text = .ok d) :
    d.actionTypes.Ordered := by
  have hread : Json.Ensures (Grammar.Read.document Json.depthLimit)
      fun d => d.actionTypes.Ordered := by
    have htable : ∀ n, Json.Ensures (Grammar.Read.actionTypes (n + 1)) ActionTypes.Ordered :=
      fun _ => .map fun _ es _ _ => ActionTypes.ordered_ofList es
    have hempty : ∀ t ∈ some ({} : ActionTypes), t.Ordered := by
      rintro _ ⟨⟩
      exact List.Pairwise.nil
    exact .bind (.record2 (htable _) hempty hempty) fun _ ht => .pure ht
  exact Json.Ensures.whole hread h

/-- **Documents survive serialization.** A document whose declared types are a table and
whose text nests no deeper than 127 levels is read from its own text as itself. A text that
such a document is read from, however it is written, therefore has a canonical form: the
text of the document, from which the same document is read and the same text is written. -/
theorem render_survives :
    (∀ d : Document, d.actionTypes.Ordered → d.toJson.depth ≤ 127 → parse d.render = .ok d) ∧
    (∀ (text : String) (d : Document), parse text = .ok d → d.toJson.depth ≤ 127 →
      parse d.render = .ok d ∧ (parse d.render).map render = .ok d.render) := by
  refine ⟨fun d ht h => parse_render ht h, ?_⟩
  intro text d htext h
  have hsame : parse d.render = .ok d := parse_render (ordered_of_parse htext) h
  refine ⟨hsame, ?_⟩
  rw [hsame]
  rfl

/-- A document as an author may write it: fields out of order, left out or without names, and
an escaped character. -/
def handWritten : String :=
  "\x7b\"action_types\": [[\"b\", 1, \"t\"], [\"a\", 0, \"\\u00e9\"]],\n" ++
  "\"grammar\": [[\x7b\"id\": \"a\", \"body\": [[[[\x7b\"neg_assertion\": " ++
  "[\x7b\"element\": [\"any\"]\x7d]\x7d]]]]\x7d]]\x7d"

def handWrittenDocument : Document where
  grammar := { rules := [⟨"a", false, [⟨[.check true (.lookahead ⟨.anyChar, .one⟩)], none⟩]⟩] }
  actionTypes := ⟨[⟨"a", 0, "é"⟩, ⟨"b", 1, "t"⟩]⟩

set_option maxRecDepth 2000 in
theorem parse_handWritten : parse handWritten = .ok handWrittenDocument := by
  unfold parse Json.whole handWritten
  -- the characters of a literal are at hand, those of a joined text have to be computed
  rw [String.toList_append, String.toList_append, String.toList_ofList, String.toList_ofList,
    String.toList_ofList]
  cbv

theorem handWritten_survives :
    (parse handWritten = .ok handWrittenDocument ∧ handWrittenDocument.actionTypes.Ordered ∧
      handWrittenDocument.toJson.depth ≤ 127) ∧
    parse handWrittenDocument.render = .ok handWrittenDocument ∧
    (parse handWrittenDocument.render).map render = .ok handWrittenDocument.render := by
  have hordered : handWrittenDocument.actionTypes.Ordered := ordered_of_parse parse_handWritten
  have hdepth : handWrittenDocument.toJson.depth ≤ 127 := by decide
  exact ⟨⟨parse_handWritten, hordered, hdepth⟩,
    render_survives.2 handWritten handWrittenDocument parse_handWritten hdepth⟩

end Document

end PegCompiler
