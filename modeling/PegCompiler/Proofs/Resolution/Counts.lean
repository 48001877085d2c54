import PegCompiler.Proofs.Lowering.Integers
import PegCompiler.Proofs.Resolution.Groups
import PegCompiler.Proofs.Resolution.Sizes
/-
  The numbers of a grammar: the counts of its quantifiers, and how many alternatives its
  choices have. Resolution changes none of them, so a module has an integer constant at or
  above a limit exactly when the grammar has such a number. Nothing checks them: a count may
  be any number of 32 bits.
-/

namespace PegCompiler

namespace Grammar

/-! ## Numbers of a grammar -/

/-- The numbers that a quantifier counts to. -/
def Quantifier.counts : Quantifier → List Nat
  | .exact count | .separated count _ => [count.toNat]
  | .range min max => (min.toList ++ max.toList).map UInt32.toNat
  | .one | .optional | .zeroOrMore | .oneOrMore | .computed _ _ => []

/-- The numbers of a node: those of a quantifier, and that of the alternatives of a choice. -/
def Node.counts : Node → List Nat
  | .choice alternatives => [alternatives.length]
  | .quantifier q => q.counts
  | .row _ _ | .label _ _ | .namedGroup _ | .class _ | .predicate _ _ | .reference _ => []

/-- The numbers of nodes. -/
def nodeCounts (nodes : List (Place × Node)) : List Nat :=
  nodes.flatMap fun n => n.2.counts

/-- The numbers of a grammar. -/
def counts (g : Grammar) : List Nat :=
  nodeCounts g.nodes

theorem nodeCounts_append (a b : List (Place × Node)) :
    nodeCounts (a ++ b) = nodeCounts a ++ nodeCounts b :=
  List.flatMap_append

theorem nodeCounts_cons (n : Place × Node) (rest : List (Place × Node)) :
    nodeCounts (n :: rest) = n.2.counts ++ nodeCounts rest :=
  List.flatMap_cons

/-- An item has the numbers of its body. -/
theorem nodeCounts_item (place : Place) (earlier : List Element) (plucked : Bool)
    (label : Option String) (body : Quantified) :
    nodeCounts ((Element.item plucked label body).nodes place earlier) =
      nodeCounts (body.nodes place) := by
  have hlabel : nodeCounts (label.map fun l => (place, Node.label earlier l)).toList = [] := by
    cases label <;> rfl
  have hgroup (b : Bool) : nodeCounts (if b then
      (body.group?.map fun alternatives => (place, Node.namedGroup alternatives)).toList
      else []) = [] := by
    cases b with
    | false => rfl
    | true => cases body.group? <;> rfl
  rw [Element.nodes, nodeCounts_append, nodeCounts_append, hlabel, hgroup, List.nil_append,
    List.append_nil]

/-- A plain quantifier has no number. -/
theorem nodeCounts_one (place : Place) (e : Expr) :
    nodeCounts (Quantified.nodes place ⟨e, .one⟩) = nodeCounts (e.nodes place) := by
  rw [Quantified.nodes, nodeCounts_append, Quantifier.nodes]
  · exact List.append_nil _
  · rintro _ _ ⟨⟩

end Grammar

namespace Resolution

open Grammar (Node Place alternativesNodes elementsNodes nodeCounts nodeCounts_append nodeCounts_cons
  nodeCounts_item nodeCounts_one)
open Lowering (AlternativeFits AlternativesFit BoundFits ChoiceFits ElementsFit Fit MatcherFits
  SeparatorFits fit_append fit_cons fit_nil)
open Resolved (Alternative Bound Element Matcher Parser)

/-! ## Resolution keeps the numbers -/

/-- Every part of resolution keeps numbers: they are below a limit in a part of the grammar
exactly when they are in what it becomes. -/
def counting (limit : Nat) : Relations where
  alternatives _ index _ as rs _ := rs.length = as.length ∧ ∀ place : Nat → Place,
    (AlternativesFit limit rs ↔ Fit limit (nodeCounts (placedNodes place index as)))
  alternative _ _ a r _ := ∀ place : Place,
    (AlternativeFits limit r ↔ Fit limit (nodeCounts (a.nodes place)))
  elements _ _ _ _ es rs _ _ := ∀ (place : Place) (earlier : List Grammar.Element),
    (ElementsFit limit rs ↔ Fit limit (nodeCounts (elementsNodes place earlier es)))
  element _ _ e r _ := ∀ (place : Place) (earlier : List Grammar.Element),
    (MatcherFits limit r.element.matcher ↔ Fit limit (nodeCounts (e.nodes place earlier)))
  quantified _ _ body m _ := ∀ place : Place,
    (MatcherFits limit m ↔ Fit limit (nodeCounts (body.nodes place)))
  expr _ _ e m _ := ∀ place : Place,
    (MatcherFits limit m ↔ Fit limit (nodeCounts (e.nodes place)))

section
variable {limit : Nat}

/-- A choice has the numbers of its alternatives, and how many they are. -/
theorem fits_group {alternatives : List Grammar.Alternative} {rs : List Alternative}
    {result : Option String} {index : Nat} {place : Place}
    (h : rs.length = alternatives.length ∧ ∀ place : Nat → Place, (AlternativesFit limit rs ↔
      Fit limit (nodeCounts (placedNodes place index alternatives)))) :
    MatcherFits limit (.choice ⟨rs, result⟩) ↔
      Fit limit (nodeCounts ((Grammar.Expr.group alternatives).nodes place)) := by
  obtain ⟨hlength, hall⟩ := h
  rw [MatcherFits, ChoiceFits, Grammar.Expr.nodes, nodeCounts_cons, fit_append,
    hall fun _ => place.inGroup, placedNodes_const, hlength]
  exact and_congr_left fun _ => (fit_cons.trans (and_iff_left fit_nil)).symm

theorem quantifier_nodes {q : Grammar.Quantifier} {min : Bound} {max : Option Bound}
    (h : Bounded q min max) (place : Place) : q.nodes place = [(place, .quantifier q)] := by
  cases h <;> simp [Grammar.Quantifier.nodes]

/-- The bounds of a repetition are the counts of its quantifier, or at most one. -/
theorem fits_bounds (hlimit : 1 < limit) {q : Grammar.Quantifier} {min : Bound}
    {max : Option Bound} (h : Bounded q min max) :
    (BoundFits limit min ∧ ∀ b, max = some b → BoundFits limit b) ↔ Fit limit q.counts := by
  have hsmall {n : Nat} (hn : n ≤ 1) : BoundFits limit (.count n) := Nat.lt_of_le_of_lt hn hlimit
  have hsome {b : Bound} : (∀ b', some b = some b' → BoundFits limit b') ↔ BoundFits limit b :=
    ⟨fun h => h b rfl, fun h _ hb => Option.some.inj hb ▸ h⟩
  have hnone : ∀ b, none = some b → BoundFits limit b := fun _ hb => nomatch hb
  have hcount {n : UInt32} : BoundFits limit (.count n.toNat) ↔ Fit limit [n.toNat] :=
    (fit_cons.trans (and_iff_left fit_nil)).symm
  cases h with
  | optional => exact iff_of_true ⟨hsmall (by decide), hsome.mpr (hsmall (by decide))⟩ fit_nil
  | zeroOrMore => exact iff_of_true ⟨hsmall (by decide), hnone⟩ fit_nil
  | oneOrMore => exact iff_of_true ⟨hsmall (by decide), hnone⟩ fit_nil
  | exact _ =>
    rw [hsome, and_self_iff]
    exact hcount
  | @range min max _ =>
    have hmin : BoundFits limit (.count ((min.map UInt32.toNat).getD 0)) ↔
        Fit limit (min.toList.map UInt32.toNat) := by
      cases min with
      | none => exact iff_of_true (hsmall (by decide)) fit_nil
      | some n => exact hcount
    have hmax : (∀ b, max.map (fun n => Bound.count n.toNat) = some b → BoundFits limit b) ↔
        Fit limit (max.toList.map UInt32.toNat) := by
      cases max with
      | none => exact iff_of_true hnone fit_nil
      | some n => exact hsome.trans hcount
    rw [Grammar.Quantifier.counts, List.map_append, fit_append, hmin, hmax]
  | @computed min max _ =>
    refine iff_of_true ⟨?_, ?_⟩ fit_nil
    · cases min with
      | none => exact hsmall (by decide)
      | some code => trivial
    · cases max with
      | none => exact hnone
      | some code => exact hsome.mpr trivial

theorem counting_closed (hlimit : 1 < limit) (env : Env) : (counting limit).Closed env where
  noAlternatives {_ i _} := by
    refine ⟨rfl, fun place => iff_of_true ?_ fit_nil⟩
    rw [AlternativesFit]
    trivial
  moreAlternatives {ctx i out a rest r rs mid out'} ha hrest := by
    obtain ⟨hlength, hrest⟩ := hrest
    refine ⟨congrArg (· + 1) hlength, fun place => ?_⟩
    rw [AlternativesFit, placedNodes_cons, nodeCounts_append, fit_append]
    exact and_congr (ha (place i)) (hrest place)
  row {ctx out elements action es row mid result type out'} hes _ place := by
    have hrow : (Node.row elements action).counts = [] := rfl
    rw [AlternativeFits, Grammar.Alternative.nodes, nodeCounts_append, nodeCounts_cons, hrow]
    exact (hes place []).trans (iff_of_eq (congrArg _ (List.append_nil _).symm))
  noElements {_ _ _ _} place earlier := by
    refine iff_of_true ?_ fit_nil
    rw [ElementsFit]
    trivial
  moreElements {ctx position row out e rest r rs row' mid out'} he hrest place earlier := by
    obtain ⟨⟨m, capture⟩, kind⟩ := r
    rw [ElementsFit, elementsNodes, nodeCounts_append, fit_append]
    exact and_congr (he place earlier) (hrest place (earlier ++ [e]))
  predicate {ctx out negated p call out'} _ place earlier := by
    refine iff_of_true ?_ ?_
    · show MatcherFits limit (.predicate negated call)
      rw [MatcherFits]
      trivial
    · rw [Grammar.Element.nodes]
      exact fit_nil
  lookahead {ctx out negated body m out'} h place earlier := by
    show MatcherFits limit (.lookahead negated m) ↔ _
    rw [MatcherFits, Grammar.Element.nodes]
    exact h place.inLookahead
  reference {ctx out plucked label target call out'} _ _ place earlier := by
    rw [matcher_keptIf, nodeCounts_item, nodeCounts_one, MatcherFits, Grammar.Expr.nodes]
    exact iff_of_true trivial fit_nil
  group {ctx out plucked label alternatives rs out'} _ _ h _ place earlier := by
    rw [matcher_keptIf, nodeCounts_item, nodeCounts_one]
    exact fits_group h
  item {ctx out plucked label body m out'} _ _ h place earlier := by
    rw [matcher_keptIf, nodeCounts_item]
    exact h place
  once {ctx out e m out'} h place := by
    rw [nodeCounts_one]
    exact h place
  repeated {ctx out e q min max m out'} h hbounded place := by
    rw [MatcherFits, SeparatorFits, Grammar.Quantified.nodes, nodeCounts_append, fit_append,
      quantifier_nodes hbounded, nodeCounts_cons, fit_append, ← and_assoc,
      fits_bounds hlimit hbounded, and_true, h place, and_comm]
    exact and_congr_right fun _ => (and_iff_left fit_nil).symm
  separated {ctx out e separator m s mid out' count} h _ hs place := by
    have hcount : (BoundFits limit (.count count.toNat) ∧ ∀ b, some (.count count.toNat) = some b →
        BoundFits limit b) ↔ Fit limit (Node.quantifier (.separated count separator)).counts :=
      ⟨fun hb => fit_cons.mpr ⟨hb.1, fit_nil⟩, fun hb =>
        ⟨(fit_cons.mp hb).1, fun _ h => Option.some.inj h ▸ (fit_cons.mp hb).1⟩⟩
    rw [MatcherFits, SeparatorFits, Grammar.Quantified.nodes, nodeCounts_append, fit_append,
      Grammar.Quantifier.nodes, nodeCounts_cons, fit_append, ← and_assoc, hcount, h place,
      hs place.inSeparator]
    exact and_left_comm
  literal place := by
    rw [MatcherFits, Grammar.Expr.nodes]
    · exact iff_of_true trivial fit_nil
    all_goals rintro _ ⟨⟩
  charClass _ place := by
    rw [MatcherFits, Grammar.Expr.nodes]
    exact iff_of_true trivial fit_nil
  ruleRef _ place := by
    rw [MatcherFits, Grammar.Expr.nodes]
    exact iff_of_true trivial fit_nil
  anyChar place := by
    rw [MatcherFits, Grammar.Expr.nodes]
    · exact iff_of_true trivial fit_nil
    all_goals rintro _ ⟨⟩
  endOfInput place := by
    rw [MatcherFits, Grammar.Expr.nodes]
    · exact iff_of_true trivial fit_nil
    all_goals rintro _ ⟨⟩
  nested {ctx out alternatives rs out'} _ h place := fits_group h

/-- A parser has the numbers of its grammar. -/
theorem fits_resolve (hlimit : 1 < limit) {g : Grammar} {types : ActionTypes} {p : Parser}
    (h : resolve g types = .ok p) :
    (∀ rule ∈ p.rules, ChoiceFits limit rule.body) ↔ Fit limit g.counts := by
  obtain ⟨-, out, hrules, -⟩ := of_resolve h
  have hall : List.Forall₂ (fun (rule : Grammar.Rule) (r : Resolved.Rule) =>
      (ChoiceFits limit r.body ↔ Fit limit (nodeCounts rule.nodes))) g.rules p.rules := by
    refine forall₂_of_rules (fun {rule _ _ _} hstep _ => ?_) hrules
    obtain ⟨-, rs, hrs, -, rfl⟩ := of_resolveRule hstep
    obtain ⟨hlength, hrs⟩ := (counting_closed hlimit _).alternatives _ hrs
    rw [ChoiceFits, Grammar.Rule.nodes, nodeCounts_cons, fit_append, hrs rule.place, hlength]
    exact and_congr_left fun _ => (fit_cons.trans (and_iff_left fit_nil)).symm
  have hcounts : Fit limit g.counts ↔ ∀ rule ∈ g.rules, Fit limit (nodeCounts rule.nodes) := by
    unfold Grammar.counts Grammar.nodes nodeCounts Fit
    rw [List.flatMap_assoc]
    simp only [List.mem_flatMap]
    exact ⟨fun h rule hrule n hn => h n ⟨rule, hrule, hn⟩,
      fun h n hn => hn.elim fun rule hrule => h rule hrule.1 n hrule.2⟩
  rw [hcounts]
  constructor
  · intro hfits rule hrule
    obtain ⟨r, hr, hiff⟩ := exists_right hall hrule
    exact hiff.mp (hfits r hr)
  · intro hfits r hr
    obtain ⟨rule, hrule, hiff⟩ := exists_left hall hr
    exact hiff.mpr (hfits rule hrule)

end

end Resolution

namespace Lowering

/-! ## Integers of the target -/

/-- The number behind the last integer of the target language's default kind. -/
def integerLimit : Nat := 2 ^ 31

/-- **Constants fit unless a number of the grammar does not.** Every integer constant of a
module is an integer of the target language exactly when every count of a quantifier and
every number of alternatives in the grammar is: what the translation adds always fits, and
a number that does not fit is not refused. -/
theorem integers_of_counts {g : Grammar} {types : ActionTypes} {p : Resolved.Parser} {o : Options}
    {m : Target.Module} (h : Resolution.resolve g types = .ok p) (hm : lower p o = .ok m) :
    (∀ n ∈ m.integers, n < integerLimit) ↔ ∀ n ∈ g.counts, n < integerLimit := by
  have hmodule : Fit integerLimit m.integers ↔ ∀ rule ∈ p.rules, ChoiceFits integerLimit rule.body :=
    fit_module (by decide) hm
  exact hmodule.trans (Resolution.fits_resolve (by decide) h)

/-- A repetition up to a number that does not fit. -/
def farCount : Grammar where
  rules := [⟨"s", true, [⟨[.item false none ⟨.anyChar, .exact 4294967295⟩], none⟩]⟩]

def farParser : Resolved.Parser where
  rules := [⟨"s", "peg_s", true, .text, ⟨[⟨[⟨.repeat .anyChar (.count 4294967295)
    (some (.count 4294967295)) none, none⟩], .consumed, .text⟩], some "res"⟩⟩]
  actions := []

theorem farCount_emitted : Resolution.resolve farCount {} = .ok farParser ∧
    ∃ m, lower farParser {} = .ok m ∧ ((∀ n ∈ m.integers, n < integerLimit) ↔
      ∀ n ∈ farCount.counts, n < integerLimit) ∧ 4294967295 ∈ m.integers := by
  have hp : Resolution.resolve farCount {} = .ok farParser := by cbv
  have hmodules : moduleFailure {} = none :=
    moduleFailure_eq_none.mpr ⟨by decide, by decide, by cbv⟩
  have hfunctions : functionFailure [] (functionNames farParser) = none := by decide
  have hintegers : ((farParser.rules.mapM lowerRule).map fun fs =>
      fs.map Target.Function.integers).toOption = some [[0, 4294967295, 1, 4294967295, 1]] := by
    decide +kernel
  obtain ⟨fs, hfs, hintegers⟩ := exists_ok_of_map hintegers
  have hm := lower_eq hmodules hfunctions hfs
  refine ⟨hp, _, hm, integers_of_counts hp hm, ?_⟩
  show 4294967295 ∈ (fs ++ []).flatMap Target.Function.integers
  rw [List.append_nil, List.flatMap_def, hintegers]
  decide

end Lowering

end PegCompiler
