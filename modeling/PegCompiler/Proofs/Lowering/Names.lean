import PegCompiler.Compiler
import PegCompiler.Proofs.Lowering.Refinement
import PegCompiler.Proofs.Naming.Identifiers
import PegCompiler.Proofs.Validity.Grammars
/-
  Lowering of a resolved grammar does not fail. Its names are identifiers that differ
  even when case is ignored: bases differ and decide the numbers behind them, and
  numbers are short as long as there are not too many rules, alternatives and
  predicates. What is left are the calls and classes of the rules, which a well-typed
  parser has in order.
-/

namespace PegCompiler

namespace Resolution

open Grammar (Node Place)
open Naming (FunctionName)
open Lowering (functionNames)

/-! ## Counting predicates -/

theorem countP_of_rule (rule : Grammar.Rule) :
    rule.nodes.countP (isPredicateOf rule.id) = rule.predicateTotal := by
  refine List.countP_congr fun n hn => ?_
  simp [isPredicateOf, rule.rule_of_nodes n hn]

theorem countP_of_others {rules : List Grammar.Rule} {id : String}
    (h : id ∉ rules.map (fun r => r.id)) :
    (rules.flatMap Grammar.Rule.nodes).countP (isPredicateOf id) = 0 := by
  rw [List.countP_eq_zero]
  intro n hn
  obtain ⟨rule, hrule, hn⟩ := List.mem_flatMap.mp hn
  have hne : rule.id ≠ id := fun he => h (he ▸ List.mem_map_of_mem (f := fun r => r.id) hrule)
  simp [isPredicateOf, rule.rule_of_nodes n hn, hne]

/-- The predicates counted for a rule are its own. -/
theorem countP_of_rules {rule : Grammar.Rule} : ∀ {rules : List Grammar.Rule},
    (rules.map (fun r => r.id)).Nodup → rule ∈ rules →
    (rules.flatMap Grammar.Rule.nodes).countP (isPredicateOf rule.id) = rule.predicateTotal
  | other :: rest, hids, hrule => by
    rw [List.map_cons, List.nodup_cons] at hids
    rw [List.flatMap_cons, List.countP_append]
    rcases List.mem_cons.mp hrule with rfl | hrule
    · rw [countP_of_rule, countP_of_others hids.1, Nat.add_zero]
    · have hother : rule.id ∉ [other].map (fun r => r.id) := by
        intro h
        rw [List.map_singleton, List.mem_singleton] at h
        exact hids.1 (h ▸ List.mem_map_of_mem (f := fun r => r.id) hrule)
      have hzero := countP_of_others hother
      rw [List.flatMap_singleton] at hzero
      rw [hzero, Nat.zero_add, countP_of_rules hids.2 hrule]

/-! ## Names of functions -/

/-- A grammar has few rules, alternatives of a rule and predicates of a rule. -/
structure Moderate (g : Grammar) : Prop where
  rules : g.rules.length < 10 ^ 7
  alternatives : ∀ rule ∈ g.rules, rule.alternatives.length < 10 ^ 7
  predicates : ∀ rule ∈ g.rules, rule.predicateTotal < 10 ^ 7

/-- All functions of the parser of a moderate grammar have proper names. -/
theorem functionName_of_resolve {g : Grammar} {types : ActionTypes} {p : Resolved.Parser}
    (h : resolve g types = .ok p) (hg : Moderate g) :
    ∀ name ∈ functionNames p, FunctionName name := by
  have hids := (sound_of_rulesDefect (of_resolve h).1).1
  have hlength : (g.rules.map (fun r => r.id)).length < 10 ^ 7 := by
    rw [List.length_map]
    exact hg.rules
  intro name hname
  rcases List.mem_append.mp hname with hname | hname
  · obtain ⟨r, hr, rfl⟩ := List.mem_map.mp hname
    obtain ⟨rule, base, hmade⟩ := exists_madeOf h hr
    rw [hmade.function]
    exact Naming.functionName_rule (Naming.numberedUpTo_ofIds hmade.named) hlength
  · obtain ⟨a, ha, rfl⟩ := List.mem_map.mp hname
    obtain ⟨limit, out, hn, hactions, hlimit, hrules⟩ := actions_of_resolve h
    obtain ⟨id, base, k, hbase, hissued⟩ := hn.issued a (hactions ▸ ha)
    obtain ⟨rule, hrule, rfl⟩ := List.mem_map.mp (Naming.mem_ids_of_base hbase)
    have hnumbered := Naming.numberedUpTo_ofIds hbase
    -- a predicate has a number among those of its rule, an action that of its alternative
    rcases hissued with ⟨hfunction, hk⟩ | ⟨hfunction, hk⟩
    · have hcount : out.predicateCount rule.id = rule.predicateTotal := by
        rw [(Visited.rules hrules).predicates, countP_of_rules hids hrule]
        exact Nat.zero_add _
      have hk : k < 10 ^ 7 := calc
        k < out.predicateCount rule.id := hk
        _ = rule.predicateTotal := hcount
        _ < 10 ^ 7 := hg.predicates rule hrule
      exact hfunction ▸ Naming.functionName_predicate hnumbered hlength hk
    · have hk : k < 10 ^ 7 := calc
        k < limit rule.id := hk
        _ = rule.alternatives.length := hlimit rule hrule
        _ < 10 ^ 7 := hg.alternatives rule hrule
      exact hfunction ▸ Naming.functionName_action hnumbered hlength hk

end Resolution

namespace Lowering

open Naming (FunctionName)
open Resolved (isIdentifier sameName)

/-- Names that differ from one more name have not been seen with it either. -/
theorem unseen_tail {name : String} {names seen : List String}
    (hname : ∀ other ∈ names, sameName name other = false)
    (hseen : ∀ a ∈ names, ∀ b ∈ seen, sameName a b = false) :
    ∀ a ∈ names, ∀ b ∈ name :: seen, sameName a b = false := by
  intro a ha b hb
  rcases List.mem_cons.mp hb with rfl | hb
  · rw [sameName, Bool.beq_comm]
    exact hname a ha
  · exact hseen a ha b hb

/-- Names are accepted when they are identifiers that differ even when case is
ignored. -/
theorem functionFailure_eq_none : ∀ {names seen : List String},
    (∀ name ∈ names, isIdentifier name = true) →
    names.Pairwise (fun a b => sameName a b = false) →
    (∀ name ∈ names, ∀ other ∈ seen, sameName name other = false) →
    functionFailure seen names = none
  | [], _, _, _, _ => rfl
  | name :: rest, seen, hident, hdistinct, hseen => by
    rw [List.forall_mem_cons] at hident hseen
    rw [List.pairwise_cons] at hdistinct
    have hnew : seen.any (sameName name) = false := by simpa using hseen.1
    have hrest := functionFailure_eq_none hident.2 hdistinct.2 (unseen_tail hdistinct.1 hseen.2)
    simp [functionFailure, hident.1, hnew, hrest]

/-- **Generated function names never clash, so lowering cannot fail.** -/
theorem compile_succeeds {g : Grammar} {types : ActionTypes} {p : Resolved.Parser}
    (h : Resolution.resolve g types = .ok p) (hg : Resolution.Moderate g) {o : Options}
    (hmodule : isIdentifier o.moduleName = true) (hruntime : isIdentifier o.runtimeModule = true)
    (hmodules : sameName o.moduleName o.runtimeModule = false) :
    (∀ name ∈ functionNames p, isIdentifier name = true) ∧
      (functionNames p).Pairwise (fun a b => sameName a b = false) ∧
      (∃ m, lower p o = .ok m) ∧ ∃ compiled, compile g types o = .ok compiled := by
  have hp := Resolution.typed_of_resolve h
  have hnames := Resolution.functionName_of_resolve h hg
  have hident : ∀ name ∈ functionNames p, isIdentifier name = true := fun name hname =>
    Naming.isIdentifier_of_small (hnames name hname).small (hnames name hname).letter
  have hdistinct := Naming.pairwise_of_small (fun name hname => ⟨63, (hnames name hname).small⟩)
    hp.functions
  have hfailure : moduleFailure o = none := by simp [moduleFailure, hmodule, hruntime, hmodules]
  have hfunctions : functionFailure [] (functionNames p) = none :=
    functionFailure_eq_none hident hdistinct (by simp)
  obtain ⟨fs, hfs, -⟩ := rules_ok hp
  have hlower : ∃ m, lower p o = .ok m := by
    unfold lower
    rw [hfailure, hfunctions, hfs]
    exact ⟨_, rfl⟩
  refine ⟨hident, hdistinct, hlower, ?_⟩
  obtain ⟨m, hm⟩ := hlower
  have hwrite : ∃ compiled, writeParser p o = .ok compiled := by
    unfold writeParser
    rw [hm]
    exact ⟨_, rfl⟩
  obtain ⟨compiled, hcompiled⟩ := hwrite
  unfold compile
  simp only [h, hcompiled]
  exact ⟨compiled, rfl⟩

/-- Rules whose ids come to the same name, or end as if they had a number. -/
def clashing : Grammar where
  rules := [
    ⟨"E", true, [⟨[.item false (some "x") ⟨.ruleRef "e", .one⟩,
      .check false (.predicate ⟨[⟨"d", "x"⟩], "logical", "res = len(d) < 5"⟩)],
      some "res = x"⟩]⟩,
    ⟨"e", false, [⟨[.item false none ⟨.ruleRef "e_1", .one⟩], none⟩]⟩,
    ⟨"e_1", false, [⟨[.item false none ⟨.anyChar, .one⟩], none⟩]⟩]

def clashingParser : Resolved.Parser where
  rules := [
    ⟨"E", "peg_e", true, .text,
      ⟨[⟨[⟨.call ⟨"e", "peg_e_1", .text⟩, some ⟨"capture_0_0", .text, .value⟩⟩,
          ⟨.predicate false ⟨"pred_e_0", ["capture_0_0"]⟩, none⟩],
        .action ⟨"action_e_0", ["capture_0_0"]⟩, .text⟩], some "res"⟩⟩,
    ⟨"e", "peg_e_1", false, .text,
      ⟨[⟨[⟨.call ⟨"e_1", "peg_e_1_1", .text⟩, none⟩], .consumed, .text⟩], some "res"⟩⟩,
    ⟨"e_1", "peg_e_1_1", false, .text, ⟨[⟨[⟨.anyChar, none⟩], .consumed, .text⟩], some "res"⟩⟩]
  actions := [
    ⟨.predicate, "pred_e_0", [⟨"d", .text⟩], .declared "logical", "res = len(d) < 5"⟩,
    ⟨.action, "action_e_0", [⟨"x", .text⟩], .text, "res = x"⟩]

theorem clashing_moderate : Resolution.Moderate clashing where
  rules := by decide
  alternatives := by decide
  predicates := by
    intro rule hrule
    have hone : rule.predicateTotal ≤ 1 := by
      simp only [clashing, List.mem_cons, List.not_mem_nil, or_false] at hrule
      rcases hrule with rfl | rfl | rfl <;> decide
    omega

theorem clashing_compiles : Resolution.resolve clashing {} = .ok clashingParser ∧
    functionNames clashingParser = ["peg_e", "peg_e_1", "peg_e_1_1", "pred_e_0", "action_e_0"] ∧
    (∀ name ∈ functionNames clashingParser, isIdentifier name = true) ∧
    (functionNames clashingParser).Pairwise (fun a b => sameName a b = false) ∧
    (∃ m, lower clashingParser {} = .ok m) ∧ ∃ compiled, compile clashing {} {} = .ok compiled := by
  have h : Resolution.resolve clashing {} = .ok clashingParser := by cbv
  exact ⟨h, rfl, compile_succeeds h clashing_moderate (by decide) (by decide) (by cbv)⟩

end Lowering

end PegCompiler
