import PegCompiler.Proofs.Lowering.Refinement
/-
  What a parser that is lowered has come to, also one that no grammar resolves to: its
  names have passed the checks in front of lowering, and the module has the functions of
  the rules in their order and then those of the extracted code.
-/

namespace PegCompiler.Lowering

open Resolved (Parser Rule isIdentifier resultVar sameName)
open Target (Function Module Stmt)

/-- The function of a rule is made of the statements of its body, a choice. -/
theorem yields_rule {rule : Rule} {f : Function} (h : lowerRule rule = .ok f) :
    ∃ choice entry scope, Yields (lowerChoice [.return] rule.body) {} (choice, entry) scope ∧
      f = {
        recursive := true
        name := rule.function
        args := [resultVar]
        result := acceptVar
        decls := [⟨rule.resultType.spec, ["intent(out)"], [resultVar]⟩,
          ⟨"logical", [], [acceptVar]⟩] ++ scope.decls
        body := .stmts (ruleStmts rule.start choice entry) } := by
  unfold lowerRule at h
  split at h
  next => cases h
  next choice entry scope hrun =>
    obtain rfl := Except.ok.inj h
    refine ⟨choice, entry, scope, hrun, ?_⟩
    unfold ruleStmts endTest
    simp only [List.cons_append, List.nil_append, List.append_assoc]

/-- Names that are accepted are identifiers, and differ even when case is ignored. -/
theorem of_functionFailure : ∀ {names seen : List String}, functionFailure seen names = none →
    (∀ name ∈ names, isIdentifier name = true) ∧
      names.Pairwise (fun a b => sameName a b = false) ∧
      ∀ name ∈ names, ∀ other ∈ seen, sameName name other = false
  | [], _, _ => ⟨fun _ h => (nomatch h), .nil, fun _ h => (nomatch h)⟩
  | name :: rest, seen, h => by
    rw [functionFailure] at h
    split at h
    next => cases h
    next hident =>
      split at h
      next => cases h
      next hseen =>
        obtain ⟨hidents, hdistinct, hrest⟩ := of_functionFailure h
        have hnew : ∀ other ∈ seen, sameName name other = false := by simpa using hseen
        refine ⟨List.forall_mem_cons.mpr ⟨by simpa using hident, hidents⟩, ?_, ?_⟩
        · refine List.pairwise_cons.mpr ⟨fun other hother => ?_, hdistinct⟩
          rw [sameName, Bool.beq_comm]
          exact hrest other hother name (List.mem_cons_self ..)
        · exact List.forall_mem_cons.mpr ⟨hnew, fun other hother earlier hearlier =>
            hrest other hother earlier (List.mem_cons_of_mem name hearlier)⟩

theorem moduleFailure_eq_none {o : Options} : moduleFailure o = none ↔
    isIdentifier o.moduleName = true ∧ isIdentifier o.runtimeModule = true ∧
      sameName o.moduleName o.runtimeModule = false := by
  unfold moduleFailure
  split
  next h => simp_all
  next hmodule =>
    split
    next h => simp_all
    next hruntime => split <;> simp_all

/-- The module of a parser with names that are accepted and rules that have functions. -/
theorem lower_eq {p : Parser} {o : Options} {fs : List Function} (hmodules : moduleFailure o = none)
    (hfunctions : functionFailure [] (functionNames p) = none)
    (hrules : p.rules.mapM lowerRule = .ok fs) : lower p o = .ok {
      name := o.moduleName
      uses := [o.runtimeModule]
      prologue := p.prologue
      functions := functions p fs
      epilogue := p.epilogue } := by
  unfold lower
  rw [hmodules, hfunctions, hrules]
  rfl

/-- What a lowered parser has come to. -/
structure Lowered (p : Parser) (o : Options) (m : Module) (fs : List Function) : Prop where
  modules : isIdentifier o.moduleName = true ∧ isIdentifier o.runtimeModule = true ∧
    sameName o.moduleName o.runtimeModule = false
  identifiers : ∀ name ∈ functionNames p, isIdentifier name = true
  distinct : (functionNames p).Pairwise (fun a b => sameName a b = false)
  rules : List.Forall₂ (fun rule f => lowerRule rule = .ok f) p.rules fs
  result : m = {
    name := o.moduleName
    uses := [o.runtimeModule]
    prologue := p.prologue
    functions := functions p fs
    epilogue := p.epilogue }

theorem lowered_of_lower {p : Parser} {o : Options} {m : Module} (h : lower p o = .ok m) :
    ∃ fs, Lowered p o m fs := by
  unfold lower at h
  split at h
  next => cases h
  next hnone =>
    obtain ⟨hmodule, hfunctions⟩ := Option.or_eq_none_iff.mp hnone
    cases hfs : p.rules.mapM lowerRule with
    | error failure =>
      rw [hfs] at h
      nomatch h
    | ok fs =>
      rw [hfs] at h
      obtain ⟨hidents, hdistinct, -⟩ := of_functionFailure hfunctions
      exact ⟨fs, moduleFailure_eq_none.mp hmodule, hidents, hdistinct, forall₂_of_mapM_ok hfs,
        (Except.ok.inj h).symm⟩

namespace Lowered

variable {p : Parser} {o : Options} {m : Module} {fs : List Function}

theorem functions_eq (h : Lowered p o m fs) : m.functions = functions p fs := by
  rw [h.result]

/-- The function of a rule is one of the module. -/
theorem mem_functions (h : Lowered p o m fs) {f : Function} (hf : f ∈ fs) : f ∈ m.functions :=
  h.functions_eq ▸ List.mem_append_left _ hf

/-- A function of a module is that of a rule or an extracted one. -/
theorem function_cases (h : Lowered p o m fs) {f : Function} (hf : f ∈ m.functions) :
    (∃ rule ∈ p.rules, lowerRule rule = .ok f) ∨ ∃ a ∈ p.actions, lowerAction a = f := by
  rw [h.functions_eq] at hf
  rcases List.mem_append.mp hf with hf | hf
  · obtain ⟨rule, hrule, hlower⟩ := exists_left h.rules hf
    exact .inl ⟨rule, hrule, hlower⟩
  · exact .inr (List.mem_map.mp hf)

/-- A function has the name of its rule, or of its action. -/
theorem names (h : Lowered p o m fs) : (m.functions.map fun f => f.name) = functionNames p := by
  have hrules : (fs.map fun f => f.name) = p.rules.map fun r => r.function :=
    map_eq_map (h.rules.flip.imp fun _ _ hf => name_lowerRule hf)
  have hactions : ((p.actions.map lowerAction).map fun f => f.name) =
      p.actions.map fun a => a.function := by
    rw [List.map_map]
    rfl
  rw [h.functions_eq, functions, List.map_append, hrules, hactions, functionNames]

end Lowered

end PegCompiler.Lowering
