import PegCompiler.Proofs.Lowering.Clashes
import PegCompiler.Proofs.Lowering.Declared
import PegCompiler.Proofs.Lowering.Emitted
import PegCompiler.Proofs.Resolution.Sizes
/-
  Whether the names that a module introduces are identifiers. Those of modules, functions,
  arguments and results are, since they are checked; too long a name of a function ends
  lowering. All other names are spelled as identifiers, and unless a rule has an enormous
  number of nodes they are short enough too, but for one kind: the variable of a captured
  group names every group around it, so it grows with the nesting of groups, and nothing
  bounds its length. So a module is in order exactly when these variables are short.
-/

namespace PegCompiler.Lowering

open Naming (Small Spelled)
open Resolved (Parser Rule alternativesGroupVars isIdentifier resultVar sameName)
open Target (Body Function Module allBlockNames declared labelsOf sites stmtsBindings)

/-! ## Introduced names -/

/-- The labels in a body, and the names that its blocks declare. -/
def bodyNames : Body → List String
  | .stmts body => labelsOf (sites body) ++ allBlockNames (stmtsBindings body)
  | .verbatim _ => []

/-- The names that a function introduces. -/
def introducedBy (f : Function) : List String :=
  interfaceNames f ++ declared f.decls ++ bodyNames f.body

/-- The names that a module introduces. -/
def introduced (m : Module) : List String :=
  m.name :: m.functions.flatMap introducedBy

/-- The names of a module, of the one it uses and of the interfaces of functions. -/
def checkedNames (m : Module) : List String :=
  m.name :: m.uses ++ m.functions.flatMap interfaceNames

/-- The variables of captured groups. -/
def groupNames (p : Parser) : List String :=
  p.rules.flatMap fun rule => alternativesGroupVars rule.body.alternatives

/-- The words of variables and labels that have a number. -/
def localWords : List String := numberedWords ++ labelWords

/-- The names that the function of a rule introduces. -/
inductive RuleName (rule : Rule) (name : String) : Prop where
  | function (h : name = rule.function)
  | result (h : name = resultVar ∨ name = acceptVar)
  | numbered {w : String} (hw : w ∈ localWords) {k : Nat} (hk : k ≤ rule.body.draws)
      (h : name = numbered w k)
  | group {path : List (Nat × Nat)} (h : name = Resolved.groupVar path)
      (hmem : name ∈ alternativesGroupVars rule.body.alternatives)
  | capture (h : name ∈ allBlockNames rule.body.bindings)

section
variable {p : Parser} {rule : Rule} {f : Function}

/-- A local of the scope that the choice of a rule has come to. -/
theorem ruleName_of_made (hrule : rule.Typed p) {scope : Scope}
    (hadds : Adds rule.body.draws rule.body.groupVars {} scope) {name : String}
    (hname : name ∈ scope.names) (hmade : Made scope.counter name) : RuleName rule name := by
  have hcounter : scope.counter ≤ rule.body.draws := by simpa using hadds.counter
  cases hmade with
  | numbered hw hk h =>
    exact .numbered (List.mem_append_left _ hw) (Nat.le_trans hk hcounter) h
  | group h =>
    have hword : Naming.word name = "group".toList := by rw [h, Naming.word_groupVar]
    obtain ⟨id, function, start, type, ⟨alternatives, result⟩⟩ := rule
    obtain rfl : result = some resultVar := hrule.result
    have hvars := (hadds.groups name hname hword).resolve_left fun h => nomatch h
    rw [Resolved.Choice.groupVars] at hvars
    rcases List.mem_append.mp hvars with hresult | hmem
    · have hname : name = resultVar := by simpa using hresult
      exact .result (.inl hname)
    · exact .group h hmem

theorem ruleName_of_introduced (hp : p.Typed) (hrule : rule.Typed p)
    (hgroups : (alternativesGroupVars rule.body.alternatives).Nodup) (hf : lowerRule rule = .ok f) :
    ∀ name ∈ introducedBy f, RuleName rule name := by
  obtain ⟨body, hbody, hscoped⟩ := wellScoped hp hrule hgroups hf
  obtain ⟨choice, entry, scope, hyields, rfl⟩ := yields_rule hf
  obtain rfl := Body.stmts.inj hbody
  obtain ⟨⟨ht, -⟩, -⟩ := lowers_rule hp hrule hyields
  have hadds := adds_choice rule.body hyields
  have hcounter : scope.counter ≤ rule.body.draws := by simpa using hadds.counter
  intro name hname
  rcases List.mem_append.mp hname with hname | hname
  · rcases List.mem_append.mp hname with hname | hname
    · have hname : name = rule.function ∨ name = resultVar ∨ name = acceptVar := by
        simpa [interfaceNames] using hname
      exact hname.elim .function .result
    · rw [Target.declared_append, declared_decls] at hname
      have hname : name = resultVar ∨ name = acceptVar ∨ name ∈ scope.names := by
        simpa [declared] using hname
      rcases hname with h | h | h
      · exact .result (.inl h)
      · exact .result (.inr h)
      · exact ruleName_of_made hrule hadds h (ht.made name h)
  · rcases List.mem_append.mp hname with hname | hname
    · obtain ⟨w, hw, k, -, hk, h⟩ :=
        ((emits_ruleStmts hyields).placed.labels [] [] []).numbered name hname
      exact .numbered (List.mem_append_right _ hw) (Nat.le_trans hk hcounter) h
    · rw [← Target.allBlockNames_onlyOf isCapture, hscoped.captures] at hname
      exact .capture hname

/-! ## Spelling and length -/

theorem spelled_numbered {w : String} (hw : w ∈ localWords) (k : Nat) :
    Spelled (numbered w k) := by
  have hwords : ∀ w ∈ localWords, w.toList.all Naming.isSmall = true ∧ w.toList.length ≤ 7 ∧
      w.toList.head?.map Char.isAlpha = some true := by decide +kernel
  obtain ⟨hchars, hlength, hhead⟩ := hwords w hw
  obtain ⟨c, hc, halpha⟩ := Option.map_eq_some_iff.mp hhead
  obtain ⟨cs, hcs⟩ := List.head?_eq_some_iff.mp hc
  have hword : Spelled w := ⟨⟨7, .of_all hchars hlength⟩, c, cs, hcs, halpha⟩
  exact hword.concat k

/-- A number of at most twenty digits leaves a name short. -/
theorem small_numbered {w : String} (hw : w ∈ localWords) {k : Nat} (hk : k < 10 ^ 20) :
    Small 28 (numbered w k) := by
  have hwords : ∀ w ∈ localWords, w.toList.all Naming.isSmall = true ∧ w.toList.length ≤ 7 := by
    decide +kernel
  have hword : Small 7 w := .of_all (hwords w hw).1 (hwords w hw).2
  have hmark : Small 1 "_" := .of_all (by decide) (by decide)
  exact (hword.append hmark).append (Naming.small_number (by decide) hk)

theorem length_le_of_small {n : Nat} {name : String} (h : Small n name) (hn : n ≤ 63) :
    name.length ≤ 63 := by
  have hlength := h.length
  rw [String.length_toList] at hlength
  omega

theorem isIdentifier_results : isIdentifier resultVar = true ∧ isIdentifier acceptVar = true := by
  decide +kernel

variable {n : Nat}

/-- Names are spelled as identifiers. -/
theorem RuleName.isIdentifier {name : String} (h : RuleName rule name)
    (hfunction : Resolved.isIdentifier rule.function = true)
    (hsized : Resolution.Sized 0 n rule.body.draws (allBlockNames rule.body.bindings))
    (hlength : name.length ≤ 63) : Resolved.isIdentifier name = true := by
  cases h with
  | function h => exact h ▸ hfunction
  | result h =>
    rcases h with rfl | rfl
    · exact isIdentifier_results.1
    · exact isIdentifier_results.2
  | numbered hw _ h =>
    subst h
    exact (spelled_numbered hw _).isIdentifier hlength
  | group h _ =>
    subst h
    exact (Naming.spelled_groupVar _).isIdentifier hlength
  | capture h =>
    obtain ⟨i, q, -, -, rfl⟩ := hsized.names (0 + n) (Nat.le_refl _) name h
    exact (Naming.spelled_captureVar i q).isIdentifier hlength

/-- Only variables of groups are too long where there are not enormously many nodes. -/
theorem RuleName.group_of_long {name : String} (h : RuleName rule name)
    (hfunction : Resolved.isIdentifier rule.function = true)
    (hsized : Resolution.Sized 0 n rule.body.draws (allBlockNames rule.body.bindings))
    (hn : n < 10 ^ 19) (hlength : 63 < name.length) :
    name ∈ alternativesGroupVars rule.body.alternatives := by
  cases h with
  | function h =>
    have hshort := Naming.length_of_isIdentifier hfunction
    rw [h] at hlength
    omega
  | result h =>
    exfalso
    rcases h with rfl | rfl
    · exact absurd hlength (by decide)
    · exact absurd hlength (by decide)
  | @numbered w hw k hk h =>
    have hdraws := hsized.draws
    have hshort := length_le_of_small (small_numbered (k := k) hw (by omega)) (by decide)
    rw [h] at hlength
    omega
  | group _ hmem => exact hmem
  | capture h =>
    obtain ⟨i, q, hi, hq, rfl⟩ := hsized.names (0 + n) (Nat.le_refl _) name h
    have hshort := length_le_of_small
      (Naming.small_captureVar (i := i) (q := q) (by omega) (by omega)) (by decide)
    omega

/-- A variable of a group is introduced. -/
theorem mem_introduced_of_group (hf : lowerRule rule = .ok f) {var : String}
    (hvar : var ∈ alternativesGroupVars rule.body.alternatives) : var ∈ introducedBy f := by
  obtain ⟨choice, entry, scope, hyields, rfl⟩ := yields_rule hf
  have hadds := adds_choice rule.body hyields
  have hmem : var ∈ rule.body.groupVars := by
    obtain ⟨id, function, start, type, ⟨alternatives, result⟩⟩ := rule
    rw [Resolved.Choice.groupVars]
    exact List.mem_append_right _ hvar
  unfold introducedBy interfaceNames
  rw [Target.declared_append, declared_decls]
  rcases hadds.added var hmem with rfl | hscope
  · simp
  · simp [hscope]

/-- An extracted function introduces its own name, its parameters and its result. -/
theorem mem_interface_of_action {a : Resolved.Action} {name : String}
    (hname : name ∈ introducedBy (lowerAction a)) : name ∈ interfaceNames (lowerAction a) := by
  have hdecls : declared (lowerAction a).decls = (lowerAction a).args ++ [resultVar] := by
    simp only [lowerAction, Target.declared_append]
    congr 1
    simp only [declared, List.flatMap_map]
    exact List.map_eq_flatMap.symm
  unfold introducedBy at hname
  rw [hdecls] at hname
  simpa [interfaceNames, lowerAction, bodyNames, or_comm, or_left_comm] using hname

end

/-! ## Names of a module -/

/-- The names of functions can only be too long. -/
theorem spelled_functionNames {g : Grammar} {types : ActionTypes} {p : Parser}
    (h : Resolution.resolve g types = .ok p) : ∀ name ∈ functionNames p, Spelled name := by
  intro name hname
  rcases List.mem_append.mp hname with hname | hname
  · obtain ⟨r, hr, rfl⟩ := List.mem_map.mp hname
    obtain ⟨rule, base, hmade⟩ := Resolution.exists_madeOf h hr
    rw [hmade.function]
    exact (Naming.spelled_functions (Naming.numberedUpTo_ofIds hmade.named) 0).1
  · obtain ⟨a, ha, rfl⟩ := List.mem_map.mp hname
    obtain ⟨limit, out, hnumbered, hactions, -⟩ := Resolution.actions_of_resolve h
    obtain ⟨id, base, k, hbase, hissued⟩ := hnumbered.issued a (hactions ▸ ha)
    have hspelled := Naming.spelled_functions (Naming.numberedUpTo_ofIds hbase) k
    rcases hissued with ⟨hfunction, -⟩ | ⟨hfunction, -⟩
    · exact hfunction ▸ hspelled.2.2
    · exact hfunction ▸ hspelled.2.1

/-- The first name that is no identifier ends lowering. -/
theorem functionFailure_of_mem : ∀ {names seen : List String} {name : String},
    names.Pairwise (fun a b => sameName a b = false) →
    (∀ name ∈ names, ∀ other ∈ seen, sameName name other = false) →
    name ∈ names → isIdentifier name = false →
    ∃ first ∈ names, isIdentifier first = false ∧
      functionFailure seen names = some (.functionName first)
  | first :: rest, seen, name, hdistinct, hseen, hname, hbad => by
    rw [List.pairwise_cons] at hdistinct
    rw [List.forall_mem_cons] at hseen
    have hnew : seen.any (sameName first) = false := by simpa using hseen.1
    cases hfirst : isIdentifier first with
    | false => exact ⟨first, List.mem_cons_self .., hfirst, by simp [functionFailure, hfirst]⟩
    | true =>
      have hrest : name ∈ rest := by
        rcases List.mem_cons.mp hname with rfl | hname
        · exact absurd hfirst (by simp [hbad])
        · exact hname
      obtain ⟨bad, hmem, hident, hfailure⟩ :=
        functionFailure_of_mem hdistinct.2 (unseen_tail hdistinct.1 hseen.2) hrest hbad
      refine ⟨bad, List.mem_cons_of_mem _ hmem, hident, ?_⟩
      unfold functionFailure
      simp only [hfirst, hnew, hfailure, Bool.not_true, Bool.false_eq_true, if_false]

/-- What the names of a module are. -/
structure LegalNames (g : Grammar) (p : Parser) (m : Module) : Prop where
  /-- The modules, the functions, their arguments and their results have identifiers. -/
  checked : ∀ name ∈ checkedNames m, isIdentifier name = true
  /-- All names are spelled as identifiers. -/
  short : ∀ name ∈ introduced m, name.length ≤ 63 → isIdentifier name = true
  groups : ∀ name ∈ groupNames p, name ∈ introduced m
  /-- Only variables of groups are too long. -/
  long : (∀ rule ∈ g.rules, rule.nodes.length < 10 ^ 19) →
    ∀ name ∈ introduced m, 63 < name.length → name ∈ groupNames p

/-- So all names are identifiers when the variables of groups are short. -/
theorem LegalNames.legal_iff {g : Grammar} {p : Parser} {m : Module} (h : LegalNames g p m)
    (hg : ∀ rule ∈ g.rules, rule.nodes.length < 10 ^ 19) :
    (∀ name ∈ introduced m, isIdentifier name = true) ↔ ∀ name ∈ groupNames p, name.length ≤ 63 := by
  constructor
  · exact fun hlegal name hname => Naming.length_of_isIdentifier (hlegal name (h.groups name hname))
  · intro hshort name hname
    refine h.short name hname (Nat.le_of_not_lt fun hlong => ?_)
    exact Nat.not_le_of_lt hlong (hshort name (h.long hg name hname hlong))


section
variable {p : Parser} {o : Options} {m : Module} {fs : List Function}

/-- A name that a module introduces is shown to others or is one of a rule. -/
theorem Lowered.introduced_cases (h : Lowered p o m fs) (hp : p.Typed)
    (hgroups : ∀ rule ∈ p.rules, (alternativesGroupVars rule.body.alternatives).Nodup)
    {name : String} (hname : name ∈ introduced m) :
    name ∈ checkedNames m ∨ ∃ rule ∈ p.rules, RuleName rule name := by
  unfold checkedNames
  rcases List.mem_cons.mp hname with rfl | hname
  · exact .inl (List.mem_cons_self ..)
  · obtain ⟨f, hf, hname⟩ := List.mem_flatMap.mp hname
    rcases h.function_cases hf with ⟨rule, hrule, hlower⟩ | ⟨a, -, rfl⟩
    · exact .inr ⟨rule, hrule,
        ruleName_of_introduced hp (hp.rules rule hrule) (hgroups rule hrule) hlower name hname⟩
    · exact .inl (List.mem_append_right _
        (List.mem_flatMap.mpr ⟨_, hf, mem_interface_of_action hname⟩))

/-- Names of modules and functions are looked at before lowering, and names of parameters
before that. -/
theorem Lowered.isIdentifier_checked (h : Lowered p o m fs)
    (hparams : ∀ a ∈ p.actions, Resolution.ParamNames (a.params.map fun q => q.name)) :
    ∀ name ∈ checkedNames m, isIdentifier name = true := by
  obtain ⟨hmodule, hruntime, -⟩ := h.modules
  have hglobal : ∀ name ∈ m.name :: m.uses, isIdentifier name = true := by
    rw [h.result]
    simp [hmodule, hruntime]
  refine List.forall_mem_append.mpr ⟨hglobal, fun name hname => ?_⟩
  obtain ⟨f, hf, hname⟩ := List.mem_flatMap.mp hname
  have hfunction : isIdentifier f.name = true :=
    h.identifiers f.name (h.names ▸ List.mem_map_of_mem (f := fun f => f.name) hf)
  rcases List.mem_cons.mp hname with rfl | hname
  · exact hfunction
  rcases h.function_cases hf with ⟨rule, -, hlower⟩ | ⟨a, ha, rfl⟩
  · obtain ⟨choice, entry, scope, -, rfl⟩ := yields_rule hlower
    have hname : name = resultVar ∨ name = acceptVar := by simpa using hname
    rcases hname with rfl | rfl
    · exact isIdentifier_results.1
    · exact isIdentifier_results.2
  · rcases List.mem_append.mp hname with hparam | hresult
    · exact (hparams a ha).identifiers name hparam
    · rw [List.mem_singleton.mp hresult]
      exact isIdentifier_results.1

end

theorem legalNames_of_lowered {g : Grammar} {types : ActionTypes} {p : Parser} {o : Options}
    {m : Module} {fs : List Function} (h : Resolution.resolve g types = .ok p)
    (hlowered : Lowered p o m fs) : LegalNames g p m := by
  have hp := Resolution.typed_of_resolve h
  have hchecked := hlowered.isIdentifier_checked (Resolution.paramNames_of_resolve h)
  have hfunction : ∀ rule ∈ p.rules, isIdentifier rule.function = true := fun rule hrule =>
    hlowered.identifiers rule.function
      (List.mem_append_left _ (List.mem_map_of_mem (f := fun r => r.function) hrule))
  have hcases (name : String) (hname : name ∈ introduced m) :=
    hlowered.introduced_cases hp (fun rule hrule => Resolution.nodup_groupVars h hrule) hname
  constructor
  · exact hchecked
  · intro name hname hlength
    rcases hcases name hname with hname | ⟨rule, hrule, hname⟩
    · exact hchecked name hname
    · obtain ⟨_, -, hsized⟩ := Resolution.sized_of_resolve h hrule
      exact hname.isIdentifier (hfunction rule hrule) hsized hlength
  · intro name hname
    obtain ⟨rule, hrule, hname⟩ := List.mem_flatMap.mp hname
    obtain ⟨f, hf, hlower⟩ := exists_right hlowered.rules hrule
    exact List.mem_cons_of_mem _ (List.mem_flatMap.mpr
      ⟨f, hlowered.mem_functions hf, mem_introduced_of_group hlower hname⟩)
  · intro hg name hname hlong
    rcases hcases name hname with hname | ⟨rule, hrule, hname⟩
    · have hshort := Naming.length_of_isIdentifier (hchecked name hname)
      omega
    · obtain ⟨source, hsource, hsized⟩ := Resolution.sized_of_resolve h hrule
      exact List.mem_flatMap.mpr ⟨rule, hrule,
        hname.group_of_long (hfunction rule hrule) hsized (hg source hsource) hlong⟩

/-- **Names of functions are never too long; only those of the variables of nested groups
can be.** -/
theorem legalNames_of_resolve {g : Grammar} {types : ActionTypes} {p : Parser} {o : Options}
    (h : Resolution.resolve g types = .ok p) :
    (∀ m, lower p o = .ok m → LegalNames g p m ∧
      ((∀ rule ∈ g.rules, rule.nodes.length < 10 ^ 19) →
        ((∀ name ∈ introduced m, isIdentifier name = true) ↔
          ∀ name ∈ groupNames p, name.length ≤ 63))) ∧
    (moduleFailure o = none → ∀ name ∈ functionNames p, 63 < name.length →
      ∃ first ∈ functionNames p, 63 < first.length ∧ lower p o = .error (.functionName first)) := by
  constructor
  · intro m hm
    obtain ⟨fs, hlowered⟩ := lowered_of_lower hm
    have hlegal := legalNames_of_lowered h hlowered
    exact ⟨hlegal, hlegal.legal_iff⟩
  · intro hmodules name hname hlong
    have hspelled := spelled_functionNames h
    have hbad : isIdentifier name = false := Bool.eq_false_iff.mpr fun hident => by
      have hshort := Naming.length_of_isIdentifier hident
      omega
    have hdistinct := Naming.pairwise_of_small (fun other hother => (hspelled other hother).small)
      (Resolution.typed_of_resolve h).functions
    have hunseen : ∀ other ∈ functionNames p, ∀ seen ∈ ([] : List String),
        sameName other seen = false := by simp
    obtain ⟨first, hfirst, hident, hfailure⟩ :=
      functionFailure_of_mem hdistinct hunseen hname hbad
    refine ⟨first, hfirst, Nat.lt_of_not_le fun hshort => ?_, ?_⟩
    · rw [(hspelled first hfirst).isIdentifier hshort] at hident
      cases hident
    · unfold lower
      rw [hmodules, Option.none_or, hfailure]

/-- Captured groups that stand behind ten characters each. -/
def nested : Nat → Grammar.Alternative
  | 0 => ⟨[.item false none ⟨.anyChar, .one⟩], none⟩
  | depth + 1 => ⟨List.replicate 10 (.item false none ⟨.anyChar, .one⟩) ++
      [.item true none ⟨.group [nested depth], .one⟩], none⟩

def deepest : Grammar where
  rules := [⟨"s", true, [nested 12]⟩]

/-- A variable that is no identifier, twelve groups deep. -/
def overlong (p : Parser) : Bool :=
  p.rules.any fun rule =>
    match lowerRule rule with
    | .ok f => (declared f.decls).any (!isIdentifier ·)
    | .error _ => false

theorem deepest_illegal : ∃ p m, Resolution.resolve deepest {} = .ok p ∧
    lower p {} = .ok m ∧ LegalNames deepest p m ∧
      ∃ name ∈ introduced m, 63 < name.length ∧ isIdentifier name = false := by
  have hresolved : ((Resolution.resolve deepest {}).map fun p =>
      (functionNames p, overlong p)).toOption = some (["peg_s"], true) := by decide +kernel
  obtain ⟨p, h, hp⟩ := exists_ok_of_map hresolved
  obtain ⟨hnames, hlong⟩ := Prod.mk.inj hp
  obtain ⟨fs, hfs, hrules⟩ := rules_ok (Resolution.typed_of_resolve h)
  have hmodules : moduleFailure {} = none := by decide +kernel
  have hfunctions : functionFailure [] (functionNames p) = none := by
    rw [hnames]
    decide +kernel
  obtain ⟨m, hm, hall⟩ : ∃ m, lower p {} = .ok m ∧ m.functions = functions p fs :=
    ⟨_, lower_eq hmodules hfunctions hfs, rfl⟩
  obtain ⟨hlegal, -⟩ := (legalNames_of_resolve h).1 m hm
  refine ⟨p, m, h, hm, hlegal, ?_⟩
  obtain ⟨rule, hrule, hdeclares⟩ := List.any_eq_true.mp hlong
  obtain ⟨f, hf, hlower⟩ := exists_right hrules hrule
  rw [hlower] at hdeclares
  obtain ⟨name, hname, hbad⟩ := List.any_eq_true.mp hdeclares
  have hbad : isIdentifier name = false := by simpa using hbad
  have hmem : f ∈ m.functions := hall ▸ List.mem_append_left _ hf
  have hintroduced : name ∈ introduced m := List.mem_cons_of_mem _ (List.mem_flatMap.mpr
    ⟨f, hmem, List.mem_append_left _ (List.mem_append_right _ hname)⟩)
  refine ⟨name, hintroduced, Nat.lt_of_not_le fun hshort => ?_, hbad⟩
  rw [hlegal.short name hintroduced hshort] at hbad
  cases hbad

end PegCompiler.Lowering
