import PegCompiler.Proofs.Lowering.Modules
import PegCompiler.Proofs.Lowering.Names
import PegCompiler.Proofs.Resolution.Interfaces
/-
  Names that share a namespace of the target language: those of the two modules and of all
  functions, and in each function its own name, its arguments and its result. Two functions
  never have one name, nor have two arguments of one function. A name that the author
  chooses can still be that of a function: the checks do not compare the modules with the
  functions, nor an argument with its own function. Such a name starts as the names of
  functions do.
-/

namespace PegCompiler.Lowering

open Resolved (Parser isIdentifier resultVar sameName)
open Target (DistinctNames Function Module)

/-! ## How functions are named -/

/-- What the names of generated functions start with. -/
def functionPrefixes : List String := ["peg_", "action_", "pred_"]

/-- Whether a name starts as those of generated functions do, in letters of either case. -/
def isPrefixed (name : String) : Bool :=
  functionPrefixes.any fun start => start.toList.isPrefixOf name.toLower.toList

theorem isPrefixed_append {start : String} (h : start ∈ functionPrefixes) (name : String) :
    isPrefixed (start ++ name) = true := by
  have hlower : start.toLower = start :=
    (by decide +kernel : ∀ start ∈ functionPrefixes, start.toLower = start) start h
  have hchars : start.toList.map Char.toLower = start.toList := by
    rw [← String.toList_map]
    exact congrArg String.toList hlower
  refine List.any_eq_true.mpr ⟨start, h, List.isPrefixOf_iff_prefix.mpr ?_⟩
  rw [String.toLower, String.toList_map, String.toList_append, List.map_append, hchars]
  exact List.prefix_append _ _

/-- Names that are the same but for case start the same way. -/
theorem isPrefixed_of_same {a b : String} (h : sameName a b = true) :
    isPrefixed a = isPrefixed b := by
  have hlower : a.toLower = b.toLower := eq_of_beq h
  unfold isPrefixed
  rw [hlower]

/-- A name that starts otherwise is none of a function. -/
theorem sameName_of_prefixed {a b : String} (ha : isPrefixed a = true)
    (hb : isPrefixed b = false) : sameName a b = false := by
  cases hsame : sameName a b with
  | false => rfl
  | true => exact absurd ((isPrefixed_of_same hsame).symm.trans ha) (by simp [hb])

theorem isPrefixed_results : isPrefixed resultVar = false ∧ isPrefixed acceptVar = false := by
  decide +kernel

/-- The functions of a grammar are named alike. -/
theorem isPrefixed_functionNames {p : Parser} (hp : p.Typed) :
    ∀ name ∈ functionNames p, isPrefixed name = true := by
  intro name hname
  rcases List.mem_append.mp hname with hname | hname
  · obtain ⟨r, hr, rfl⟩ := List.mem_map.mp hname
    obtain ⟨base, hbase⟩ := hp.ruleNames r hr
    rw [hbase]
    exact isPrefixed_append (by decide) _
  · obtain ⟨a, ha, rfl⟩ := List.mem_map.mp hname
    obtain ⟨base, k, hname | hname⟩ := hp.actionNames a ha
    · rw [hname, Resolved.predicateFunction, String.append_assoc, String.append_assoc]
      exact isPrefixed_append (by decide) _
    · rw [hname, Resolved.actionFunction, String.append_assoc, String.append_assoc]
      exact isPrefixed_append (by decide) _

/-! ## Names of a module -/

/-- The names of a module, of those it uses and of its functions. -/
def globalNames (m : Module) : List String :=
  m.name :: m.uses ++ m.functions.map fun f => f.name

/-- The name of a function, those of its arguments and that of its result. -/
def interfaceNames (f : Function) : List String :=
  f.name :: (f.args ++ [f.result])

/-- The names of a module are kept apart, unless the author chose one of a function. -/
structure NamesApart (p : Parser) (m : Module) : Prop where
  /-- The module is not named as the one that it uses. -/
  modules : DistinctNames (m.name :: m.uses)
  functions : DistinctNames (m.functions.map fun f => f.name)
  /-- A module can be named as a function, and nothing else can clash. -/
  global : DistinctNames (globalNames m) ↔
    ∀ other ∈ m.name :: m.uses, ∀ f ∈ m.functions, sameName other f.name = false
  /-- The arguments and the result of a function differ, and the result is not named as the
  function. -/
  locals : ∀ f ∈ m.functions, DistinctNames (f.args ++ [f.result]) ∧
    sameName f.name f.result = false
  /-- An argument can be named as its own function, and nothing else can clash. -/
  interface : ∀ f ∈ m.functions,
    DistinctNames (interfaceNames f) ↔ ∀ arg ∈ f.args, sameName f.name arg = false
  /-- In the functions of rules nothing can. -/
  rules : ∃ fs, m.functions = fs ++ p.actions.map lowerAction ∧ fs.length = p.rules.length ∧
    ∀ f ∈ fs, DistinctNames (interfaceNames f)
  /-- What clashes with the name of a function starts like it. -/
  prefixed : ∀ f ∈ m.functions, ∀ other, sameName other f.name = true → isPrefixed other = true

/-- The function of a rule has one argument and one result, which are no names of functions. -/
theorem locals_lowerRule {rule : Resolved.Rule} {f : Function} (h : lowerRule rule = .ok f)
    (hname : isPrefixed f.name = true) : DistinctNames (interfaceNames f) := by
  obtain ⟨choice, entry, scope, -, rfl⟩ := yields_rule h
  have hres : sameName resultVar acceptVar = false := by cbv
  have hname : isPrefixed rule.function = true := hname
  refine List.pairwise_cons.mpr ⟨fun other hother => ?_, ?_⟩
  · have hother : other = resultVar ∨ other = acceptVar := by simpa using hother
    rcases hother with rfl | rfl
    · exact sameName_of_prefixed hname isPrefixed_results.1
    · exact sameName_of_prefixed hname isPrefixed_results.2
  · exact List.pairwise_cons.mpr ⟨by simpa using hres, List.pairwise_singleton ..⟩

/-- **Names clash only where the author chose that of a function.** -/
theorem namesApart_of_lower {g : Grammar} {types : ActionTypes} {p : Parser} {o : Options}
    {m : Module} (h : Resolution.resolve g types = .ok p) (hm : lower p o = .ok m) :
    NamesApart p m := by
  have hp := Resolution.typed_of_resolve h
  obtain ⟨fs, hlowered⟩ := lowered_of_lower hm
  have hnames := hlowered.names
  have hprefixed : ∀ f ∈ m.functions, isPrefixed f.name = true := fun f hf =>
    isPrefixed_functionNames hp f.name (hnames ▸ List.mem_map_of_mem (f := fun f => f.name) hf)
  have hmodules : DistinctNames (m.name :: m.uses) := by
    rw [hlowered.result]
    simpa [DistinctNames] using hlowered.modules.2.2
  have hfunctions : DistinctNames (m.functions.map fun f => f.name) :=
    hnames ▸ hlowered.distinct
  have hlocals : ∀ f ∈ m.functions, DistinctNames (f.args ++ [f.result]) ∧
      sameName f.name f.result = false := by
    intro f hf
    have hname := hprefixed f hf
    rcases hlowered.function_cases hf with ⟨rule, -, hlower⟩ | ⟨a, ha, rfl⟩
    · obtain ⟨hown, hrest⟩ := List.pairwise_cons.mp (locals_lowerRule hlower hname)
      exact ⟨hrest, hown f.result (by simp)⟩
    · obtain ⟨-, hresult, hdistinct⟩ := Resolution.paramNames_of_resolve h a ha
      refine ⟨List.pairwise_append.mpr ⟨hdistinct, List.pairwise_singleton .., ?_⟩,
        sameName_of_prefixed hname isPrefixed_results.1⟩
      intro param hparam other hother
      obtain rfl := List.mem_singleton.mp hother
      exact hresult param hparam
  constructor
  · exact hmodules
  · exact hfunctions
  · unfold globalNames DistinctNames
    rw [List.pairwise_append]
    simp only [List.forall_mem_map]
    exact ⟨fun h => h.2.2, fun h => ⟨hmodules, hfunctions, h⟩⟩
  · exact hlocals
  · intro f hf
    obtain ⟨hrest, hresult⟩ := hlocals f hf
    unfold interfaceNames DistinctNames
    rw [List.pairwise_cons, List.forall_mem_append, List.forall_mem_singleton]
    exact ⟨fun h => h.1.1, fun h => ⟨⟨h, hresult⟩, hrest⟩⟩
  · refine ⟨fs, hlowered.functions_eq, hlowered.rules.length_eq.symm, fun f hf => ?_⟩
    obtain ⟨rule, -, hlower⟩ := exists_left hlowered.rules hf
    exact locals_lowerRule hlower (hprefixed f (hlowered.mem_functions hf))
  · exact fun f hf other hsame => (isPrefixed_of_same hsame).trans (hprefixed f hf)

/-- A label that is the name of its own action. -/
def eponymous : Grammar where
  rules := [⟨"s", true, [⟨[.item false (some "Action_S_0") ⟨.anyChar, .one⟩], some "res = ''"⟩]⟩]

theorem not_distinct_of_same {a b : String} {bs : List String} (hb : b ∈ bs)
    (h : sameName a b = true) : ¬ DistinctNames (a :: bs) := fun hdistinct =>
  absurd h (Bool.eq_false_iff.mp ((List.pairwise_cons.mp hdistinct).1 b hb))

/-- A module that is named as the function of a rule, and a function that is named as its
argument. -/
theorem eponymous_clashes : ∃ p m, Resolution.resolve eponymous {} = .ok p ∧
    lower p { moduleName := "PEG_S" } = .ok m ∧ NamesApart p m ∧
      ¬ DistinctNames (globalNames m) ∧ ∃ f ∈ m.functions, ¬ DistinctNames (interfaceNames f) := by
  have hresolved : ((Resolution.resolve eponymous {}).map fun p =>
      (functionNames p, (p.actions.map lowerAction).map interfaceNames)).toOption =
      some (["peg_s", "action_s_0"], [["action_s_0", "Action_S_0", "res"]]) := by decide +kernel
  obtain ⟨p, h, hp⟩ := exists_ok_of_map hresolved
  obtain ⟨hnames, hactions⟩ := Prod.mk.inj hp
  obtain ⟨fs, hfs, -⟩ := rules_ok (Resolution.typed_of_resolve h)
  have hfunctions : functionFailure [] (functionNames p) = none := by
    rw [hnames]
    decide +kernel
  have hm := lower_eq (o := { moduleName := "PEG_S" }) (by decide +kernel) hfunctions hfs
  obtain ⟨_, hlowered⟩ := lowered_of_lower hm
  refine ⟨p, _, h, hm, namesApart_of_lower h hm, ?_, ?_⟩
  · unfold globalNames
    rw [hlowered.names, hnames]
    have hsame : sameName "PEG_S" "peg_s" = true := by cbv
    exact not_distinct_of_same (by simp) hsame
  · obtain ⟨f, hf, hinterface⟩ := List.mem_map.mp (hactions ▸ List.mem_singleton_self _)
    refine ⟨f, List.mem_append_right fs hf, ?_⟩
    have hsame : sameName "action_s_0" "Action_S_0" = true := by cbv
    rw [hinterface]
    exact not_distinct_of_same (List.mem_cons_self ..) hsame

end PegCompiler.Lowering
