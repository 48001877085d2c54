import PegCompiler.Proofs.Lowering.Assigned
import PegCompiler.Proofs.Lowering.Variables
import PegCompiler.Proofs.Resolution.Groups
/-
  The variables of generated functions. In the function of every rule of a parser that
  resolution returns,

    no name is declared twice, by the function or by one of its blocks;
    every name is declared where it is referred to, but for the cursor and the input;
    a capture is declared by the block of the row that captures it, which is the
      innermost block around every reference to it;
    groups whose values are captured have variables of their own;
    and no variable is read before it is set.
-/

namespace PegCompiler.Lowering

open Naming (word)
open Resolved (Parser Rule alternativesGroupVars resultVar)
open Semantics (Host)
open Target (DistinctNames Expr Function Runtime Stmt allClosed allDistinct allOwn declared onlyOf
  stmtsBindings uses)

/-! ## Declarations -/

theorem declared_decls (s : Scope) : declared s.decls = s.names := by
  have hdecl (type : String) (names : List String) :
      declared (Scope.declOf type names) = names := by
    unfold Scope.declOf
    split
    next h =>
      rw [List.isEmpty_iff.mp h]
      rfl
    next => exact List.append_nil names
  have hothers : declared (s.others.map fun v => ⟨v.2.spec, [], [v.1]⟩) =
      s.others.map fun v => v.1 := by
    unfold declared
    rw [List.flatMap_map]
    exact List.map_eq_flatMap.symm
  unfold Scope.decls Scope.names
  rw [Target.declared_append, Target.declared_append, hdecl, hdecl, hothers]

/-- The argument and the result of a function stand before its locals. -/
theorem distinct_declared {sc : Scope} (ht : Tidy sc) :
    DistinctNames (resultVar :: acceptVar :: sc.names) := by
  have hres : resultVar ∉ sc.names := fun h =>
    (ht.made _ h).word_ne (w := "res") (by decide) (by decide)
  have haccept : acceptVar ∉ sc.names := fun h =>
    (ht.made _ h).word_ne (w := "accept") (by decide) (by decide)
  apply Naming.pairwise_of_small
  · intro name hname
    rcases List.mem_cons.mp hname with rfl | hname
    · exact ⟨3, .of_all (by decide) (by decide)⟩
    · rcases List.mem_cons.mp hname with rfl | hname
      · exact ⟨6, .of_all (by decide) (by decide)⟩
      · exact (ht.made name hname).small
  · have hne : resultVar ≠ acceptVar := by decide
    simp [List.nodup_cons, hres, haccept, hne, ht.nodup]

/-! ## The function of a rule -/

/-- The names in the function of a rule, with the statements `body`. -/
structure WellScoped (rule : Rule) (f : Function) (body : List Stmt) : Prop where
  /-- No name is declared twice by the function. -/
  distinct : DistinctNames (declared f.decls)
  /-- Nor is one by a block. -/
  blocks : allDistinct (stmtsBindings body)
  /-- The argument and the result are declared. -/
  interface : f.result :: f.args ⊆ declared f.decls
  /-- So are all names in the statements, by the function or a block around them, but for
  the cursor and the input. -/
  closed : allClosed (cursorVar :: inputVar :: declared f.decls) (stmtsBindings body)
  /-- References to captures, and blocks, are those of the rows of the rule. -/
  captures : onlyOf isCapture (stmtsBindings body) = rule.body.bindings
  /-- Every reference to a capture is to one of the innermost block around it. -/
  own : allOwn [] rule.body.bindings
  /-- Groups whose values are captured have variables that differ. -/
  groups : (alternativesGroupVars rule.body.alternatives).Nodup

theorem refers_endTest {sc : Scope} {entry : String} (hentry : Local sc entry) (start : Bool) :
    Refers sc (stmtsBindings (endTest start entry)) [] := by
  cases start with
  | false => exact .nil
  | true =>
    have hreturn : Refers sc (stmtsBindings [Stmt.return]) [] := .nil
    have hback := (Refers.restore hentry).cons hreturn
    have htest : Refers sc (uses (Expr.not (.call acceptEnd [])).variables) [] := .nil
    exact .single (htest.when hback)

/-- The choice of a rule refers to captures as the rule does. -/
theorem lowers_rule {p : Parser} (hp : p.Typed) {rule : Rule} (hrule : rule.Typed p)
    {choice : List Stmt} {entry : String} {scope : Scope}
    (h : Yields (lowerChoice [.return] rule.body) {} (choice, entry) scope) :
    Lowers scope (stmtsBindings choice) rule.body.bindings ∧ Local scope entry := by
  obtain ⟨id, function, start, type, ⟨alternatives, result⟩⟩ := rule
  obtain rfl : result = some resultVar := hrule.result
  have hmade : ResultMade (some resultVar) := fun var hvar => .inl (Option.some.inj hvar).symm
  have hreturn : Refers {} (stmtsBindings [Stmt.return]) [] := .nil
  obtain ⟨hlowers, hentry, -⟩ := lowers_choiceOf hp
    (fun hsave hvars => lowers_alternatives hp alternatives hrule.rows hsave hvars) hrule.rows
    hmade h .empty hreturn
  rw [Resolved.Choice.bindings]
  exact ⟨hlowers, hentry⟩

theorem wellScoped {p : Parser} (hp : p.Typed) {rule : Rule} (hrule : rule.Typed p)
    (hgroups : (alternativesGroupVars rule.body.alternatives).Nodup) {f : Function}
    (hf : lowerRule rule = .ok f) : ∃ body, f.body = .stmts body ∧ WellScoped rule f body := by
  obtain ⟨choice, scope, g, hyields, hg, -, hargs, hresult, hbody, hdecls⟩ := lowerRule_ok hp hrule
  obtain rfl := Except.ok.inj (hf.symm.trans hg)
  obtain ⟨⟨ht, hchoice⟩, hentry⟩ := lowers_rule hp hrule hyields
  obtain ⟨id, function, start, type, ⟨alternatives, result⟩⟩ := rule
  obtain rfl : result = some resultVar := hrule.result
  have hrows : Resolved.alternativesTyped p alternatives := hrule.rows
  rw [Resolved.Choice.bindings] at hchoice
  -- the statements around those of the choice
  have hassign (b : Bool) : Refers scope (Stmt.assign acceptVar (.logical b)).bindings [] :=
    .assignLocal (fun _ hname => nomatch hname) (.shared (by decide))
  have hend := (refers_endTest hentry start).concat (.single (hassign true))
  have hall := (hassign false).cons (hchoice.concat hend)
  rw [List.append_nil, List.append_nil] at hall
  have hnames : declared f.decls = resultVar :: acceptVar :: scope.names := by
    rw [hdecls, Target.declared_append, declared_decls]
    rfl
  have hinBlock : Resolved.InBlock [] (Resolved.alternativesBindings true alternatives) :=
    Resolved.alternatives_inBlock true alternatives hrows
  have hcaptures : onlyOf isCapture (stmtsBindings (ruleStmts start choice (numbered "save" 1))) =
      Resolved.alternativesBindings true alternatives := hall.captures
  refine ⟨_, hbody, ?_⟩
  constructor
  · rw [hnames]
    exact distinct_declared ht
  · apply Target.allDistinct_of_only
    rw [hcaptures]
    exact hinBlock.distinct
  · rw [hnames, hresult, hargs]
    simp
  · -- locals are declared by the function, and captures by the block of their row
    apply Target.allClosed_of_only
    · intro name hname
      rw [hnames]
      rcases hall.locals name hname with h | h
      · simp only [sharedNames, List.mem_cons, List.not_mem_nil, or_false] at h ⊢
        tauto
      · simp [h]
    · rw [hcaptures]
      exact Target.allClosed_of_own _ (List.nil_subset _) hinBlock.own
  · rw [Resolved.Choice.bindings]
    exact hcaptures
  · rw [Resolved.Choice.bindings]
    exact hinBlock.own
  · exact hgroups

/-! ## All functions -/

/-- The function of a rule reads no variable before it is set, whatever it is run on. -/
def ReadsAssigned (p : Parser) (fs : List Function) (f : Function) : Prop :=
  ∀ {V : Type} (H : Host V) (R : Runtime) (input : List Char), R.Faithful input →
    ∀ (depth pos : Nat), pos ≤ input.length → ¬ f.Faults (machine p fs H R input depth) (pos + 1)

/-- **Every variable of a generated function is declared, is the right one, and is set
before it is read.** -/
theorem variables_resolve {g : Grammar} {types : ActionTypes} {p : Parser}
    (h : Resolution.resolve g types = .ok p) :
    ∃ fs, p.rules.mapM lowerRule = .ok fs ∧ ∀ rule ∈ p.rules, ∃ f body,
      lowerRule rule = .ok f ∧ f.body = .stmts body ∧ WellScoped rule f body ∧
        ReadsAssigned p fs f := by
  have hp := Resolution.typed_of_resolve h
  obtain ⟨fs, hok, hfs⟩ := rules_ok hp
  refine ⟨fs, hok, fun rule hrule => ?_⟩
  have htyped := hp.rules rule hrule
  obtain ⟨f, -, hf⟩ := exists_right hfs hrule
  obtain ⟨body, hbody, hscoped⟩ := wellScoped hp htyped (Resolution.nodup_groupVars h hrule) hf
  refine ⟨f, body, hf, hbody, hscoped, ?_⟩
  intro V H R input hR depth pos hpos
  exact not_faults hp (linked hp hfs hR H depth) htyped hf hpos

/-- A group whose row captures under the same name as the row around it. -/
def shadowing : Grammar where
  rules := [
    ⟨"S", true, [⟨[.item true none ⟨.group [⟨[.item true none ⟨.ruleRef "A", .one⟩], none⟩], .one⟩],
      none⟩]⟩,
    ⟨"A", false, [⟨[.item false none ⟨.literal "a", .one⟩], none⟩]⟩]

def shadowingParser : Parser where
  rules := [
    ⟨"S", "peg_s", true, .text,
      ⟨[⟨[⟨.choice ⟨[⟨[⟨.call ⟨"A", "peg_a", .text⟩, some ⟨"capture_0_0", .text, .value⟩⟩],
          .capture "capture_0_0", .text⟩], some "group_0_0"⟩,
        some ⟨"capture_0_0", .text, .value⟩⟩], .capture "capture_0_0", .text⟩], some "res"⟩⟩,
    ⟨"A", "peg_a", false, .text, ⟨[⟨[⟨.literal "a", none⟩], .consumed, .text⟩], some "res"⟩⟩]
  actions := []

/-- Each of the two blocks holds the references to its own capture. -/
theorem shadowing_variables : Resolution.resolve shadowing {} = .ok shadowingParser ∧
    (∃ fs, shadowingParser.rules.mapM lowerRule = .ok fs ∧
      ∀ rule ∈ shadowingParser.rules, ∃ f body, lowerRule rule = .ok f ∧ f.body = .stmts body ∧
        WellScoped rule f body ∧ ReadsAssigned shadowingParser fs f) ∧
    shadowingParser.rules.map (fun rule => rule.body.bindings) =
      [[.block ["capture_0_0"] [.block ["capture_0_0"] (uses ["capture_0_0", "capture_0_0"]),
        .use "capture_0_0", .use "capture_0_0"]], []] := by
  have h : Resolution.resolve shadowing {} = .ok shadowingParser := by cbv
  exact ⟨h, variables_resolve h, rfl⟩

end PegCompiler.Lowering
