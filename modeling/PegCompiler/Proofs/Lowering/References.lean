import PegCompiler.Proofs.Lowering.Functions
import PegCompiler.Proofs.Lowering.Locals
import PegCompiler.Proofs.Resolved.Captures
/-
  What generated code refers to. Apart from captures these are the cursor, the input, the
  argument and the result of the function, and its locals; and captures stand in the code, block by
  block, where they stand in the parser (`Refers`). Statements that run on failure refer
  to no captures, wherever they are put.
-/

namespace PegCompiler.Lowering

open Naming (word)
open Resolved (AltResult Bound Capture Parser resultVar)
open Target (Binding Expr Stmt blockOf casesBindings branchesBindings listVariables onlyOf
  optionalBindings othersOf stmtsBindings uses)

/-- Whether a name is that of a capture. -/
def isCapture (name : String) : Bool :=
  word name == "capture".toList

/-- The names that every function may refer to: two of the runtime module, its argument and
its result. -/
def sharedNames : List String := [cursorVar, inputVar, resultVar, acceptVar]

/-- A name is that of no capture, and is shared or that of a local. -/
structure Local (sc : Scope) (name : String) : Prop where
  known : name ∈ sharedNames ∨ name ∈ sc.names
  other : isCapture name = false

theorem isCapture_of_word {name w : String} (h : word name = w.toList) (hw : w ≠ "capture") :
    isCapture name = false := by
  apply beq_false_of_ne
  rw [h]
  exact fun he => hw (String.toList_inj.mp he)

namespace Local

variable {sc : Scope}

theorem shared {name : String} (h : name ∈ sharedNames) : Local sc name :=
  ⟨.inl h, (by decide : ∀ name ∈ sharedNames, isCapture name = false) name h⟩

theorem cursor : Local sc cursorVar := shared (by decide)

theorem own {w : String} (hw : w ∈ ownWords) {k : Nat} (h : numbered w k ∈ sc.names) :
    Local sc (numbered w k) :=
  ⟨.inr h, isCapture_of_word (word_own hw k)
    ((by decide : ∀ w ∈ ownWords, w ≠ "capture") w hw)⟩

/-- The names of a tidy scope. -/
theorem of_tidy (h : Tidy sc) {name : String} (hname : name ∈ sc.names) : Local sc name :=
  ⟨.inr hname, beq_false_of_ne ((h.made name hname).word_ne (by decide))⟩

theorem mono {sc' : Scope} {name : String} (h : Local sc name) (hsub : sc.names ⊆ sc'.names) :
    Local sc' name :=
  ⟨h.known.imp_right fun hname => hsub hname, h.other⟩

end Local

/-- References are to captures just as in `tree`, and else to locals and shared names. -/
structure Refers (sc : Scope) (bs tree : List Binding) : Prop where
  locals : ∀ name ∈ othersOf isCapture bs, name ∈ sharedNames ∨ name ∈ sc.names
  captures : onlyOf isCapture bs = tree

namespace Refers

variable {sc : Scope} {a b t u : List Binding}

theorem nil : Refers sc [] [] :=
  ⟨fun _ h => (nomatch h), rfl⟩

theorem append (ha : Refers sc a t) (hb : Refers sc b u) : Refers sc (a ++ b) (t ++ u) where
  locals name h := by
    rw [Target.othersOf_append] at h
    exact (List.mem_append.mp h).elim (ha.locals name) (hb.locals name)
  captures := by rw [Target.onlyOf_append, ha.captures, hb.captures]

/-- Nothing that refers to a capture follows. -/
theorem before (ha : Refers sc a t) (hb : Refers sc b []) : Refers sc (a ++ b) t := by
  have h := ha.append hb
  rwa [List.append_nil] at h

theorem mono {sc' : Scope} (h : Refers sc a t) (hsub : sc.names ⊆ sc'.names) : Refers sc' a t :=
  ⟨fun name hname => (h.locals name hname).imp_right fun hmem => hsub hmem, h.captures⟩

theorem vars : ∀ {names : List String}, (∀ name ∈ names, Local sc name) → Refers sc (uses names) []
  | [], _ => nil
  | name :: rest, h => by
    obtain ⟨hknown, hother⟩ := h name (List.mem_cons_self ..)
    have hfirst : Refers sc [.use name] [] := by
      refine ⟨fun n hn => ?_, by simp [onlyOf, Binding.only, hother]⟩
      simp only [othersOf, Binding.others, hother, List.append_nil] at hn
      exact List.mem_singleton.mp hn ▸ hknown
    exact hfirst.append (vars fun n hn => h n (List.mem_cons_of_mem name hn))

theorem captured : ∀ {names : List String}, (∀ name ∈ names, isCapture name = true) →
    Refers sc (uses names) (uses names)
  | [], _ => nil
  | name :: rest, h => by
    have hname := h name (List.mem_cons_self ..)
    have hfirst : Refers sc [.use name] [.use name] := by
      refine ⟨fun n hn => ?_, by simp [onlyOf, Binding.only, hname]⟩
      simp [othersOf, Binding.others, hname] at hn
    exact hfirst.append (captured fun n hn => h n (List.mem_cons_of_mem name hn))

theorem block (h : Refers sc a t) (names : List String) :
    Refers sc (blockOf names a) (blockOf names t) := by
  unfold blockOf
  split
  · exact h
  · refine ⟨fun name hname => h.locals name ?_, ?_⟩
    · simpa [othersOf, Binding.others] using hname
    · simp [onlyOf, Binding.only, h.captures]

/-! ## Statements -/

variable {stmts : List Stmt}

theorem cons {stmt : Stmt} (h : Refers sc stmt.bindings t) (hrest : Refers sc (stmtsBindings stmts) u) :
    Refers sc (stmtsBindings (stmt :: stmts)) (t ++ u) := by
  rw [stmtsBindings]
  exact h.append hrest

theorem single {stmt : Stmt} (h : Refers sc stmt.bindings t) :
    Refers sc (stmtsBindings [stmt]) t := by
  rw [Target.stmtsBindings_single]
  exact h

/-- Statements in front of others. -/
theorem concat {others : List Stmt} (h : Refers sc (stmtsBindings stmts) t)
    (hothers : Refers sc (stmtsBindings others) u) :
    Refers sc (stmtsBindings (stmts ++ others)) (t ++ u) := by
  rw [Target.stmtsBindings_append]
  exact h.append hothers

theorem assign {lhs : String} {rhs : Expr} (hrhs : Refers sc (uses rhs.variables) t)
    (hlhs : Refers sc (uses [lhs]) u) : Refers sc (Stmt.assign lhs rhs).bindings (t ++ u) := by
  rw [Stmt.bindings]
  exact hrhs.append hlhs

/-- An assignment without captures. -/
theorem assignLocal {lhs : String} {rhs : Expr} (hrhs : ∀ name ∈ rhs.variables, Local sc name)
    (hlhs : Local sc lhs) : Refers sc (Stmt.assign lhs rhs).bindings [] :=
  (vars hrhs).assign (vars fun _ hname => List.mem_singleton.mp hname ▸ hlhs)

theorem keep {var : String} (h : Local sc var) : Refers sc (keep var).bindings [] :=
  assignLocal (fun _ hname => List.mem_singleton.mp hname ▸ Local.cursor) h

theorem restore {var : String} (h : Local sc var) : Refers sc (restore var).bindings [] :=
  assignLocal (fun _ hname => List.mem_singleton.mp hname ▸ h) Local.cursor

theorem when {test : Expr} (htest : Refers sc (uses test.variables) t)
    (h : Refers sc (stmtsBindings stmts) u) : Refers sc (Stmt.when test stmts).bindings (t ++ u) := by
  rw [Stmt.when, Stmt.bindings, branchesBindings, optionalBindings, List.append_nil, List.append_nil]
  exact htest.append h

theorem failOn {test : Expr} (htest : Refers sc (uses test.variables) t)
    (hfail : Refers sc (stmtsBindings stmts) []) (negated : Bool) :
    Refers sc (failOn negated test stmts).bindings t := by
  have hwhen := htest.when hfail
  rw [List.append_nil] at hwhen
  cases negated with
  | true => exact hwhen
  | false =>
    have hnot : Refers sc (uses (Expr.not test).variables) t := by
      rw [Expr.variables]
      exact htest
    have h := hnot.when hfail
    rwa [List.append_nil] at h

/-- Leaving a construct refers to nothing. -/
theorem exit (label : Option String) : Refers sc (Stmt.exit label).bindings [] := by
  rw [Stmt.bindings]
  exact nil

end Refers

section
variable {sc : Scope} {fail body : List Stmt} {t u : List Binding}

/-! ## Terminals -/

theorem listVariables_strings : ∀ (chars : List Char),
    listVariables (chars.map fun c => .str (String.ofList [c])) = []
  | [] => rfl
  | c :: chars => by
    rw [List.map_cons, listVariables, listVariables_strings chars, Expr.variables]
    rfl

theorem variables_classTest (test : Resolved.ClassTest) : (classTest test).variables = [] := by
  cases test with
  | set chars =>
    rw [classTest, Expr.variables, listVariables, Expr.variables, listVariables_strings]
    rfl
  | range bottom top => rfl

theorem branchesBindings_class : ∀ (tests : List Resolved.ClassTest),
    branchesBindings (tests.map fun t => (classTest t, [])) = []
  | [] => rfl
  | t :: tests => by
    rw [List.map_cons, branchesBindings, branchesBindings_class tests, variables_classTest]
    rfl

/-- A test that refers to no variables. -/
theorem refers_failUnless {test : Expr} (htest : test.variables = [])
    (hfail : Refers sc (stmtsBindings fail) []) :
    Refers sc (stmtsBindings [failUnless test fail]) [] := by
  have h : Refers sc (uses test.variables) [] := by
    rw [htest]
    exact .nil
  exact .single (h.failOn hfail false)

theorem refers_class {tests : List Resolved.ClassTest} {stmt : Stmt}
    (h : classStmt fail tests = .ok stmt) (hfail : Refers sc (stmtsBindings fail) []) :
    Refers sc (stmtsBindings [stmt]) [] := by
  obtain ⟨test, -, rfl⟩ | ⟨test, rest, -, rfl⟩ := classStmt_cases h
  · exact refers_failUnless (variables_classTest test) hfail
  · rw [Target.stmtsBindings_single, Stmt.bindings, variables_classTest, branchesBindings_class,
      optionalBindings]
    exact hfail

/-! ## Rows -/

theorem listVariables_vars : ∀ (args : List String), listVariables (args.map .var) = args
  | [] => rfl
  | arg :: args => by
    rw [List.map_cons, listVariables, listVariables_vars args, Expr.variables]
    rfl

theorem variables_foldl : ∀ (vars : List String) (e : Expr),
    (vars.foldl (fun lhs v => .bin .concat lhs (.var v)) e).variables = e.variables ++ vars
  | [], e => (List.append_nil _).symm
  | v :: vars, e => by
    rw [List.foldl_cons, variables_foldl vars, Expr.variables, Expr.variables, List.append_assoc]
    rfl

theorem variables_concatVars (vars : List String) : (concatVars vars).variables = vars := by
  cases vars with
  | nil => rfl
  | cons v vars =>
    rw [concatVars, variables_foldl, Expr.variables]
    rfl

/-- The input from a kept place on. -/
theorem local_consumedSince {save : String} (hsave : Local sc save) :
    ∀ name ∈ (consumedSince save).variables, Local sc name := by
  have hvars : (consumedSince save).variables = [inputVar, save, cursorVar] := rfl
  intro name hname
  rw [hvars] at hname
  simp only [List.mem_cons, List.not_mem_nil, or_false] at hname
  rcases hname with rfl | rfl | rfl
  · exact .shared (by decide)
  · exact hsave
  · exact .cursor

/-- The value of a row refers to what it is made of. -/
theorem refers_result {save : String} (hsave : Local sc save) {value : AltResult}
    (hvalue : ∀ var ∈ value.variables, isCapture var = true) :
    Refers sc (uses (resultExpr save value).variables) (uses value.variables) := by
  cases value with
  | consumed => exact .vars (local_consumedSince hsave)
  | capture var => exact .captured hvalue
  | concat vars =>
    rw [resultExpr, variables_concatVars]
    exact .captured hvalue
  | action call =>
    rw [resultExpr, actionCall, Expr.variables, listVariables_vars]
    exact .captured hvalue

theorem refers_assignResult {save : String} (value : AltResult) (hsave : Local sc save)
    (hvalue : ∀ var ∈ value.variables, isCapture var = true) {result : Option String}
    (hresult : ∀ var, result = some var → Local sc var) :
    Refers sc (stmtsBindings (assignResult save value result))
      (uses (if result.isSome then value.variables else [])) := by
  cases result with
  | none => exact .nil
  | some var =>
    have hvar : Refers sc (uses [var]) [] :=
      .vars fun _ hname => List.mem_singleton.mp hname ▸ hresult var rfl
    have h := (refers_result hsave hvalue).assign hvar
    rw [List.append_nil] at h
    exact .single h

theorem stmtsBindings_captureBlock (captures : List Capture) (body : List Stmt) :
    stmtsBindings (captureBlock captures body) =
      blockOf (captures.map fun c => c.var) (stmtsBindings body) := by
  unfold captureBlock
  split
  next h =>
    rw [List.isEmpty_iff.mp h]
    rfl
  next =>
    have hnames : Target.declared (captures.map fun c => ⟨c.type.spec, [], [c.var]⟩) =
        captures.map fun c => c.var := by
      unfold Target.declared
      rw [List.flatMap_map]
      exact List.map_eq_flatMap.symm
    rw [Target.stmtsBindings_single, Stmt.bindings, hnames]

/-! ## Choices -/

/-- The exits behind rows refer to nothing. -/
theorem casesBindings_rows (label : String) : ∀ (rows : List (List Stmt)) (n : Nat),
    casesBindings ((rows.zipIdx n).map fun (body, n) => (n, body ++ [.exit (some label)])) =
      rows.flatMap stmtsBindings
  | [], _ => rfl
  | row :: rows, n => by
    rw [List.zipIdx_cons, List.map_cons, casesBindings, casesBindings_rows label rows (n + 1),
      Target.stmtsBindings_append, Target.stmtsBindings_single, Stmt.bindings, List.append_nil]
    rfl

theorem refers_choiceLoop (label : String) {index save : String} {rows : List (List Stmt)}
    (hindex : Local sc index) (hsave : Local sc save) (h : Refers sc (rows.flatMap stmtsBindings) t)
    (hfail : Refers sc (stmtsBindings fail) []) :
    Refers sc (choiceLoop label index save rows fail).bindings t := by
  have hvar : Refers sc (uses [index]) [] :=
    .vars fun _ hname => List.mem_singleton.mp hname ▸ hindex
  unfold choiceLoop
  rw [Stmt.bindings]
  refine hvar.append (.cons (.restore hsave) (.single ?_))
  rw [Stmt.bindings, casesBindings_rows, optionalBindings]
  exact (hvar.append h).before hfail

/-! ## Lookaheads -/

theorem refers_lookahead {label save ok : String} {negated : Bool} (hsave : Local sc save)
    (hok : Local sc ok) (h : Refers sc (stmtsBindings body) t)
    (hfail : Refers sc (stmtsBindings fail) []) :
    Refers sc (stmtsBindings [keep save, .assign ok (.logical false),
      .block (some label) [] (body ++ [.assign ok (.logical true)]), restore save,
      failOn negated (.var ok) fail]) t := by
  have hassign (b : Bool) : Refers sc (Stmt.assign ok (.logical b)).bindings [] :=
    .assignLocal (fun _ hname => nomatch hname) hok
  have hblock : Refers sc
      (Stmt.block (some label) [] (body ++ [.assign ok (.logical true)])).bindings t := by
    rw [Stmt.bindings, Target.stmtsBindings_append]
    exact h.before (.single (hassign true))
  have htest : Refers sc (uses (Expr.var ok).variables) [] :=
    .vars fun _ hname => List.mem_singleton.mp hname ▸ hok
  have hrest := (Refers.restore hsave).cons (.single (htest.failOn hfail negated))
  have hfrom := hblock.cons hrest
  rw [List.append_nil, List.append_nil] at hfrom
  exact (Refers.keep hsave).cons ((hassign false).cons hfrom)

/-! ## Captured elements -/

theorem refers_capturedText {mark : String} {capture : Capture} (hmark : Local sc mark)
    (hcapture : isCapture capture.var = true) (h : Refers sc (stmtsBindings body) t) :
    Refers sc (stmtsBindings ([keep mark] ++ body ++ [.assign capture.var (consumedSince mark)]))
      (t ++ uses [capture.var]) := by
  have hassign : Refers sc (Stmt.assign capture.var (consumedSince mark)).bindings
      (uses [capture.var]) :=
    (Refers.vars (local_consumedSince hmark)).assign
      (.captured fun _ hname => List.mem_singleton.mp hname ▸ hcapture)
  exact ((Refers.single (.keep hmark)).concat h).concat (.single hassign)

/-! ## Repetitions -/

section
variable {k : Nat} {w : String}

theorem refers_boundKept {b : Option Bound}
    (h : ∀ expr, b = some (.code expr) → Local sc (numbered w k)) :
    Refers sc (stmtsBindings (boundKept w k b).2) [] := by
  match b with
  | none => exact .nil
  | some (.count _) => exact .nil
  | some (.code expr) => exact .single (.assignLocal (fun _ hname => nomatch hname) (h expr rfl))

theorem local_boundExpr {b : Bound} (h : ∀ expr, b = .code expr → Local sc (numbered w k)) :
    ∀ name ∈ (boundExpr (boundKept w k (some b)).1 b).variables, Local sc name := by
  cases b with
  | count n => exact fun _ hname => nomatch hname
  | code expr => exact fun _ hname => List.mem_singleton.mp hname ▸ h expr rfl

/-- Statements under a comparison without captures. -/
theorem refers_compare {op : Target.BinOp} {lhs rhs : Expr}
    (hlhs : ∀ name ∈ lhs.variables, Local sc name) (hrhs : ∀ name ∈ rhs.variables, Local sc name)
    (h : Refers sc (stmtsBindings body) t) :
    Refers sc (stmtsBindings [.when (.bin op lhs rhs) body]) t := by
  have htest : Refers sc (uses (Expr.bin op lhs rhs).variables) [] := by
    rw [Expr.variables]
    exact .vars fun name hname => (List.mem_append.mp hname).elim (hlhs name) (hrhs name)
  exact .single (htest.when h)

theorem local_var {name : String} (h : Local sc name) :
    ∀ n ∈ (Expr.var name).variables, Local sc n :=
  fun _ hn => List.mem_singleton.mp hn ▸ h

theorem local_int (n : Nat) : ∀ name ∈ (Expr.int n).variables, Local sc name :=
  fun _ hname => nomatch hname

variable {min : Bound} {max : Option Bound} (vars : RepeatVars sc k min max)
include vars

/-- What is kept in front of the turns. -/
theorem refers_prepared : Refers sc (stmtsBindings ((boundKept "lo" k (some min)).2 ++
    (boundKept "hi" k max).2 ++ savedStmts k min)) [] := by
  have hlo : Refers sc (stmtsBindings (boundKept "lo" k (some min)).2) [] :=
    refers_boundKept fun expr he => .own (by decide) (vars.lo expr (Option.some.inj he))
  have hhi : Refers sc (stmtsBindings (boundKept "hi" k max).2) [] :=
    refers_boundKept fun expr he => .own (by decide) (vars.hi expr he)
  have hsaved : Refers sc (stmtsBindings (savedStmts k min)) [] := by
    unfold savedStmts
    split
    next h => exact .single (.keep (.own (by decide) (vars.save h)))
    next => exact .nil
  exact (hlo.concat hhi).concat hsaved

theorem refers_loop {between : Option (List Stmt)} (hbetween : Refers sc (optionalBindings between) t)
    (hbody : Refers sc (stmtsBindings body) u) :
    Refers sc (repeatLoop (numbered "rep" k) (numbered "count" k) (numbered "mark" k)
      (boundKept "hi" k max).1 max between body).bindings (t ++ u) := by
  have hcount : Local sc (numbered "count" k) := .own (by decide) vars.count
  have hmark : Local sc (numbered "mark" k) := .own (by decide) vars.mark
  have hexit : Refers sc (stmtsBindings [.exit (some (numbered "rep" k))]) [] := .single (.exit _)
  have hlimit : Refers sc (stmtsBindings (limitStmts k max)) [] := by
    cases max with
    | none => exact .nil
    | some max =>
      have hhi (expr : String) (he : max = .code expr) : Local sc (numbered "hi" k) :=
        .own (by decide) (vars.hi expr (congrArg some he))
      exact refers_compare (local_var hcount) (local_boundExpr hhi) hexit
  have hseparator : Refers sc (stmtsBindings (betweenStmts k between)) t := by
    cases between with
    | none => exact hbetween
    | some stmts => exact refers_compare (local_var hcount) (local_int 0) hbetween
  have hnext : Refers sc (Stmt.assign (numbered "count" k)
      (.bin .add (.var (numbered "count" k)) (.int 1))).bindings [] :=
    .assignLocal (local_var hcount) hcount
  have hprogress : Refers sc (stmtsBindings (progressStmts k max)) [] := by
    cases max with
    | none => exact refers_compare (local_var .cursor) (local_var hmark) hexit
    | some max => exact .nil
  -- only the separator and the body refer to captures
  have hturn := (hseparator.concat hbody).concat (hnext.cons hprogress)
  rw [List.append_nil, List.append_nil] at hturn
  rw [repeatLoop_eq, Stmt.bindings]
  exact hlimit.concat ((Refers.keep hmark).cons hturn)

/-- The check behind the turns. -/
theorem refers_check (hfail : Refers sc (stmtsBindings fail) []) :
    Refers sc (stmtsBindings (checkStmts k min fail)) [] := by
  unfold checkStmts
  split
  next h =>
    have hlo (expr : String) (he : min = .code expr) : Local sc (numbered "lo" k) :=
      .own (by decide) (vars.lo expr he)
    exact refers_compare (local_var (.own (by decide) vars.count)) (local_boundExpr hlo)
      ((Refers.restore (.own (by decide) (vars.save h))).cons hfail)
  next => exact .nil

theorem refers_repeat {between : Option (List Stmt)}
    (hbetween : Refers sc (optionalBindings between) t) (hbody : Refers sc (stmtsBindings body) u)
    (hfail : Refers sc (stmtsBindings fail) []) :
    Refers sc (stmtsBindings ((boundKept "lo" k (some min)).2 ++ (boundKept "hi" k max).2 ++
      savedStmts k min ++ [.assign (numbered "count" k) (.int 0),
        repeatLoop (numbered "rep" k) (numbered "count" k) (numbered "mark" k)
          (boundKept "hi" k max).1 max between body] ++ checkStmts k min fail)) (t ++ u) := by
  have hstart : Refers sc (Stmt.assign (numbered "count" k) (.int 0)).bindings [] :=
    .assignLocal (local_int 0) (.own (by decide) vars.count)
  have hloop := hstart.cons (.single (refers_loop vars hbetween hbody))
  have h := ((refers_prepared vars).concat hloop).concat (refers_check vars hfail)
  rw [List.append_nil] at h
  exact h

end

end

end PegCompiler.Lowering
