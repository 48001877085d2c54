import PegCompiler.Target.Module
/-
  Statements whose text can be read back. Names are spelled like names, so that they can be
  told from operators and numbers; no character constant is the operand of an operator,
  since the pieces of a constant are put together by one; comparisons do not associate; and
  a declaration in a block has a type and names only. What code may stand in expressions is
  left open.
-/

namespace PegCompiler.Target

/-- The characters of names behind the first. -/
def isNameChar (c : Char) : Bool :=
  c.isAlphanum || c == '_'

/-- A text is spelled like a name, of whatever length. -/
def IsName (s : String) : Prop :=
  ∃ c cs, s.toList = c :: cs ∧ c.isAlpha = true ∧ ∀ d ∈ cs, isNameChar d = true

/-- The call that stands for a character in constants. -/
def characterCall : String := "achar"

/-- Whether an operator is a comparison. -/
def BinOp.isRelation : BinOp → Bool
  | .eq | .gt | .ge | .lt => true
  | .add | .sub | .concat => false

/-- Whether an expression is a comparison. -/
def Expr.isRelation : Expr → Bool
  | .bin op _ _ => op.isRelation
  | _ => false

/-- Whether an expression is a character constant. -/
def Expr.isConstant : Expr → Bool
  | .str _ => true
  | _ => false

mutual

/-- An expression can be read back, as can the code in it. -/
def Expr.Legible (code : String → Prop) : Expr → Prop
  | .var name => IsName name
  | .int _ => True
  | .logical _ => True
  | .str _ => True
  | .call name args => IsName name ∧ name ≠ characterCall ∧ exprsLegible code args
  | .substring var lo hi => IsName var ∧ lo.Legible code ∧ hi.Legible code
  | .array items => exprsLegible code items
  | .not operand => operand.isConstant = false ∧ operand.Legible code
  | .bin op lhs rhs =>
    (lhs.isConstant = false ∧ lhs.Legible code) ∧ (rhs.isConstant = false ∧ rhs.Legible code) ∧
      (op.isRelation = true → lhs.isRelation = false)
  | .verbatim c => code c

/-- All of some expressions can be read back. -/
def exprsLegible (code : String → Prop) : List Expr → Prop
  | [] => True
  | e :: rest => e.Legible code ∧ exprsLegible code rest

end

/-- A declaration has a type and names only. -/
structure Decl.Legible (d : Decl) : Prop where
  attrs : d.attrs = []
  some : d.names ≠ []
  names : ∀ name ∈ d.names, IsName name

/-- The name of a construct, if it has one. -/
def labelLegible (label : Option String) : Prop :=
  ∀ name ∈ label, IsName name

/-- The range of a loop, if it has one. -/
def rangeLegible (code : String → Prop) (range : Option DoRange) : Prop :=
  ∀ r ∈ range, IsName r.var ∧ r.first.Legible code ∧ r.last.Legible code

mutual

/-- A statement can be read back, as can the code in it. -/
def Stmt.Legible (code : String → Prop) : Stmt → Prop
  | .assign lhs rhs => IsName lhs ∧ rhs.Legible code
  | .cond test body elseIfs otherwise =>
    test.Legible code ∧ stmtsLegible code body ∧ branchesLegible code elseIfs ∧
      optionalLegible code otherwise
  | .loop label range body =>
    labelLegible label ∧ rangeLegible code range ∧ stmtsLegible code body
  | .select selector cases default =>
    selector.Legible code ∧ casesLegible code cases ∧ optionalLegible code default
  | .block label decls body =>
    labelLegible label ∧ (∀ d ∈ decls, d.Legible) ∧ stmtsLegible code body
  | .exit label => labelLegible label
  | .cycle label => labelLegible label
  | .return => True

/-- All of some statements can be read back. -/
def stmtsLegible (code : String → Prop) : List Stmt → Prop
  | [] => True
  | s :: rest => s.Legible code ∧ stmtsLegible code rest

/-- The statements of a branch that may be missing. -/
def optionalLegible (code : String → Prop) : Option (List Stmt) → Prop
  | none => True
  | some body => stmtsLegible code body

/-- The tests and statements of further branches. -/
def branchesLegible (code : String → Prop) : List (Expr × List Stmt) → Prop
  | [] => True
  | (test, body) :: rest =>
    test.Legible code ∧ stmtsLegible code body ∧ branchesLegible code rest

/-- The statements of the cases of a selection. -/
def casesLegible (code : String → Prop) : List (Nat × List Stmt) → Prop
  | [] => True
  | (_, body) :: rest => stmtsLegible code body ∧ casesLegible code rest

end

section
-- derives the equations of the recursion here, once: the many proofs that rewrite with them
-- would all wait for the first
attribute [local simp] Expr.Legible Stmt.Legible
end

/-- The body of a function can be read back; nobody looks into other code. -/
def Body.Legible (code : String → Prop) : Body → Prop
  | .stmts body => stmtsLegible code body
  | .verbatim _ => True

/-- The names of a function are spelled like names, and its body can be read back. -/
structure Function.Legible (code : String → Prop) (f : Function) : Prop where
  args : ∀ name ∈ f.args, IsName name
  decls : ∀ d ∈ f.decls, ∀ name ∈ d.names, IsName name
  body : f.body.Legible code

section
variable {code : String → Prop}

theorem exprsLegible_iff {es : List Expr} : exprsLegible code es ↔ ∀ e ∈ es, e.Legible code := by
  induction es with
  | nil => simp [exprsLegible]
  | cons e es ih => rw [exprsLegible, ih, List.forall_mem_cons]

theorem stmtsLegible_iff {ss : List Stmt} : stmtsLegible code ss ↔ ∀ s ∈ ss, s.Legible code := by
  induction ss with
  | nil => simp [stmtsLegible]
  | cons s ss ih => rw [stmtsLegible, ih, List.forall_mem_cons]

theorem branchesLegible_iff {bs : List (Expr × List Stmt)} : branchesLegible code bs ↔
    ∀ b ∈ bs, b.1.Legible code ∧ stmtsLegible code b.2 := by
  induction bs with
  | nil => simp [branchesLegible]
  | cons b bs ih => rw [branchesLegible, ih, List.forall_mem_cons, and_assoc]

theorem stmtsLegible_append {ss ts : List Stmt} (hs : stmtsLegible code ss)
    (ht : stmtsLegible code ts) : stmtsLegible code (ss ++ ts) := by
  rw [stmtsLegible_iff] at *
  exact List.forall_mem_append.mpr ⟨hs, ht⟩

theorem Stmt.Legible.cons {s : Stmt} {rest : List Stmt} (h : s.Legible code)
    (hrest : stmtsLegible code rest) : stmtsLegible code (s :: rest) :=
  ⟨h, hrest⟩

theorem Stmt.Legible.single {s : Stmt} (h : s.Legible code) : stmtsLegible code [s] :=
  ⟨h, True.intro⟩

end

end PegCompiler.Target
