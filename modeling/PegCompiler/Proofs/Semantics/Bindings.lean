import PegCompiler.Proofs.Semantics.Target
/-!
  Which names generated code refers to, and in which blocks. `stmtsBindings` keeps of
  some statements the variables that they read or write and the blocks that declare
  variables, each around what it holds; a reference is resolved by the innermost block
  around it that declares its name, or else by the function.
-/

namespace PegCompiler.Target

open Resolved (sameName)

/-- A reference to a variable, or the names that a block declares with what stands in
it. -/
inductive Binding where
  | use (name : String)
  | block (names : List String) (body : List Binding)

/-- References one after another. -/
def uses (names : List String) : List Binding :=
  names.map .use

/-- What stands in a block; one without variables is not kept. -/
def blockOf (names : List String) (body : List Binding) : List Binding :=
  if names.isEmpty then body else [.block names body]

/-- The names that declarations declare. -/
def declared (decls : List Decl) : List String :=
  decls.flatMap (fun d => d.names)

theorem declared_append (a b : List Decl) : declared (a ++ b) = declared a ++ declared b :=
  List.flatMap_append

mutual

/-- The variables of an expression. -/
def Expr.variables : Expr → List String
  | .var name => [name]
  | .call _ args => listVariables args
  | .substring var lo hi => var :: (lo.variables ++ hi.variables)
  | .array items => listVariables items
  | .not operand => operand.variables
  | .bin _ lhs rhs => lhs.variables ++ rhs.variables
  | .int _ | .logical _ | .str _ | .verbatim _ => []

/-- The variables of several expressions. -/
def listVariables : List Expr → List String
  | [] => []
  | e :: rest => e.variables ++ listVariables rest

end

mutual

/-- What a statement refers to. -/
def Stmt.bindings : Stmt → List Binding
  | .assign lhs rhs => uses rhs.variables ++ uses [lhs]
  | .cond test body elseIfs otherwise =>
    uses test.variables ++ stmtsBindings body ++ branchesBindings elseIfs ++
      optionalBindings otherwise
  | .loop _ none body => stmtsBindings body
  | .loop _ (some range) body =>
    uses (range.first.variables ++ range.last.variables ++ [range.var]) ++ stmtsBindings body
  | .select selector cases default =>
    uses selector.variables ++ casesBindings cases ++ optionalBindings default
  | .block _ decls body => blockOf (declared decls) (stmtsBindings body)
  | .exit _ | .cycle _ | .return => []

/-- What statements refer to, one after another. -/
def stmtsBindings : List Stmt → List Binding
  | [] => []
  | stmt :: rest => stmt.bindings ++ stmtsBindings rest

/-- What further branches refer to. -/
def branchesBindings : List (Expr × List Stmt) → List Binding
  | [] => []
  | (test, body) :: rest => uses test.variables ++ stmtsBindings body ++ branchesBindings rest

/-- What statements that may be missing refer to. -/
def optionalBindings : Option (List Stmt) → List Binding
  | none => []
  | some body => stmtsBindings body

/-- What cases refer to. -/
def casesBindings : List (Nat × List Stmt) → List Binding
  | [] => []
  | (_, body) :: rest => stmtsBindings body ++ casesBindings rest

end

section
-- derives the equations of the recursion here, once: the many proofs that rewrite with them
-- would all wait for the first
attribute [local simp] Expr.variables Stmt.bindings
end

@[simp] theorem stmtsBindings_append : ∀ (a b : List Stmt),
    stmtsBindings (a ++ b) = stmtsBindings a ++ stmtsBindings b
  | [], b => by
    rw [stmtsBindings]
    rfl
  | stmt :: rest, b => by
    rw [List.cons_append, stmtsBindings, stmtsBindings, stmtsBindings_append rest b,
      List.append_assoc]

theorem stmtsBindings_single (stmt : Stmt) : stmtsBindings [stmt] = stmt.bindings := by
  rw [stmtsBindings, stmtsBindings, List.append_nil]

/-! ## Names that resolve -/

/-- No name is there twice, also not in other letters of upper and lower case. -/
def DistinctNames (names : List String) : Prop :=
  names.Pairwise (fun a b => sameName a b = false)

mutual

/-- A name is declared by the function, which declares `visible`, or by a block around. -/
def Binding.Closed (visible : List String) : Binding → Prop
  | .use name => name ∈ visible
  | .block names body => allClosed (names ++ visible) body

/-- All names are. -/
def allClosed (visible : List String) : List Binding → Prop
  | [] => True
  | b :: rest => b.Closed visible ∧ allClosed visible rest

end

mutual

/-- A name is one of the innermost block around, which declares `names`. -/
def Binding.Own (names : List String) : Binding → Prop
  | .use name => name ∈ names
  | .block names body => allOwn names body

/-- All names are. -/
def allOwn (names : List String) : List Binding → Prop
  | [] => True
  | b :: rest => b.Own names ∧ allOwn names rest

end

mutual

/-- No block declares a name twice. -/
def Binding.Distinct : Binding → Prop
  | .use _ => True
  | .block names body => DistinctNames names ∧ allDistinct body

/-- None of several blocks does. -/
def allDistinct : List Binding → Prop
  | [] => True
  | b :: rest => b.Distinct ∧ allDistinct rest

end

section
variable {names visible : List String}

theorem allClosed_append : ∀ {a b : List Binding},
    allClosed visible (a ++ b) ↔ allClosed visible a ∧ allClosed visible b
  | [], b => by simp [allClosed]
  | _ :: rest, b => by simp [allClosed, @allClosed_append rest b, and_assoc]

theorem allOwn_append : ∀ {a b : List Binding},
    allOwn names (a ++ b) ↔ allOwn names a ∧ allOwn names b
  | [], b => by simp [allOwn]
  | _ :: rest, b => by simp [allOwn, @allOwn_append rest b, and_assoc]

theorem allDistinct_append : ∀ {a b : List Binding},
    allDistinct (a ++ b) ↔ allDistinct a ∧ allDistinct b
  | [], b => by simp [allDistinct]
  | _ :: rest, b => by simp [allDistinct, @allDistinct_append rest b, and_assoc]

theorem allOwn_uses : ∀ {used : List String}, allOwn names (uses used) ↔ ∀ name ∈ used, name ∈ names
  | [] => by simp [uses, allOwn]
  | _ :: rest => by
    have ih := @allOwn_uses rest
    unfold uses at ih ⊢
    simp [allOwn, Binding.Own, ih]

theorem allDistinct_uses : ∀ (used : List String), allDistinct (uses used)
  | [] => trivial
  | _ :: rest => ⟨trivial, allDistinct_uses rest⟩

theorem Binding.Own.mono {more : List String} (hsub : names ⊆ more) :
    ∀ {b : Binding}, b.Own names → b.Own more
  | .use _, h => hsub h
  | .block _ _, h => h

theorem allOwn_mono {more : List String} (hsub : names ⊆ more) : ∀ {bs : List Binding},
    allOwn names bs → allOwn more bs
  | [], _ => trivial
  | _ :: _, ⟨h, hrest⟩ => ⟨h.mono hsub, allOwn_mono hsub hrest⟩

mutual

/-- A name of the innermost block is one of a block around. -/
theorem Binding.closed_of_own : ∀ (b : Binding) {names visible : List String}, names ⊆ visible →
    b.Own names → b.Closed visible
  | .use _, _, _, hsub, h => hsub h
  | .block inner body, _, visible, _, h =>
    allClosed_of_own body (List.subset_append_left inner visible) h

theorem allClosed_of_own : ∀ (bs : List Binding) {names visible : List String}, names ⊆ visible →
    allOwn names bs → allClosed visible bs
  | [], _, _, _, _ => trivial
  | b :: rest, _, _, hsub, h => ⟨b.closed_of_own hsub h.1, allClosed_of_own rest hsub h.2⟩

end

end

/-! ## Names of a kind -/

section
variable (kind : String → Bool)

mutual

/-- Only the references to names of a kind. -/
def Binding.only : Binding → List Binding
  | .use name => if kind name then [.use name] else []
  | .block names body => [.block names (onlyOf body)]

/-- Only the references to names of a kind, among several. -/
def onlyOf : List Binding → List Binding
  | [] => []
  | b :: rest => b.only ++ onlyOf rest

end

mutual

/-- The names of other kinds, in all blocks. -/
def Binding.others : Binding → List String
  | .use name => if kind name then [] else [name]
  | .block _ body => othersOf body

/-- The names of other kinds, among several. -/
def othersOf : List Binding → List String
  | [] => []
  | b :: rest => b.others ++ othersOf rest

end

variable {kind}

theorem onlyOf_append : ∀ (a b : List Binding), onlyOf kind (a ++ b) = onlyOf kind a ++ onlyOf kind b
  | [], b => rfl
  | x :: rest, b => by
    rw [List.cons_append, onlyOf, onlyOf, onlyOf_append rest b, List.append_assoc]

theorem othersOf_append : ∀ (a b : List Binding),
    othersOf kind (a ++ b) = othersOf kind a ++ othersOf kind b
  | [], b => rfl
  | x :: rest, b => by
    rw [List.cons_append, othersOf, othersOf, othersOf_append rest b, List.append_assoc]

mutual

/-- References resolve when those of a kind do, and the others do by the function. -/
theorem Binding.closed_of_only : ∀ (b : Binding) {visible : List String},
    (∀ name ∈ b.others kind, name ∈ visible) → allClosed visible (b.only kind) → b.Closed visible
  | .use name, visible, hothers, honly => by
    unfold Binding.others at hothers
    unfold Binding.only at honly
    cases hkind : kind name with
    | true =>
      rw [hkind, if_pos rfl] at honly
      exact honly.1
    | false =>
      rw [hkind] at hothers
      exact hothers name (List.mem_singleton_self name)
  | .block names body, visible, hothers, honly => by
    rw [Binding.others] at hothers
    rw [Binding.only] at honly
    -- what is visible around a block is visible in it
    exact allClosed_of_only body (fun name h => List.mem_append_right names (hothers name h)) honly.1

theorem allClosed_of_only : ∀ (bs : List Binding) {visible : List String},
    (∀ name ∈ othersOf kind bs, name ∈ visible) → allClosed visible (onlyOf kind bs) →
    allClosed visible bs
  | [], _, _, _ => trivial
  | b :: rest, visible, hothers, honly => by
    rw [othersOf] at hothers
    rw [onlyOf, allClosed_append] at honly
    exact ⟨b.closed_of_only (fun name h => hothers name (List.mem_append_left _ h)) honly.1,
      allClosed_of_only rest (fun name h => hothers name (List.mem_append_right _ h)) honly.2⟩

end

mutual

/-- All blocks are there among the references to names of a kind. -/
theorem Binding.distinct_of_only : ∀ (b : Binding), allDistinct (b.only kind) → b.Distinct
  | .use _, _ => trivial
  | .block names body, h => by
    rw [Binding.only] at h
    exact ⟨h.1.1, allDistinct_of_only body h.1.2⟩

theorem allDistinct_of_only : ∀ (bs : List Binding), allDistinct (onlyOf kind bs) → allDistinct bs
  | [], _ => trivial
  | b :: rest, h => by
    rw [onlyOf, allDistinct_append] at h
    exact ⟨b.distinct_of_only h.1, allDistinct_of_only rest h.2⟩

end

end

/-! ## Names that blocks declare -/

mutual

/-- The names that blocks declare, at every depth. -/
def Binding.blockNames : Binding → List String
  | .use _ => []
  | .block names body => names ++ allBlockNames body

/-- Those of several. -/
def allBlockNames : List Binding → List String
  | [] => []
  | b :: rest => b.blockNames ++ allBlockNames rest

end

theorem allBlockNames_append : ∀ (a b : List Binding),
    allBlockNames (a ++ b) = allBlockNames a ++ allBlockNames b
  | [], b => rfl
  | x :: rest, b => by
    rw [List.cons_append, allBlockNames, allBlockNames, allBlockNames_append rest b,
      List.append_assoc]

theorem allBlockNames_uses : ∀ (names : List String), allBlockNames (uses names) = []
  | [] => rfl
  | _ :: rest => allBlockNames_uses rest

theorem allBlockNames_blockOf (names : List String) (body : List Binding) :
    allBlockNames (blockOf names body) = names ++ allBlockNames body := by
  unfold blockOf
  split
  next h => rw [List.isEmpty_iff.mp h, List.nil_append]
  next => exact List.append_nil _

mutual

/-- Blocks do not depend on which references are looked at. -/
theorem Binding.blockNames_only (kind : String → Bool) : ∀ (b : Binding),
    allBlockNames (b.only kind) = b.blockNames
  | .use name => by
    rw [Binding.only, Binding.blockNames]
    split <;> rfl
  | .block names body => by
    rw [Binding.only, Binding.blockNames, allBlockNames, Binding.blockNames,
      allBlockNames_onlyOf kind body]
    exact List.append_nil _

theorem allBlockNames_onlyOf (kind : String → Bool) : ∀ (bs : List Binding),
    allBlockNames (onlyOf kind bs) = allBlockNames bs
  | [] => rfl
  | b :: rest => by
    rw [onlyOf, allBlockNames_append, b.blockNames_only kind, allBlockNames_onlyOf kind rest,
      allBlockNames]

end

end PegCompiler.Target
