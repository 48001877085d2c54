import PegCompiler.Proofs.Lowering.Locals
import PegCompiler.Proofs.Lowering.Lowered
import PegCompiler.Proofs.Resolution.Groups
/-
  What a function adds to its scope. A choice, a repetition and a lookahead draw one number
  each, and so may a capture of what was consumed and a call whose value nobody reads;
  nothing else does. Beside numbered variables only those of groups are added, each group
  with a variable adding just that one.
-/

namespace PegCompiler

namespace Resolved

mutual

/-- The numbers that a matcher draws at most. -/
def Matcher.draws : Matcher → Nat
  | .call _ => 1
  | .choice choice => choice.draws
  | .repeat body _ _ separator => 1 + (separatorDraws separator + body.draws)
  | .lookahead _ body => 1 + body.draws
  | .literal _ | .class _ | .anyChar | .endOfInput | .predicate _ _ => 0

/-- Those of a separator, if there is one. -/
def separatorDraws : Option Matcher → Nat
  | none => 0
  | some m => m.draws

/-- Those of a choice. -/
def Choice.draws : Choice → Nat
  | ⟨alternatives, _⟩ => 1 + alternativesDraws alternatives

/-- Those of alternatives. -/
def alternativesDraws : List Alternative → Nat
  | [] => 0
  | a :: rest => a.draws + alternativesDraws rest

/-- Those of a row. -/
def Alternative.draws : Alternative → Nat
  | ⟨elements, _, _⟩ => elementsDraws elements

/-- Those of elements. -/
def elementsDraws : List Element → Nat
  | [] => 0
  | e :: rest => e.draws + elementsDraws rest

/-- Those of an element. -/
def Element.draws : Element → Nat
  | ⟨m, none⟩ => m.draws
  | ⟨m, some _⟩ => 1 + m.draws

end

end Resolved

namespace Lowering

open Naming (word)
open Resolved (Alternative Bound Choice Element Matcher ValueType alternativesDraws
  alternativesGroupVars elementsDraws elementsGroupVars resultVar separatorDraws separatorGroupVars)
open Target (Stmt)

/-- One scope has come to another by drawing at most `n` numbers, and by adding the
variables `vars` of groups and no others; that of the function's result need not be
added. -/
structure Adds (n : Nat) (vars : List String) (s t : Scope) : Prop where
  counter : t.counter ≤ s.counter + n
  names : s.names ⊆ t.names
  groups : ∀ name ∈ t.names, word name = "group".toList → name ∈ s.names ∨ name ∈ vars
  added : ∀ var ∈ vars, var = resultVar ∨ var ∈ t.names

namespace Adds

variable {m n : Nat} {a b : List String} {s t u : Scope}

theorem refl (s : Scope) : Adds 0 [] s s :=
  ⟨Nat.le_refl _, List.Subset.refl _, fun _ h _ => .inl h, fun _ h => nomatch h⟩

theorem trans (h : Adds m a s t) (h' : Adds n b t u) : Adds (m + n) (a ++ b) s u where
  counter := by
    have hst := h.counter
    have htu := h'.counter
    omega
  names := List.Subset.trans h.names h'.names
  groups name hname hword := by
    rcases h'.groups name hname hword with hname | hname
    · exact (h.groups name hname hword).imp_right (List.mem_append_left b)
    · exact .inr (List.mem_append_right a hname)
  added := List.forall_mem_append.mpr
    ⟨fun var hvar => (h.added var hvar).imp_right fun hmem => h'.names hmem, h'.added⟩

theorem mono (h : Adds m a s t) (hn : m ≤ n) (hvars : ∀ var, var ∈ a ↔ var ∈ b) : Adds n b s t where
  counter := Nat.le_trans h.counter (Nat.add_le_add_left hn _)
  names := h.names
  groups name hname hword := (h.groups name hname hword).imp_right (hvars name).mp
  added var hvar := h.added var ((hvars var).mpr hvar)

/-- A variable that is not of a group. -/
theorem name {w : String} {k : Nat} (hw : w ∈ numberedWords)
    (hcounter : t.counter ≤ s.counter + n) (hnames : t.names.Perm (numbered w k :: s.names)) :
    Adds n [] s t where
  counter := hcounter
  names _ h := hnames.mem_iff.mpr (List.mem_cons_of_mem _ h)
  groups name hname hword := by
    rcases List.mem_cons.mp (hnames.mem_iff.mp hname) with rfl | hname
    · exact absurd hword (word_ne_group hw k)
    · exact .inl hname
  added _ h := nomatch h

theorem fresh (s : Scope) : Adds 1 [] s s.fresh.2 :=
  ⟨Nat.le_refl _, List.Subset.refl _, fun _ h _ => .inl h, fun _ h => nomatch h⟩

theorem integer (s : Scope) {w : String} (hw : w ∈ numberedWords) (k : Nat) :
    Adds 0 [] s (s.integer w k).2 :=
  .name hw (Nat.le_refl _) (names_integer s w k)

theorem logical (s : Scope) {w : String} (hw : w ∈ numberedWords) (k : Nat) :
    Adds 0 [] s (s.logical w k).2 :=
  .name hw (Nat.le_refl _) (names_logical s w k)

theorem scratch (s : Scope) (type : ValueType) : Adds 1 [] s (s.scratch type).2 := by
  unfold Scope.scratch
  split
  next => exact (refl s).mono (Nat.zero_le 1) fun _ => Iff.rfl
  next =>
    exact .name (by decide : "scratch" ∈ numberedWords) (Nat.le_refl _)
      (names_other s (numbered "scratch" s.fresh.2.counter, type) rfl rfl rfl)

theorem declare (s : Scope) (var : String) (type : ValueType) : Adds 0 [var] s (s.declare var type) := by
  have hmem := declare_mem s var type
  unfold Scope.declare at hmem ⊢
  split
  next h =>
    rw [if_pos h] at hmem
    exact ⟨Nat.le_refl _, List.Subset.refl _, fun _ h _ => .inl h, by simpa using .inr hmem⟩
  next h =>
    rw [if_neg h] at hmem
    have hperm := names_other s (var, type)
      (t := { s with others := s.others ++ [(var, type)] }) rfl rfl rfl
    refine ⟨Nat.le_refl _, fun _ h => hperm.mem_iff.mpr (List.mem_cons_of_mem _ h), ?_,
      by simpa using .inr hmem⟩
    intro name hname _
    rcases List.mem_cons.mp (hperm.mem_iff.mp hname) with rfl | hname
    · exact .inr (List.mem_singleton_self _)
    · exact .inl hname

theorem bound (s : Scope) {w : String} (hw : w ∈ numberedWords) (k : Nat) (b : Option Bound) :
    Adds 0 [] s (boundScope w k b s) := by
  unfold boundScope
  split
  · exact .integer s hw k
  · exact .refl s

theorem saved (s : Scope) (k : Nat) (min : Bound) : Adds 0 [] s (savedScope k min s) := by
  unfold savedScope
  split
  · exact .integer s (by decide) k
  · exact .refl s

theorem repeatScope (s : Scope) (min : Bound) (max : Option Bound) :
    Adds 1 [] s (repeatScope s min max) := by
  unfold Lowering.repeatScope
  exact (fresh s).trans ((integer _ (by decide) _).trans ((bound _ (by decide) _ _).trans
    ((bound _ (by decide) _ _).trans ((saved _ _ _).trans (integer _ (by decide) _)))))

theorem enterChoice {result : Option String} {r : Nat × String}
    (h : Yields (enterChoice result) s r t) : Adds 1 result.toList s t := by
  obtain ⟨-, -, hdeclare⟩ := yields_enter h
  have hsave : Adds 1 [] s (s.fresh.2.integer "save" (s.counter + 1)).2 :=
    (fresh s).trans (integer _ (by decide) _)
  rcases yields_declareResult hdeclare with ⟨hfunction, rfl⟩ | ⟨var, rfl, -, rfl⟩
  · refine ⟨hsave.counter, hsave.names, fun name hname hword => .inl ?_, fun var hvar => .inl ?_⟩
    · exact (hsave.groups name hname hword).resolve_right fun h => nomatch h
    · exact hfunction var (Option.mem_toList.mp hvar)
  · exact hsave.trans (declare _ var .text)

end Adds

/-- A choice adds what its rows add, and a variable if it has one. -/
theorem adds_choiceOf {fail : List Stmt} {sc sc' : Scope} {as : List Alternative}
    {result : Option String}
    (hrows : ∀ {own fail sc sc' rows}, Yields (lowerAlternatives own result fail as) sc rows sc' →
      Adds (alternativesDraws as) (alternativesGroupVars as) sc sc')
    {r : List Stmt × String} (h : Yields (lowerChoice fail ⟨as, result⟩) sc r sc') :
    Adds (1 + alternativesDraws as) (result.toList ++ alternativesGroupVars as) sc sc' := by
  by_cases hsingle : ∃ a, as = [a]
  · obtain ⟨a, rfl⟩ := hsingle
    obtain ⟨sc₁, row, henter, hrow, -⟩ := yields_oneRow h
    exact (Adds.enterChoice henter).trans (hrows (yields_singleton hrow))
  · obtain ⟨sc₁, rows, henter, hall, -⟩ := yields_rows (fun a ha => hsingle ⟨a, ha⟩) h
    have hindex := (Adds.integer sc₁ (by decide : "i" ∈ numberedWords) (sc.counter + 1)).trans
      (hrows hall)
    rw [Nat.zero_add] at hindex
    exact (Adds.enterChoice henter).trans hindex

mutual

theorem adds_matcher : ∀ (m : Matcher) ⦃fail stmts : List Stmt⦄ ⦃sc sc' : Scope⦄,
    Yields (lowerMatcher fail m) sc stmts sc' → Adds m.draws m.groupVars sc sc'
  | .literal _ => fun _ _ _ _ h => by
    obtain ⟨rfl, -⟩ := yields_literal h
    exact .refl _
  | .class _ => fun _ _ _ _ h => by
    obtain ⟨rfl, -⟩ := yields_class h
    exact .refl _
  | .anyChar => fun _ _ _ _ h => by
    obtain ⟨rfl, -⟩ := yields_anyChar h
    exact .refl _
  | .endOfInput => fun _ _ _ _ h => by
    obtain ⟨rfl, -⟩ := yields_endOfInput h
    exact .refl _
  | .call call => fun _ _ _ _ h => by
    obtain ⟨rfl, -⟩ := yields_call h
    exact .scratch _ _
  | .choice c => fun _ _ _ _ h => by
    obtain ⟨save, hchoice⟩ := yields_choice h
    rw [Matcher.draws, Matcher.groupVars]
    exact adds_choice c hchoice
  | .repeat body min max separator => fun _ _ sc _ h => by
    obtain ⟨sc₁, between, stmts, hbetween, hbody, -⟩ := yields_repeat h
    have hparts := (adds_separator separator hbetween).trans (adds_matcher body hbody)
    rw [Matcher.draws, Matcher.groupVars]
    -- the separator is lowered in front of the body
    refine ((Adds.repeatScope sc min max).trans hparts).mono (Nat.le_refl _) fun var => ?_
    simp only [List.nil_append, List.mem_append, or_comm]
  | .lookahead negated body => fun _ _ sc _ h => by
    obtain ⟨stmts, hbody, -⟩ := yields_lookahead h
    have hstart : Adds 1 [] sc ((sc.fresh.2.integer "save" (sc.counter + 1)).2.logical "ok"
        (sc.counter + 1)).2 :=
      (Adds.fresh sc).trans ((Adds.integer _ (by decide) _).trans (.logical _ (by decide) _))
    rw [Matcher.draws, Matcher.groupVars]
    exact hstart.trans (adds_matcher body hbody)
  | .predicate _ _ => fun _ _ _ _ h => by
    obtain ⟨rfl, -⟩ := yields_predicate h
    exact .refl _

theorem adds_separator : ∀ (separator : Option Matcher) ⦃fail : List Stmt⦄
    ⦃between : Option (List Stmt)⦄ ⦃sc sc' : Scope⦄,
    Yields (lowerSeparator fail separator) sc between sc' →
      Adds (separatorDraws separator) (separatorGroupVars separator) sc sc'
  | none => fun _ _ _ _ h => by
    obtain ⟨rfl, -⟩ := yields_noSeparator h
    exact .refl _
  | some m => fun _ _ _ _ h => by
    obtain ⟨stmts, hstmts, -⟩ := yields_separator h
    rw [separatorDraws, separatorGroupVars]
    exact adds_matcher m hstmts

theorem adds_choice : ∀ (c : Choice) ⦃fail : List Stmt⦄ ⦃r : List Stmt × String⦄
    ⦃sc sc' : Scope⦄, Yields (lowerChoice fail c) sc r sc' → Adds c.draws c.groupVars sc sc'
  | ⟨as, _⟩ => fun _ _ _ _ h => by
    rw [Choice.draws, Choice.groupVars]
    exact adds_choiceOf (fun h => adds_alternatives as h) h

theorem adds_alternatives : ∀ (as : List Alternative) ⦃own : String⦄ ⦃result : Option String⦄
    ⦃fail : List Stmt⦄ ⦃rows : List (List Stmt)⦄ ⦃sc sc' : Scope⦄,
    Yields (lowerAlternatives own result fail as) sc rows sc' →
      Adds (alternativesDraws as) (alternativesGroupVars as) sc sc'
  | [] => fun _ _ _ _ _ _ h => by
    obtain ⟨rfl, -⟩ := yields_noAlternatives h
    exact .refl _
  | a :: rest => fun _ _ _ _ _ _ h => by
    obtain ⟨sc₁, row, more, hrow, hmore, -⟩ := yields_alternatives h
    rw [alternativesDraws, alternativesGroupVars]
    exact (adds_alternative a hrow).trans (adds_alternatives rest hmore)

theorem adds_alternative : ∀ (a : Alternative) ⦃own : String⦄ ⦃result : Option String⦄
    ⦃fail row : List Stmt⦄ ⦃sc sc' : Scope⦄, Yields (lowerAlternative own result fail a) sc row sc' →
      Adds a.draws a.groupVars sc sc'
  | ⟨es, _, _⟩ => fun _ _ _ _ _ _ h => by
    obtain ⟨body, hbody, -⟩ := yields_alternative h
    rw [Alternative.draws, Alternative.groupVars]
    exact adds_elements es hbody

theorem adds_elements : ∀ (es : List Element) ⦃fail stmts : List Stmt⦄ ⦃sc sc' : Scope⦄,
    Yields (lowerElements fail es) sc stmts sc' → Adds (elementsDraws es) (elementsGroupVars es) sc sc'
  | [] => fun _ _ _ _ h => by
    obtain ⟨rfl, -⟩ := yields_noElements h
    exact .refl _
  | e :: rest => fun _ _ _ _ h => by
    obtain ⟨sc₁, first, later, hfirst, hlater, -⟩ := yields_elements h
    rw [elementsDraws, Resolved.elementsGroupVars_cons]
    exact (adds_element e hfirst).trans (adds_elements rest hlater)

theorem adds_element : ∀ (e : Element) ⦃fail stmts : List Stmt⦄ ⦃sc sc' : Scope⦄,
    Yields (lowerElement fail e) sc stmts sc' → Adds e.draws e.matcher.groupVars sc sc'
  | ⟨m, none⟩ => fun _ _ _ _ h => by
    rw [Element.draws]
    exact adds_matcher m (yields_uncaptured h)
  | ⟨m, some capture⟩ => fun fail _ sc sc' h => by
    rw [Element.draws]
    rcases yields_captured h with ⟨call, hcall, rfl, -⟩ | ⟨c, group, save, body, hchoice, hc, -⟩ |
      ⟨body, hbody, -⟩
    · rw [hcall]
      exact (Adds.refl _).mono (Nat.zero_le _) fun _ => Iff.rfl
    · exact (adds_matcher m (hchoice ▸ yields_of_choice hc)).mono (Nat.le_add_left _ 1)
        fun _ => Iff.rfl
    · have hmark : Adds 1 [] sc (sc.fresh.2.integer "mark" (sc.counter + 1)).2 :=
        (Adds.fresh sc).trans (.integer _ (by decide) _)
      exact hmark.trans (adds_matcher m hbody)

end

end Lowering

end PegCompiler
