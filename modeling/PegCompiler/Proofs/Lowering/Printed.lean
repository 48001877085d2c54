import PegCompiler.Proofs.Layout.Chars
import PegCompiler.Proofs.Lowering.Legible
import PegCompiler.Proofs.Lowering.Names
import PegCompiler.Proofs.Target.Reading
/-
  What lowered modules are printed as. However they are laid out, the text is the same once
  the lines that a statement is continued in are joined, and the functions of rules are read
  back from it as the statements they are made of. The layouts of the program for pages of
  any width are among those meant (`Doc.fitted`).
-/

namespace PegCompiler.Lowering

open Layout (Joins Page Piece Rejoins Symbol joined plainSymbols symbols)
open Target (Function Module readBody)

/-- **Line breaks do not count.** Layouts for pages of any two widths are joined to the same
text; and all layouts come from one by breaking lines behind separators, so that none of
them breaks in a constant, a name or user code. -/
theorem continuations_lower {g : Grammar} {types : ActionTypes} {p : Resolved.Parser}
    {o : Options} {m : Module} (h : Resolution.resolve g types = .ok p) (hm : lower p o = .ok m)
    (indent : Int) :
    (∀ (narrow wide : Nat) (layout : (m.doc ⟨narrow, indent⟩).Arrangement 0 false)
        (layout' : (m.doc ⟨wide, indent⟩).Arrangement 0 false),
      joined (plainSymbols layout.plain) = joined (plainSymbols layout'.plain)) ∧
    ∃ whole, ∀ (width : Nat) (layout : (m.doc ⟨width, indent⟩).Arrangement 0 false),
      Rejoins layout.pieces whole := by
  have hlegible : ∀ f ∈ m.functions, f.Legible fun _ => True :=
    legible_lower h hm fun _ _ => trivial
  have hjoins (width : Nat) : Joins (m.doc ⟨width, indent⟩) := Target.joins_module hlegible
  have hpage (narrow wide : Nat) : m.doc ⟨narrow, indent⟩ = m.doc ⟨wide, indent⟩ := by
    apply Target.doc_module_page
    rfl
  constructor
  · intro narrow wide layout layout'
    rw [Layout.plainSymbols_plain, Layout.plainSymbols_plain, (hjoins narrow).joined_symbols,
      (hjoins wide).joined_symbols, hpage narrow wide]
  · refine ⟨(m.doc ⟨0, indent⟩).whole 0, fun width layout => ?_⟩
    rw [← hpage width 0]
    exact hjoins width _ _ _ layout.laidOut

/-- A literal of several pieces, a class of several characters and a bound in code. -/
def listing : Grammar where
  rules := [⟨"s", true, [⟨[
    .item false none ⟨.literal "don't\n", .one⟩,
    .item false (some "x") ⟨.class [.char 'a', .char ','], .computed (some "n, &\n m") none⟩],
    some "res = f(x, &\n  x)"⟩]⟩]

/-- Whether a module is printed alike on pages of two widths. -/
def printsAlike (narrow wide : Nat) (m : Module) : Bool :=
  (m.doc ⟨narrow, 2⟩).plain narrow == (m.doc ⟨wide, 2⟩).plain wide

/-- The characters that a module is printed as on a page. -/
def printedChars (width : Nat) (m : Module) : List Char :=
  ((m.doc ⟨width, 2⟩).pieces width).flatMap Piece.chars

theorem printsAlike_eq (narrow wide : Nat) (m : Module) :
    printsAlike narrow wide m = (printedChars narrow m == printedChars wide m) := by
  have hchars (width : Nat) : ((m.doc ⟨width, 2⟩).plain width).toList = printedChars width m :=
    Layout.toList_plain (m.doc ⟨width, 2⟩) width
  rw [Bool.eq_iff_iff, printsAlike, beq_iff_eq, beq_iff_eq, ← hchars, ← hchars, String.toList_inj]

theorem listing_continuations : ∃ p m, Resolution.resolve listing {} = .ok p ∧
    lower p {} = .ok m ∧ printsAlike 40 132 m = false ∧
      joined (plainSymbols ((m.doc ⟨40, 2⟩).plain 40)) =
        joined (plainSymbols ((m.doc ⟨132, 2⟩).plain 132)) := by
  -- lists of characters are compared: putting texts together takes long to evaluate
  have hresolved : ((Resolution.resolve listing {}).map fun p =>
      ((lower p {}).map fun m => printedChars 40 m == printedChars 132 m).toOption).toOption =
        some (some false) := by
    decide +kernel
  obtain ⟨p, h, hlowered⟩ := exists_ok_of_map hresolved
  obtain ⟨m, hm, hchars⟩ := exists_ok_of_map hlowered
  have hprints : printsAlike 40 132 m = false := (printsAlike_eq 40 132 m).trans hchars
  exact ⟨p, m, h, hm, hprints, (continuations_lower h hm 2).1 40 132
    ((m.doc ⟨40, 2⟩).fitted 40) ((m.doc ⟨132, 2⟩).fitted 132)⟩

/-- However the body of a function is laid out, at any indentation, its statements are read
back from the text, of which the types are tokens. -/
def ReadBack (f : Function) : Prop :=
  ∃ body, f.body = .stmts body ∧
    ∀ (page : Page) (indent : Nat) (flat : Bool) (layout : (f.body.doc page).Arrangement indent flat),
      (symbols true false layout.pieces).flatMap Symbol.chars = layout.plain.toList ∧
        readBody (symbols true false layout.pieces) = some body

theorem readBack_of_legible {f : Function} {body : List Target.Stmt}
    (h : f.Legible fun _ => False) (hbody : f.body = .stmts body) : ReadBack f := by
  have hlegible : Target.stmtsLegible (fun _ => False) body := by
    have hall := h.body
    rw [hbody] at hall
    exact hall
  refine ⟨body, hbody, ?_⟩
  rw [hbody]
  exact fun page indent flat layout => ⟨Layout.chars_symbols true layout.pieces false,
    Target.readBody_layout hlegible layout⟩

/-- **The text denotes the statements.** Without bounds in code, what the function of a rule
is printed as is read back as exactly the statements that were printed. -/
theorem statements_lower {g : Grammar} {types : ActionTypes} {p : Resolved.Parser}
    {o : Options} {m : Module} (h : Resolution.resolve g types = .ok p) (hm : lower p o = .ok m)
    (hbounds : p.boundCodes = []) :
    ∃ fs, m.functions = fs ++ p.actions.map lowerAction ∧
      List.Forall₂ (fun rule f => f.name = rule.function ∧ ReadBack f) p.rules fs := by
  obtain ⟨fs, hlowered⟩ := lowered_of_lower hm
  have hlegible : ∀ f ∈ m.functions, f.Legible fun _ => False :=
    legible_lower h hm fun c hc => by simp [hbounds] at hc
  have hfs : ∀ f ∈ fs, f.Legible fun _ => False :=
    fun f hf => hlegible f (hlowered.mem_functions hf)
  have hrules : List.Forall₂ (fun f rule => (f.Legible fun _ => False) ∧ lowerRule rule = .ok f)
      fs p.rules :=
    (List.forall₂_and_left fs p.rules).mpr ⟨hfs, hlowered.rules.flip⟩
  refine ⟨fs, hlowered.functions_eq, hrules.flip.imp fun rule f hf => ?_⟩
  obtain ⟨choice, entry, scope, -, hf'⟩ := yields_rule hf.2
  refine ⟨by rw [hf'], readBack_of_legible hf.1 (by rw [hf'])⟩

/-- Two alternatives: a class of several parts and a lookahead, and a separated repetition. -/
def unbounded : Grammar where
  rules := [⟨"s", true, [
    ⟨[.item false (some "x") ⟨.class [.char 'a', .range '0' '9'], .oneOrMore⟩,
      .check true (.lookahead ⟨.literal ";", .one⟩)], none⟩,
    ⟨[.item false none ⟨.literal "don't\n", .separated 2 (.literal ",")⟩], none⟩]⟩]

theorem unbounded_statements : ∃ p m, Resolution.resolve unbounded {} = .ok p ∧
    lower p {} = .ok m ∧ p.boundCodes = [] ∧ p.rules ≠ [] ∧
      ∃ fs, m.functions = fs ++ p.actions.map lowerAction ∧
        List.Forall₂ (fun rule f => f.name = rule.function ∧ ReadBack f ∧
          ∃ body, f.body = .stmts body ∧ ∀ (page : Page) (width : Nat),
            readBody (symbols true false ((f.body.doc page).pieces width)) = some body) p.rules fs := by
  have hresolved : ((Resolution.resolve unbounded {}).map fun p =>
      (p.boundCodes, p.rules.isEmpty, (lower p {}).toOption.isSome)).toOption =
        some ([], false, true) := by
    decide +kernel
  obtain ⟨p, h, hp⟩ := exists_ok_of_map hresolved
  obtain ⟨hbounds, hp⟩ := Prod.mk.inj hp
  obtain ⟨hrules, hlower⟩ := Prod.mk.inj hp
  have hne : p.rules ≠ [] := by
    rw [← List.isEmpty_eq_false_iff]
    exact hrules
  cases hm : lower p {} with
  | error failure =>
    rw [hm] at hlower
    exact nomatch hlower
  | ok m =>
    obtain ⟨fs, hfunctions, hread⟩ := statements_lower h hm hbounds
    refine ⟨p, m, h, hm, hbounds, hne, fs, hfunctions, hread.imp fun rule f hf => ⟨hf.1, hf.2, ?_⟩⟩
    obtain ⟨body, hbody, hlayouts⟩ := hf.2
    exact ⟨body, hbody, fun page width =>
      (hlayouts page 0 false ((f.body.doc page).fitted width)).2⟩

end PegCompiler.Lowering
