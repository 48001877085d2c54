import PegCompiler.Proofs.Target.Spelling
import PegCompiler.Proofs.Target.Texts
/-
  Character constants. A constant is written in pieces: quoted ones of at most 40 characters
  in which a quote is doubled, and calls for control characters. However wide the page is
  and wherever its lines are broken, the pieces joined again are tokens between signs of
  concatenation, and these are read back as the value.

  What pieces there are is an invariant of the open piece (`proper_piecesFrom`): it never
  has more than 40 characters and no control character, and it is closed before either
  would happen.
-/

namespace PegCompiler.Target

open Layout (Common Doc Page Style joined plainSymbols symbols)

/-! ## Documents without types -/

/-- Nothing is one symbol where no type begins. -/
theorem symbols_untyped {ps : List Layout.Piece} (h : .push .type ∉ ps) :
    ∀ marked : Bool, symbols true false ps = symbols false marked ps := by
  induction ps with
  | nil => exact fun _ => rfl
  | cons p ps ih =>
    intro marked
    obtain ⟨hp, hps⟩ := not_or.mp (List.mem_cons.not.mp h)
    cases p with
    | text s => rw [symbols, symbols, ih hps false]; rfl
    | newline indent => rw [symbols, symbols, ih hps false]
    | push style =>
      have hstyle : (style == Style.type) = false := by
        rw [beq_eq_false_iff_ne]
        rintro rfl
        exact hp rfl
      rw [symbols, symbols, hstyle, ih hps false]
    | pop => rw [symbols, symbols, ih hps false]

theorem untyped_join {sep : Doc} (hsep : ∀ indent, .push .type ∉ sep.whole indent)
    {ds : List Doc} (h : ∀ d ∈ ds, ∀ indent, .push .type ∉ d.whole indent) :
    ∀ indent, .push .type ∉ (Doc.join sep ds).whole indent := by
  refine Doc.join_of (P := fun d => ∀ indent, .push .type ∉ d.whole indent) ?_ ?_ hsep h
  · exact fun _ hmem => nomatch hmem
  · intro a b ha hb indent hmem
    exact (List.mem_append.mp hmem).elim (ha indent) (hb indent)

theorem untyped_stringDoc {page : Page} (value : String) (indent : Nat) :
    .push .type ∉ (stringDoc page value).whole indent := by
  have hpieces : ∀ d ∈ (pieces value).map Piece.doc, ∀ indent, .push .type ∉ d.whole indent := by
    refine List.forall_mem_map.mpr fun p _ indent => ?_
    cases p with
    | quoted chars => simp [Piece.doc, Doc.mark, Doc.whole]
    | code n => simp [Piece.doc, Doc.whole]
  have hsep : ∀ indent, .push .type ∉ (Doc.text " //" ++ Doc.continuation).whole indent := by
    intro indent hmem
    rcases List.mem_append.mp hmem with hmem | hmem
    · cases List.mem_singleton.mp hmem
    · cases List.mem_singleton.mp hmem
  exact untyped_join hsep hpieces _

/-! ## Constants -/

variable {page : Page} {indent : Nat} {flat : Bool}

/-- The lines of a constant are joined to its tokens. -/
theorem lex_stringDoc (value : String) (layout : (stringDoc page value).Arrangement indent flat) :
    lex (joined (plainSymbols layout.plain)) = some ((Expr.str value).tokens 0) := by
  have hreads : Reads true ((Expr.str value).doc page 0) ((Expr.str value).tokens 0) :=
    shows_expr (.str value) trivial 0
  rw [Expr.doc] at hreads
  have hlex : lex (shown (stringDoc page value) indent) = some ((Expr.str value).tokens 0) := by
    have hall := hreads indent [] fun _ => parts_nil
    rw [List.append_nil] at hall
    rw [lex, hall, lexFrom, Partial.finish, Option.map_some, List.append_nil]
  -- the layout is joined to the whole, which has no continuations and no types
  have hjoined : joined (plainSymbols layout.plain) = shown (stringDoc page value) indent := by
    rw [Layout.plainSymbols_plain, (joins_stringDoc value).1.joined_symbols,
      ← symbols_untyped (untyped_stringDoc value indent)]
    exact joined_of_lexes (Option.isSome_of_eq_some hlex)
  rw [hjoined, hlex]

theorem printed_stringDoc (value : String) (layout : (stringDoc page value).Arrangement indent flat) :
    ∀ c ∈ layout.plain.toList, isControl c = true → c = '\n' := by
  have hcommon : Common (isControl · = false) := by
    intro c hrange
    simp only [isControl, Bool.or_eq_false_iff, decide_eq_false_iff_not, beq_eq_false_iff_ne]
    omega
  have hwritten : (stringDoc page value).Written (isControl · = false) :=
    written_stringDoc hcommon fun chars hp => printable_pieces value _ hp
  intro c hc hcontrol
  rcases Layout.mem_plain hwritten layout hc with hnone | rfl | rfl
  · rw [hnone] at hcontrol
    exact absurd hcontrol Bool.false_ne_true
  · rfl
  · exact absurd hcontrol (by decide)

/-- **Character constants are read back.** However a constant is laid out, at any indentation,
what it is printed as is its pieces with signs of concatenation between them, joined over the
lines, and an expression with the value of the constant. No control character is printed but
the end of a line; no quoted piece has more than 40 characters, and none is empty unless the
constant is. -/
theorem constant_reads_back (page : Page) (surrounding : Nat) (value : String) {indent : Nat}
    {flat : Bool} (layout : ((Expr.str value).doc page surrounding).Arrangement indent flat) :
    lex (joined (plainSymbols layout.plain)) =
        some (separated (.binary .concat) ((pieces value).map Piece.tokens)) ∧
      (lex (joined (plainSymbols layout.plain))).bind readExpr = some (.str value, []) ∧
      (∀ c ∈ layout.plain.toList, isControl c = true → c = '\n') ∧
      ∀ p ∈ pieces value, p.Printable ∧ (p.Sized ∨ value = "" ∧ p = .quoted []) := by
  have hdoc : (Expr.str value).doc page surrounding = stringDoc page value := by rw [Expr.doc]
  have hlaidOut : (stringDoc page value).LaidOut indent flat layout.pieces := hdoc ▸ layout.laidOut
  have hlex := lex_stringDoc value ⟨layout.pieces, hlaidOut⟩
  have hlegible : (Expr.str value).Legible fun _ => False := trivial
  have hread : readExpr ((Expr.str value).tokens 0 ++ []) = some (.str value, []) :=
    readExpr_tokens hlegible (follows_nil 0)
  rw [List.append_nil] at hread
  refine ⟨hlex, ?_, printed_stringDoc value ⟨layout.pieces, hlaidOut⟩, proper_pieces value⟩
  rw [show lex (joined (plainSymbols layout.plain)) = _ from hlex, Option.bind_some, hread]

/-- A quote and a line end in a constant that does not fit on its line. -/
theorem brokenConstant_reads_back :
    ((Expr.str "it's\n").doc {} 0).plain 10 = "'it''s' // &\n    achar(10)" ∧
      (lex (joined (plainSymbols (((Expr.str "it's\n").doc {} 0).plain 10)))).bind readExpr =
        some (.str "it's\n", []) := by
  refine ⟨by decide +kernel, ?_⟩
  exact (constant_reads_back {} 0 "it's\n" (((Expr.str "it's\n").doc {} 0).fitted 10)).2.1

end PegCompiler.Target
