import PegCompiler.Proofs.Target.Constructs
import PegCompiler.Proofs.Target.Spelling
/-
  The statements of a text. A body is read in four steps: the lines of a statement are
  joined, the text is taken apart into tokens, the tokens into rows, and the rows are put
  together to constructs (`readBody`). Each step has been followed on its own; what is left
  is that statements are written as their rows (`shows_stmt`), one for each line end.
-/

namespace PegCompiler.Target

open Layout (Doc Page Symbol joined plainSymbols symbols)

variable {page : Page}

/-! ## Lines -/

/-- A document is the text of rows, the first of which has its line end somewhere else. -/
def Shows (d : Doc) (rows : List Row) : Prop :=
  ∃ ts, linesOf rows = .lineEnd :: ts ∧ Reads true d ts

/-- A document is the text of rows, each behind its line end. -/
structure ShowsLines (d : Doc) (rows : List Row) : Prop where
  reads : Reads true d (linesOf rows)
  divides : Divides true d

theorem linesOf_append (rows more : List Row) :
    linesOf (rows ++ more) = linesOf rows ++ linesOf more :=
  List.flatMap_append

theorem linesOf_cons (r : Row) (rows : List Row) :
    linesOf (r :: rows) = .lineEnd :: (r.tokens ++ linesOf rows) :=
  rfl

theorem Shows.append {d e : Doc} {rows more : List Row} (h : Shows d rows)
    (h' : ShowsLines e more) : Shows (d ++ e) (rows ++ more) := by
  obtain ⟨ts, hts, hreads⟩ := h
  refine ⟨ts ++ linesOf more, ?_, hreads.append h'.reads fun _ => h'.divides⟩
  rw [linesOf_append, hts]
  rfl

theorem Shows.row {d : Doc} {r : Row} (h : Reads true d r.tokens) : Shows d [r] :=
  ⟨r.tokens, by rw [linesOf_cons]; simp [linesOf], h⟩

namespace ShowsLines

variable {d e : Doc} {rows more : List Row}

theorem nil : ShowsLines .nil [] :=
  ⟨.nil, .nil⟩

theorem append (h : ShowsLines d rows) (h' : ShowsLines e more) :
    ShowsLines (d ++ e) (rows ++ more) := by
  refine ⟨?_, h.divides.append h'.divides⟩
  rw [linesOf_append]
  exact h.reads.append h'.reads fun _ => h'.divides

theorem line (h : Shows d rows) : ShowsLines (.line ++ d) rows := by
  obtain ⟨ts, hts, hreads⟩ := h
  refine ⟨?_, .append_left (.line false) true d⟩
  rw [hts]
  exact Reads.line.closed hreads

theorem nest (by_ : Int) (h : ShowsLines d rows) : ShowsLines (.nest by_ d) rows :=
  ⟨h.reads.nest by_, h.divides.nest by_⟩

theorem concat_cons {ds : List Doc} (h : ShowsLines d rows) (h' : ShowsLines (Doc.concat ds) more) :
    ShowsLines (Doc.concat (d :: ds)) (rows ++ more) := by
  cases ds with
  | nil =>
    -- a last document stands by itself, and nothing behind it is no text
    refine ⟨fun indent => ?_, h.divides⟩
    have hreads := (h.append h').reads indent
    rw [Doc.concat, shown_append_nil] at hreads
    exact hreads
  | cons e ds => exact h.append h'

theorem assoc {f : Doc} (h : ShowsLines (d ++ e ++ f) rows) : ShowsLines (d ++ (e ++ f)) rows := by
  have hshown (indent : Nat) : shown (d ++ e ++ f) indent = shown (d ++ (e ++ f)) indent :=
    congrArg (symbols true false) (List.append_assoc _ _ _)
  refine ⟨fun indent => ?_, fun indent => ?_⟩
  · rw [← hshown]
    exact h.reads indent
  · rw [← hshown]
    exact h.divides indent

/-- Lines that have a line end between each two have one in front of the first as well. -/
theorem join {ds : List Doc} {rowss : List (List Row)} (hne : ds ≠ [])
    (h : List.Forall₂ Shows ds rowss) :
    ShowsLines (.line ++ Doc.join .line ds) rowss.flatten := by
  induction h with
  | nil => exact absurd rfl hne
  | @cons d rows ds rowss hd hds ih =>
    cases hds with
    | nil =>
      rw [List.flatten_cons, List.flatten_nil, List.append_nil]
      exact line hd
    | @cons e _ ds _ _ _ => exact line (hd.append (ih (List.cons_ne_nil e ds)))

theorem indented {ds : List Doc} {rowss : List (List Row)} (h : List.Forall₂ Shows ds rowss) :
    ShowsLines (indented page ds) rowss.flatten := by
  cases ds with
  | nil =>
    cases h
    exact nil
  | cons d ds => exact (join (List.cons_ne_nil d ds) h).nest page.indent

end ShowsLines

/-! ## Parts of constructs -/

section
variable {d : Doc} {ts us : List Token} {apart : Bool} {label : Option String}

/-- A keyword with a condition in brackets, and what follows. -/
theorem reads_condHead {keyword test : Doc} {e : Expr} (hkeyword : Reads true keyword us)
    (htest : Reads true test (e.tokens 0)) (h : Reads apart d ts) :
    Reads apart (condHead keyword test ++ (Doc.space ++ d)) (us ++ parenthesized e ts) := by
  have hhead : Reads false (condHead keyword test) (us ++ .opening :: (e.tokens 0 ++ [.closing])) :=
    hkeyword.append (.space htest.parens) fun _ => .space false _
  have hall := hhead.closed (.space h)
  simpa [parenthesized] using hall

theorem reads_labelDoc (hlabel : labelLegible label) (h : Reads apart d ts) :
    Reads apart (labelDoc label ++ d) (labelTokens label ++ ts) := by
  cases label with
  | none => exact Reads.closed .nil h
  | some name =>
    have hcolon : Reads false (.text ":" ++ Doc.space) [.colon] := by
      have hsign : Reads false (.text ":") [.colon] := .of_scan rfl false
      have hspace : Reads false Doc.space [] := .of_scan rfl false
      exact hsign.closed hspace
    have hname := (Reads.name (hlabel name rfl)).append hcolon
      fun _ => .append_left (.text rfl (by decide) false) false _
    exact hname.closed h

theorem reads_keywordFor {keyword : String} (hlabel : labelLegible label)
    (hkeyword : Reads true (Doc.keyword keyword) ts) :
    Reads true (keywordFor keyword label) (ts ++ labelWord label) := by
  cases label with
  | none =>
    rw [labelWord, List.append_nil]
    exact hkeyword
  | some name =>
    exact hkeyword.append (.space (.name (hlabel name rfl))) fun _ => .space true _

theorem reads_endDoc {construct : String} (hlabel : labelLegible label)
    (hconstruct : Reads true (Doc.keyword construct) ts) :
    Reads true (endDoc construct label) (.word "end" :: (ts ++ labelWord label)) := by
  have hend : Reads true (Doc.keyword "end") [.word "end"] := .keyword_of_word rfl
  exact hend.append (.space (reads_keywordFor hlabel hconstruct)) fun _ => .space true _

theorem legible_unnamed : labelLegible none :=
  fun _ h => nomatch h

theorem shows_decl {d : Decl} (h : d.Legible) : Shows (d.doc page) [.decl d] := by
  obtain ⟨type, attrs, names⟩ := d
  obtain rfl : attrs = [] := h.attrs
  have hcolons : Reads false (.text " :: ") [.colon, .colon] := .of_scan rfl false
  have hnames : Reads true (Doc.continued "," (names.map .text))
      (separated .comma (names.map ([.word ·]))) := by
    refine .continued (.inl ⟨rfl, rfl⟩) ?_
    rw [List.forall₂_map_left_iff, List.forall₂_map_right_iff, List.forall₂_same]
    exact fun name hname => .name (h.names name hname)
  exact .row ((reads_type type).closed (hcolons.closed (hnames.nest page.indent)))

theorem reads_loopHead {range : Option DoRange} (hlabel : labelLegible label)
    (hrange : rangeLegible (fun _ => False) range) :
    Reads true (loopHead page label range) (Row.loop label range).tokens := by
  have hdo : Reads true (Doc.keyword "do") [.word "do"] := .keyword_of_word rfl
  have hcomma : Reads false (.text ", ") [.comma] := .of_scan rfl false
  have hequals : Reads false (.text " = ") [.equals] := .of_scan rfl false
  refine reads_labelDoc hlabel ?_
  cases range with
  | none => exact hdo.append .nil fun _ => .nil
  | some r =>
    obtain ⟨hvar, hfirst, hlast⟩ := hrange r rfl
    have hend : Reads true (.text ", " ++ r.last.doc page 0) (.comma :: r.last.tokens 0) :=
      hcomma.closed (shows_expr r.last hlast 0)
    have hstart : Reads true (r.first.doc page 0) (r.first.tokens 0) := shows_expr r.first hfirst 0
    have hbounds := hstart.append hend
      fun _ => .append_left (.text rfl (by decide) false) true _
    have hassigned := (Reads.name hvar).append (hequals.closed hbounds)
      fun _ => .append_left (.text rfl (by decide) false) true _
    exact hdo.append (.space hassigned) fun _ => .space true _

theorem shows_simple {s : Stmt} (hsimple : s.isSimple = true) (h : s.Legible fun _ => False) :
    Reads true (s.doc page) s.simpleTokens := by
  cases s with
  | assign lhs rhs =>
    have hequals : Reads false (.text " = ") [.equals] := .of_scan rfl false
    rw [Stmt.doc]
    exact (Reads.name h.1).append (hequals.closed (shows_expr rhs h.2 0))
      fun _ => .append_left (.text rfl (by decide) false) true _
  | exit label =>
    have hexit : Reads true (Doc.keyword "exit") [.word "exit"] := .keyword_of_word rfl
    rw [Stmt.doc]
    exact reads_keywordFor h hexit
  | cycle label =>
    have hcycle : Reads true (Doc.keyword "cycle") [.word "cycle"] := .keyword_of_word rfl
    rw [Stmt.doc]
    exact reads_keywordFor h hcycle
  | «return» =>
    rw [Stmt.doc]
    exact .keyword_of_word rfl
  | _ => exact nomatch hsimple

/-- A head with the statements behind it. -/
theorem shows_headed {head : Doc} {ds : List Doc} {r : Row} {rowss : List (List Row)}
    (h : Reads true head r.tokens) (hds : List.Forall₂ Shows ds rowss) :
    Shows (head ++ indented page ds) (r :: rowss.flatten) :=
  (Shows.row h).append (.indented hds)

/-- A condition with the statements behind it. -/
theorem shows_branch (page : Page) {keyword : Doc} {test : Expr} {ds : List Doc} {r : Row}
    {rowss : List (List Row)} (hkeyword : Reads true keyword us)
    (hr : r.tokens = us ++ parenthesized test [.word "then"]) (htest : test.Legible fun _ => False)
    (hds : List.Forall₂ Shows ds rowss) :
    Shows (condHead keyword (test.doc page 0) ++
      (Doc.space ++ (Doc.keyword "then" ++ indented page ds))) (r :: rowss.flatten) := by
  have hthen : Reads true (Doc.keyword "then") [.word "then"] := .keyword_of_word rfl
  have hlines : ShowsLines (indented page ds) rowss.flatten := .indented hds
  have hbody := hthen.append hlines.reads fun _ => hlines.divides
  refine ⟨r.tokens ++ linesOf rowss.flatten, linesOf_cons r _, ?_⟩
  have hcondition : Reads true (test.doc page 0) (test.tokens 0) := shows_expr test htest 0
  have hall := reads_condHead hkeyword hcondition hbody
  rw [hr]
  simpa [parenthesized] using hall

end

/-! ## Statements -/

theorem stmtsRows_eq (ss : List Stmt) : stmtsRows ss = (ss.map Stmt.rows).flatten := by
  induction ss with
  | nil => rw [stmtsRows]; rfl
  | cons s ss ih => rw [stmtsRows, ih, List.map_cons, List.flatten_cons]

theorem casesRows_eq (cs : List (Nat × List Stmt)) :
    casesRows cs = (cs.map fun c => .case c.1 :: (c.2.map Stmt.rows).flatten).flatten := by
  induction cs with
  | nil => rw [casesRows]; rfl
  | cons c cs ih =>
    rw [casesRows, ih, stmtsRows_eq, List.map_cons, List.flatten_cons]
    rfl

/-- The lines of a selection, of which there is one if it has no cases. -/
theorem shows_selection {cases : List (Nat × List Stmt)} {default : Option (List Stmt)}
    (hcases : List.Forall₂ Shows (caseDocs page cases)
      (cases.map fun c => .case c.1 :: (c.2.map Stmt.rows).flatten))
    (hdefault : ∀ body ∈ default, List.Forall₂ Shows (stmtDocs page body) (body.map Stmt.rows)) :
    ShowsLines (.line ++ Doc.join .line (caseDocs page cases ++
        (match optionalDocs page default with
        | some body => [Doc.keyword "case default" ++ indented page body]
        | none => [])))
      (casesRows cases ++ (partRows .caseDefault default ++ blankRows cases default)) := by
  rw [casesRows_eq]
  cases default with
  | none =>
    rw [optionalDocs, partRows, List.nil_append]
    cases cases with
    | nil => exact .line (.row .nil)
    | cons c cases =>
      have hne : caseDocs page (c :: cases) ≠ [] := by
        rw [caseDocs]
        exact List.cons_ne_nil _ _
      have hlines := ShowsLines.join hne hcases
      have hblank : blankRows (c :: cases) none = [] := rfl
      rw [hblank, List.append_nil, List.append_nil]
      exact hlines
  | some body =>
    have hkeyword : Reads true (Doc.keyword "case default") [.word "case", .word "default"] :=
      .keyword_of_word rfl
    have hpart : Shows (Doc.keyword "case default" ++ indented page (stmtDocs page body))
        (.caseDefault :: (body.map Stmt.rows).flatten) :=
      shows_headed hkeyword (hdefault body rfl)
    have hall := List.rel_append hcases (List.Forall₂.cons hpart .nil)
    have hne : caseDocs page cases ++
        [Doc.keyword "case default" ++ indented page (stmtDocs page body)] ≠ [] := by
      simp
    have hlines := ShowsLines.join hne hall
    have hblank : blankRows cases (some body) = [] := by
      rw [blankRows, Option.isNone_some, Bool.and_false]
      rfl
    rw [optionalDocs, partRows, stmtsRows_eq, hblank, List.append_nil]
    simpa using hlines

mutual

/-- A statement is written as its rows. -/
theorem shows_stmt : ∀ (s : Stmt), s.Legible (fun _ => False) → Shows (s.doc page) s.rows
  | .cond test body elseIfs otherwise, h => by
    obtain ⟨htest, hbody, helseIfs, hotherwise⟩ := h
    have hif : Reads true (Doc.keyword "if") [.word "if"] := .keyword_of_word rfl
    rw [Stmt.rows, doc_cond]
    cases hlone : lone body elseIfs otherwise with
    | some s =>
      obtain ⟨rfl, -, -, hsimple⟩ := lone_eq_some hlone
      exact .row (reads_condHead hif (shows_expr test htest 0) (shows_simple hsimple hbody.1))
    | none =>
      have helse : Reads true (Doc.keyword "else") [.word "else"] := .keyword_of_word rfl
      have hfirst : Shows _ (.ifThen test :: (body.map Stmt.rows).flatten) :=
        shows_branch page hif rfl htest (shows_stmts body hbody)
      have hlast : ShowsLines (.line ++ endDoc "if" none) [.endIf] :=
        .line (.row (reads_endDoc legible_unnamed hif))
      rw [stmtsRows_eq]
      refine hfirst.append ((shows_branches elseIfs helseIfs).append (.append ?_ hlast))
      cases otherwise with
      | none => exact .nil
      | some rest =>
        rw [partRows, stmtsRows_eq, optionalDocs]
        exact .line (shows_headed helse (shows_stmts rest hotherwise))
  | .loop label range body, h => by
    obtain ⟨hlabel, hrange, hbody⟩ := h
    have hdo : Reads true (Doc.keyword "do") [.word "do"] := .keyword_of_word rfl
    have hlast : ShowsLines (.line ++ endDoc "do" label) [.endLoop label] :=
      .line (.row (reads_endDoc hlabel hdo))
    rw [Stmt.doc, Stmt.rows, stmtsRows_eq]
    exact (Shows.row (reads_loopHead hlabel hrange)).append
      ((ShowsLines.indented (shows_stmts body hbody)).append hlast)
  | .select selector cases default, h => by
    obtain ⟨hselector, hcases, hdefault⟩ := h
    have hselect : Reads true (Doc.keyword "select") [.word "select"] := .keyword_of_word rfl
    have hkeyword : Reads true (Doc.keyword "select case") [.word "select", .word "case"] :=
      .keyword_of_word rfl
    have hlast : ShowsLines (.line ++ endDoc "select" none) [.endSelect] :=
      .line (.row (reads_endDoc legible_unnamed hselect))
    have hbodies : ∀ body ∈ default,
        List.Forall₂ Shows (stmtDocs page body) (body.map Stmt.rows) := by
      cases default with
      | none => exact fun _ h => nomatch h
      | some rest =>
        rintro _ ⟨⟩
        exact shows_stmts rest hdefault
    have hlines := ((shows_selection (shows_cases cases hcases) hbodies).append hlast).assoc
    have hcondition : Reads true (selector.doc page 0) (selector.tokens 0) :=
      shows_expr selector hselector 0
    have hall := hkeyword.append (.space (hcondition.parens.closed hlines.reads))
      fun _ => .space true _
    rw [Stmt.doc, Stmt.rows]
    refine ⟨_, linesOf_cons _ _, ?_⟩
    simp only [Row.tokens, parenthesized, List.append_assoc, List.cons_append, List.nil_append]
      at hall ⊢
    exact hall
  | .block label decls body, h => by
    obtain ⟨hlabel, hdecls, hbody⟩ := h
    have hblock : Reads true (Doc.keyword "block") [.word "block"] := .keyword_of_word rfl
    have hlast : ShowsLines (.line ++ endDoc "block" label) [.endBlock label] :=
      .line (.row (reads_endDoc hlabel hblock))
    have hnames : ShowsLines (indented page (decls.map (Decl.doc page))) (decls.map .decl) := by
      have hall : List.Forall₂ Shows (decls.map (Decl.doc page)) (decls.map ([.decl ·])) := by
        rw [List.forall₂_map_left_iff, List.forall₂_map_right_iff, List.forall₂_same]
        exact fun d hd => shows_decl (hdecls d hd)
      have hrows : (decls.map ([Row.decl ·])).flatten = decls.map .decl := by
        rw [← List.flatMap_def, List.map_eq_flatMap]
      rw [← hrows]
      exact .indented hall
    have hstmts : ShowsLines (indented page (stmtDocs page body)) (body.map Stmt.rows).flatten :=
      .indented (shows_stmts body hbody)
    have hlines := hnames.append (hstmts.append hlast)
    have hall := reads_labelDoc hlabel (hblock.append hlines.reads fun _ => hlines.divides)
    rw [Stmt.doc, Stmt.rows, stmtsRows_eq]
    refine ⟨_, linesOf_cons _ _, ?_⟩
    simpa [Row.tokens] using hall
  | .assign lhs rhs, h => by
    rw [Stmt.rows]
    exact .row (shows_simple rfl h)
  | .exit label, h => by
    rw [Stmt.rows]
    exact .row (shows_simple rfl h)
  | .cycle label, h => by
    rw [Stmt.rows]
    exact .row (shows_simple rfl h)
  | .return, h => by
    rw [Stmt.rows]
    exact .row (shows_simple rfl h)

theorem shows_stmts : ∀ (ss : List Stmt), stmtsLegible (fun _ => False) ss →
    List.Forall₂ Shows (stmtDocs page ss) (ss.map Stmt.rows)
  | [], _ => by
    rw [stmtDocs]
    exact .nil
  | s :: rest, h => by
    rw [stmtDocs, List.map_cons]
    exact .cons (shows_stmt s h.1) (shows_stmts rest h.2)

theorem shows_branches : ∀ (bs : List (Expr × List Stmt)),
    branchesLegible (fun _ => False) bs → ShowsLines (Doc.concat ((branchDocs page bs).map fun b =>
      .line ++ (condHead (Doc.keyword "else" ++ (Doc.space ++ Doc.keyword "if")) b.1 ++
        (Doc.space ++ (Doc.keyword "then" ++ indented page b.2))))) (branchesRows bs)
  | [], _ => by
    rw [branchDocs, branchesRows]
    exact .nil
  | (test, body) :: rest, h => by
    have helse : Reads true (Doc.keyword "else") [.word "else"] := .keyword_of_word rfl
    have hif : Reads true (Doc.keyword "if") [.word "if"] := .keyword_of_word rfl
    have hkeyword := helse.append (.space hif) fun _ => .space true _
    have hbranch : Shows _ (.elseIf test :: (body.map Stmt.rows).flatten) :=
      shows_branch page hkeyword rfl h.1 (shows_stmts body h.2.1)
    rw [branchDocs, branchesRows, stmtsRows_eq, List.map_cons]
    exact (ShowsLines.line hbranch).concat_cons (shows_branches rest h.2.2)

theorem shows_cases : ∀ (cs : List (Nat × List Stmt)), casesLegible (fun _ => False) cs →
    List.Forall₂ Shows (caseDocs page cs)
      (cs.map fun c => .case c.1 :: (c.2.map Stmt.rows).flatten)
  | [], _ => by
    rw [caseDocs]
    exact .nil
  | (value, body) :: rest, h => by
    rw [caseDocs, List.map_cons]
    refine .cons ?_ (shows_cases rest h.2)
    have hcase : Reads true (Doc.keyword "case") [.word "case"] := .keyword_of_word rfl
    have hlines : ShowsLines (indented page (stmtDocs page body)) (body.map Stmt.rows).flatten :=
      .indented (shows_stmts body h.1)
    have hall := hcase.append (.space ((Reads.number value).parens.closed hlines.reads))
      fun _ => .space true _
    exact ⟨_, linesOf_cons _ _, hall⟩

end

/-! ## Bodies -/

/-- The statements of a text. -/
def readBody (text : List Symbol) : Option (List Stmt) :=
  (lex (joined text)).bind fun ts => (rowsFrom [] ts).bind Reader.statements

/-- The body of a function is written as its rows, each behind a line end. -/
theorem lex_body {body : List Stmt} (h : stmtsLegible (fun _ => False) body) (indent : Nat) :
    lex (shown (indented page (stmtDocs page body)) indent) = some (linesOf (stmtsRows body)) := by
  have hlines : ShowsLines (indented page (stmtDocs page body)) (body.map Stmt.rows).flatten :=
    .indented (shows_stmts body h)
  have hlex := hlines.reads indent [] fun _ => parts_nil
  rw [stmtsRows_eq]
  rw [List.append_nil] at hlex
  rw [lex, hlex, lexFrom, Partial.finish, Option.map_some, List.append_nil]

/-- Statements are read back from what they are laid out as. -/
theorem readBody_layout {body : List Stmt} (h : stmtsLegible (fun _ => False) body) {indent : Nat}
    {flat : Bool} (layout : (indented page (stmtDocs page body)).Arrangement indent flat) :
    readBody (symbols true false layout.pieces) = some body := by
  have hlex := @lex_body page body h indent
  have hjoins : Layout.Joins (indented page (stmtDocs page body)) :=
    joins_indented (joins_stmts body h)
  -- all layouts are joined to the whole, which has no continuations of its own
  have hjoined : joined (symbols true false layout.pieces) =
      shown (indented page (stmtDocs page body)) indent := by
    rw [hjoins.joined_symbols]
    exact joined_of_lexes (Option.isSome_of_eq_some hlex)
  have hrows : rowsFrom [] (linesOf (stmtsRows body)) = some (.blank :: stmtsRows body) :=
    rowsFrom_lines (Reader.stmtsRows_legible body h) rfl
  rw [readBody, hjoined, hlex, Option.bind_some, hrows, Option.bind_some, Reader.statements_rows]

/-- A constant that goes on in the next line. -/
example : readBody (plainSymbols "\nif (n > 0) then\n  s = 'don''t' // &\n    achar(10)\nend if") =
    some [.when (.bin .gt (.var "n") (.int 0)) [.assign "s" (.str "don't\n")]] := by
  cbv

end PegCompiler.Target
