import PegCompiler.Proofs.Layout.Joined
import PegCompiler.Proofs.Target.Legible
/-
  Modules break their lines in lists only. Every document that expressions, statements and
  functions are written as can be joined again (`Joins`), as long as the names in lists are
  spelled like names: an item of a list has to open, or it would be lost where it follows a
  continuation.
-/

namespace PegCompiler.Target

open Layout (Doc Joins Page)

variable {page : Page}

/-! ## Items of lists -/

theorem opens_text {s : String} {c : Char} {cs : List Char} (h : s.toList = c :: cs)
    (hc : c ≠ ' ' ∧ c ≠ '&') : (Doc.text s).Opens :=
  fun _ => ⟨c, cs, h, hc⟩

theorem IsName.opens {name : String} (h : IsName name) : (Doc.text name).Opens := by
  obtain ⟨c, cs, hname, hc, -⟩ := h
  refine opens_text hname ⟨?_, ?_⟩
  · rintro rfl
    exact absurd hc (by decide)
  · rintro rfl
    exact absurd hc (by decide)

theorem opens_append {d : Doc} (h : d.Opens) (e : Doc) : (d ++ e).Opens :=
  fun indent => (h indent).append _

theorem opens_parens (d : Doc) : d.parens.Opens :=
  opens_append (opens_text rfl (by decide)) _

theorem opens_brackets (d : Doc) : d.brackets.Opens :=
  opens_append (opens_text rfl (by decide)) _

theorem opens_keyword {s : String} {c : Char} {cs : List Char} (h : s.toList = c :: cs)
    (hc : c ≠ ' ' ∧ c ≠ '&') : (Doc.keyword s).Opens :=
  fun _ => ⟨c, cs, h, hc⟩

theorem opens_nest {d : Doc} (h : d.Opens) (by_ : Int) : (Doc.nest by_ d).Opens :=
  fun indent => h (Layout.shift indent by_)

/-- A list that is not empty opens as its first item does. -/
theorem opens_continued {d : Doc} (h : d.Opens) (sep : String) (ds : List Doc) :
    (Doc.continued sep (d :: ds)).Opens := by
  cases ds with
  | nil => exact fun indent => h indent
  | cons e ds => exact fun indent => (h indent).append _

/-! ## Expressions -/

theorem joins_piece (p : Piece) : Joins p.doc ∧ p.doc.Opens := by
  cases p with
  | quoted chars =>
    refine ⟨(Joins.text _).styled _, fun _ => ⟨'\'', quotedChars chars ++ ['\''], ?_, ?_⟩⟩
    · rw [String.toList_ofList]
      rfl
    · decide
  | code n =>
    refine ⟨Joins.text _, fun _ => ⟨'a', "char(".toList ++ (toString n ++ ")").toList, ?_, ?_⟩⟩
    · rw [String.append_assoc, String.toList_append]
      rfl
    · decide

theorem pieces_ne_nil (value : String) : pieces value ≠ [] := by
  unfold pieces
  split
  · exact List.cons_ne_nil _ _
  · next h => exact h

theorem joins_stringDoc (value : String) :
    Joins (stringDoc page value) ∧ (stringDoc page value).Opens := by
  obtain ⟨p, ps, hpieces⟩ := List.exists_cons_of_ne_nil (pieces_ne_nil value)
  constructor
  · refine Joins.nest _ (.continued (by decide) ?_)
    exact List.forall_mem_map.mpr fun p _ => joins_piece p
  · refine opens_nest ?_ _
    rw [hpieces, List.map_cons]
    exact opens_continued (joins_piece p).2 _ _

theorem joins_bracketed {d : Doc} (h : Joins d) (surrounding own : Nat) :
    Joins (bracketed surrounding own d) := by
  unfold bracketed
  split
  · exact h.parens
  · exact h

theorem opens_bracketed {d : Doc} (h : d.Opens) (surrounding own : Nat) :
    (bracketed surrounding own d).Opens := by
  unfold bracketed
  split
  · exact opens_parens d
  · exact h

/-- A number is written in digits. -/
theorem exists_digits (n : Nat) : ∃ c cs, (toString n).toList = c :: cs ∧
    Nat.toDigits 10 n = c :: cs ∧ ∀ d ∈ c :: cs, d.isDigit = true := by
  have hdigits : (toString n).toList = Nat.toDigits 10 n := by
    rw [Nat.toString_eq_ofList_toDigits, String.toList_ofList]
  obtain ⟨c, cs, hcons⟩ := List.exists_cons_of_ne_nil (Nat.toDigits_ne_nil (n := n) (b := 10))
  refine ⟨c, cs, hdigits.trans hcons, hcons, fun d hd => ?_⟩
  rw [← hcons] at hd
  exact Nat.isDigit_of_mem_toDigits (by decide) (by decide) hd

theorem opens_number (n : Nat) : (Doc.text (toString n)).Opens := by
  obtain ⟨c, cs, hn, -, hdigits⟩ := exists_digits n
  have hdigit : c.isDigit = true := hdigits c List.mem_cons_self
  refine opens_text hn ⟨?_, ?_⟩
  · rintro rfl
    exact absurd hdigit (by decide)
  · rintro rfl
    exact absurd hdigit (by decide)

section
variable {code : String → Prop}

mutual

theorem joins_expr : ∀ (e : Expr), e.Legible code → ∀ surrounding : Nat,
    Joins (e.doc page surrounding) ∧ (e.doc page surrounding).Opens
  | .var name => fun h _ => by
    rw [Expr.Legible] at h
    rw [Expr.doc]
    exact ⟨.text name, h.opens⟩
  | .int n => fun _ _ => by
    rw [Expr.doc]
    exact ⟨.text _, opens_number n⟩
  | .logical true => fun _ _ => by
    rw [Expr.doc]
    exact ⟨.keyword _, opens_keyword rfl (by decide)⟩
  | .logical false => fun _ _ => by
    rw [Expr.doc]
    exact ⟨.keyword _, opens_keyword rfl (by decide)⟩
  | .str value => fun _ _ => by
    rw [Expr.doc]
    exact joins_stringDoc value
  | .call name args => fun h _ => by
    rw [Expr.Legible] at h
    rw [Expr.doc]
    have hargs : Joins (Doc.continued "," (exprDocs page args)) :=
      .continued (by decide) (joins_exprs args h.2.2)
    exact ⟨(Joins.text name).append (hargs.nest _).parens, opens_append h.1.opens _⟩
  | .substring var lo hi => fun h _ => by
    rw [Expr.Legible] at h
    rw [Expr.doc]
    have hbounds : Joins (lo.doc page 0 ++ (.text ":" ++ hi.doc page 0)) :=
      (joins_expr lo h.2.1 0).1.append ((Joins.text ":").append (joins_expr hi h.2.2 0).1)
    exact ⟨(Joins.text var).append hbounds.parens, opens_append h.1.opens _⟩
  | .array items => fun h _ => by
    rw [Expr.Legible] at h
    rw [Expr.doc]
    have hitems : Joins (Doc.continued "," (exprDocs page items)) :=
      .continued (by decide) (joins_exprs items h)
    exact ⟨(hitems.nest _).brackets, opens_brackets _⟩
  | .not operand => fun h surrounding => by
    rw [Expr.Legible] at h
    rw [Expr.doc]
    have hoperand := joins_expr operand h.2 5
    exact ⟨joins_bracketed ((Joins.keyword _).append ((Joins.text " ").append hoperand.1)) _ _,
      opens_bracketed (opens_append (opens_keyword rfl (by decide)) _) _ _⟩
  | .bin op lhs rhs => fun h surrounding => by
    rw [Expr.Legible] at h
    rw [Expr.doc]
    have hlhs := joins_expr lhs h.1.2 op.precedence
    have hrhs := joins_expr rhs h.2.1.2 (op.precedence + 1)
    have hrest : Joins (Doc.space ++ (.text op.symbol ++ (Doc.space ++
        rhs.doc page (op.precedence + 1)))) :=
      (Joins.text " ").append ((Joins.text _).append ((Joins.text " ").append hrhs.1))
    exact ⟨joins_bracketed (hlhs.1.append hrest) _ _, opens_bracketed (opens_append hlhs.2 _) _ _⟩
  | .verbatim c => fun _ _ => by
    rw [Expr.doc]
    exact ⟨(Joins.text _).parens, opens_parens _⟩

theorem joins_exprs : ∀ (es : List Expr), exprsLegible code es →
    ∀ d ∈ exprDocs page es, Joins d ∧ d.Opens
  | [] => fun _ => by
    rw [exprDocs]
    exact fun _ h => nomatch h
  | e :: rest => fun h => by
    rw [exprsLegible] at h
    rw [exprDocs]
    exact List.forall_mem_cons.mpr ⟨joins_expr e h.1 0, joins_exprs rest h.2⟩

end

/-! ## Statements -/

theorem joins_labelDoc (label : Option String) : Joins (labelDoc label) := by
  cases label with
  | none => exact .nil
  | some name => exact (Joins.text name).append ((Joins.text ":").append (.text " "))

theorem joins_keywordFor (keyword : String) (label : Option String) :
    Joins (keywordFor keyword label) := by
  cases label with
  | none => exact .keyword keyword
  | some name => exact (Joins.keyword keyword).append ((Joins.text " ").append (.text name))

theorem joins_endDoc (construct : String) (label : Option String) :
    Joins (endDoc construct label) :=
  (Joins.keyword "end").append ((Joins.text " ").append (joins_keywordFor construct label))

theorem joins_indented {ds : List Doc} (h : ∀ d ∈ ds, Joins d) : Joins (indented page ds) := by
  unfold indented
  split
  · exact .nil
  · exact (Joins.line.append (Joins.line.join h)).nest _

theorem joins_condHead {keyword test : Doc} (hkeyword : Joins keyword) (htest : Joins test) :
    Joins (condHead keyword test) :=
  hkeyword.append ((Joins.text " ").append htest.parens)

theorem joins_condDoc {test : Doc} {body : List Doc} {elseIfs : List (Doc × List Doc)}
    {otherwise : Option (List Doc)} (htest : Joins test) (hbody : ∀ d ∈ body, Joins d)
    (helseIfs : ∀ b ∈ elseIfs, Joins b.1 ∧ ∀ d ∈ b.2, Joins d)
    (hotherwise : ∀ ds ∈ otherwise, ∀ d ∈ ds, Joins d) :
    Joins (condDoc page test body elseIfs otherwise) := by
  have hbranch {keyword test : Doc} {body : List Doc} (hkeyword : Joins keyword)
      (htest : Joins test) (hbody : ∀ d ∈ body, Joins d) :
      Joins (condHead keyword test ++ (Doc.space ++ (Doc.keyword "then" ++ indented page body))) :=
    (joins_condHead hkeyword htest).append
      ((Joins.text " ").append ((Joins.keyword "then").append (joins_indented hbody)))
  have helse : Joins (Doc.keyword "else" ++ (Doc.space ++ Doc.keyword "if")) :=
    (Joins.keyword "else").append ((Joins.text " ").append (.keyword "if"))
  unfold condDoc
  refine (hbranch (.keyword "if") htest hbody).append ((Joins.concat ?_).append (.append ?_ ?_))
  · refine List.forall_mem_map.mpr fun b hb => Joins.line.append ?_
    exact hbranch helse (helseIfs b hb).1 (helseIfs b hb).2
  · cases otherwise with
    | none => exact .nil
    | some ds => exact Joins.line.append ((Joins.keyword "else").append
        (joins_indented (hotherwise ds rfl)))
  · exact Joins.line.append (joins_endDoc "if" none)

theorem joins_decl {d : Decl} (h : ∀ name ∈ d.names, IsName name) : Joins (d.doc page) := by
  have hattrs : ∀ (attrs : List String) (doc : Doc), Joins doc →
      Joins (attrs.foldl (fun doc attr => doc ++ (.text ", " ++ .text attr)) doc) := by
    intro attrs
    induction attrs with
    | nil => exact fun _ h => h
    | cons attr attrs ih =>
      exact fun doc hdoc => ih _ (hdoc.append ((Joins.text ", ").append (.text attr)))
  have hnames : Joins (Doc.continued "," (d.names.map .text)) := by
    refine .continued (by decide) (List.forall_mem_map.mpr fun name hname => ?_)
    exact ⟨.text name, (h name hname).opens⟩
  exact (hattrs d.attrs _ ((Joins.text d.type).styled .type)).append
    ((Joins.text " :: ").append (hnames.nest _))

theorem joins_loopHead (label : Option String) {range : Option DoRange}
    (h : rangeLegible code range) : Joins (loopHead page label range) := by
  refine (joins_labelDoc label).append ((Joins.keyword "do").append ?_)
  cases range with
  | none => exact .nil
  | some r =>
    obtain ⟨-, hfirst, hlast⟩ := h r rfl
    exact (Joins.text " ").append ((Joins.text r.var).append ((Joins.text " = ").append
      ((joins_expr r.first hfirst 0).1.append ((Joins.text ", ").append
        (joins_expr r.last hlast 0).1))))

/-- The statement that stands behind a condition on the same line. -/
def lone : List Stmt → List (Expr × List Stmt) → Option (List Stmt) → Option Stmt
  | [s], [], none => if s.isSimple then some s else none
  | _, _, _ => none

theorem lone_eq_some {body : List Stmt} {elseIfs : List (Expr × List Stmt)}
    {otherwise : Option (List Stmt)} {s : Stmt} (h : lone body elseIfs otherwise = some s) :
    body = [s] ∧ elseIfs = [] ∧ otherwise = none ∧ s.isSimple = true := by
  unfold lone at h
  split at h
  · split at h
    · next hsimple =>
      obtain rfl := Option.some.inj h
      exact ⟨rfl, rfl, rfl, hsimple⟩
    · exact nomatch h
  · exact nomatch h

/-- A lone statement is printed as the statements of its branch are. -/
theorem doc_mem_of_lone {body : List Stmt} {elseIfs : List (Expr × List Stmt)}
    {otherwise : Option (List Stmt)} {s : Stmt} (h : lone body elseIfs otherwise = some s) :
    s.doc page ∈ stmtDocs page body := by
  obtain ⟨rfl, -⟩ := lone_eq_some h
  rw [stmtDocs]
  exact List.mem_cons_self

/-- A conditional construct is of one line or of several. -/
theorem doc_cond (test : Expr) (body : List Stmt) (elseIfs : List (Expr × List Stmt))
    (otherwise : Option (List Stmt)) :
    (Stmt.cond test body elseIfs otherwise).doc page = match lone body elseIfs otherwise with
      | some s => condHead (Doc.keyword "if") (test.doc page 0) ++ (Doc.space ++ s.doc page)
      | none => condDoc page (test.doc page 0) (stmtDocs page body) (branchDocs page elseIfs)
          (optionalDocs page otherwise) := by
  rw [Stmt.doc.eq_def]
  dsimp only
  split
  · next s d hbody =>
    obtain rfl : s.doc page = d := by simpa [stmtDocs] using hbody
    rw [lone]
    split <;> rfl
  · next hno =>
    split
    · next s hlone =>
      obtain ⟨rfl, rfl, rfl, -⟩ := lone_eq_some hlone
      exact (hno s (s.doc page) rfl (by rw [stmtDocs, stmtDocs]) rfl rfl).elim
    · rfl

mutual

theorem joins_stmt : ∀ (s : Stmt), s.Legible code → Joins (s.doc page)
  | .assign lhs rhs => fun h => by
    rw [Stmt.Legible] at h
    rw [Stmt.doc]
    exact (Joins.text lhs).append ((Joins.text " = ").append (joins_expr rhs h.2 0).1)
  | .cond test body elseIfs otherwise => fun h => by
    rw [Stmt.Legible] at h
    obtain ⟨htest, hbody, helseIfs, hotherwise⟩ := h
    rw [doc_cond]
    cases hlone : lone body elseIfs otherwise with
    | some s =>
      have hs : Joins (s.doc page) := joins_stmts body hbody _ (doc_mem_of_lone hlone)
      exact (joins_condHead (.keyword "if") (joins_expr test htest 0).1).append
        ((Joins.text " ").append hs)
    | none =>
      exact joins_condDoc (joins_expr test htest 0).1 (joins_stmts body hbody)
        (joins_branches elseIfs helseIfs) (joins_optional otherwise hotherwise)
  | .loop label range body => fun h => by
    rw [Stmt.Legible] at h
    rw [Stmt.doc]
    exact (joins_loopHead label h.2.1).append ((joins_indented (joins_stmts body h.2.2)).append
      (Joins.line.append (joins_endDoc "do" label)))
  | .select selector cases default => fun h => by
    rw [Stmt.Legible] at h
    obtain ⟨hselector, hcases, hdefault⟩ := h
    have hdocs := joins_optional default hdefault
    have hlines : Joins (Doc.join .line (caseDocs page cases ++
        (match optionalDocs page default with
        | some body => [Doc.keyword "case default" ++ indented page body]
        | none => []))) := by
      refine Joins.line.join (List.forall_mem_append.mpr ⟨joins_cases cases hcases, ?_⟩)
      split
      · next body hbody =>
        refine List.forall_mem_singleton.mpr ((Joins.keyword _).append (joins_indented ?_))
        exact hdocs body hbody
      · exact fun _ h => nomatch h
    rw [Stmt.doc]
    exact (Joins.keyword _).append ((Joins.text " ").append
      ((joins_expr selector hselector 0).1.parens.append (Joins.line.append
        (hlines.append (Joins.line.append (joins_endDoc "select" none))))))
  | .block label decls body => fun h => by
    rw [Stmt.Legible] at h
    obtain ⟨-, hdecls, hbody⟩ := h
    rw [Stmt.doc]
    have hlines : ∀ d ∈ decls.map (Decl.doc page), Joins d :=
      List.forall_mem_map.mpr fun d hd => joins_decl (hdecls d hd).names
    exact (joins_labelDoc label).append ((Joins.keyword "block").append
      ((joins_indented hlines).append ((joins_indented (joins_stmts body hbody)).append
        (Joins.line.append (joins_endDoc "block" label)))))
  | .exit label => fun _ => by
    rw [Stmt.doc]
    exact joins_keywordFor "exit" label
  | .cycle label => fun _ => by
    rw [Stmt.doc]
    exact joins_keywordFor "cycle" label
  | .return => fun _ => by
    rw [Stmt.doc]
    exact .keyword "return"

theorem joins_stmts : ∀ (ss : List Stmt), stmtsLegible code ss → ∀ d ∈ stmtDocs page ss, Joins d
  | [] => fun _ => by
    rw [stmtDocs]
    exact fun _ h => nomatch h
  | s :: rest => fun h => by
    rw [stmtsLegible] at h
    rw [stmtDocs]
    exact List.forall_mem_cons.mpr ⟨joins_stmt s h.1, joins_stmts rest h.2⟩

theorem joins_optional : ∀ (body : Option (List Stmt)), optionalLegible code body →
    ∀ ds ∈ optionalDocs page body, ∀ d ∈ ds, Joins d
  | none => fun _ => by
    rw [optionalDocs]
    exact fun _ h => nomatch h
  | some body => fun h => by
    rw [optionalLegible] at h
    rw [optionalDocs]
    rintro _ ⟨⟩
    exact joins_stmts body h

theorem joins_branches : ∀ (bs : List (Expr × List Stmt)), branchesLegible code bs →
    ∀ b ∈ branchDocs page bs, Joins b.1 ∧ ∀ d ∈ b.2, Joins d
  | [] => fun _ => by
    rw [branchDocs]
    exact fun _ h => nomatch h
  | (test, body) :: rest => fun h => by
    rw [branchesLegible] at h
    rw [branchDocs]
    exact List.forall_mem_cons.mpr ⟨⟨(joins_expr test h.1 0).1, joins_stmts body h.2.1⟩,
      joins_branches rest h.2.2⟩

theorem joins_cases : ∀ (cs : List (Nat × List Stmt)), casesLegible code cs →
    ∀ d ∈ caseDocs page cs, Joins d
  | [] => fun _ => by
    rw [caseDocs]
    exact fun _ h => nomatch h
  | (value, body) :: rest => fun h => by
    rw [casesLegible] at h
    rw [caseDocs]
    exact List.forall_mem_cons.mpr ⟨(Joins.keyword "case").append ((Joins.text " ").append
      ((Joins.text (toString value)).parens.append (joins_indented (joins_stmts body h.1)))),
        joins_cases rest h.2⟩

end

/-! ## Functions and modules -/

theorem joins_codeDoc (text : String) : Joins (codeDoc text) :=
  Joins.line.join (List.forall_mem_map.mpr fun line _ => Joins.text line)

theorem joins_body {body : Body} (h : body.Legible code) : Joins (body.doc page) := by
  cases body with
  | stmts ss => exact joins_indented (joins_stmts ss h)
  | verbatim text =>
    rw [Body.doc]
    split
    · exact .nil
    · exact (Joins.line.append (joins_codeDoc text)).nest _

theorem joins_function {f : Function} (h : f.Legible code) : Joins (f.doc page) := by
  have hrecursive : Joins (if f.recursive then Doc.keyword "recursive" ++ Doc.space else .nil) := by
    split
    · exact (Joins.keyword _).append (.text " ")
    · exact .nil
  have hargs : Joins (Doc.continued "," (f.args.map .text)) :=
    .continued (by decide) (List.forall_mem_map.mpr fun name hname =>
      ⟨.text name, (h.args name hname).opens⟩)
  have hdecls : Joins (Doc.concat (f.decls.map (fun d => .line ++ d.doc page))) :=
    .concat (List.forall_mem_map.mpr fun d hd => Joins.line.append (joins_decl (h.decls d hd)))
  have hend : Joins (endDoc "function" none ++ (Doc.space ++ .text f.name)) :=
    (joins_endDoc _ none).append ((Joins.text " ").append (.text f.name))
  exact hrecursive.append ((Joins.keyword _).append ((Joins.text " ").append
    ((Joins.text f.name).append ((hargs.nest _).parens.append ((Joins.text " ").append
      ((Joins.keyword _).append ((Joins.text f.result).parens.append ((hdecls.nest _).append
        ((joins_body h.body).append (Joins.line.append hend))))))))))

theorem joins_sideCode {text : Option String} {doc : Doc} (h : sideCode text = some doc) :
    Joins doc := by
  cases text with
  | none => cases h
  | some text =>
    rw [sideCode] at h
    split at h
    · cases h
    · exact Option.some.inj h ▸ joins_codeDoc text

/-- All layouts of a module can be joined to one. -/
theorem joins_module {m : Module} (h : ∀ f ∈ m.functions, f.Legible code) :
    Joins (m.doc page) := by
  have hgap : Joins (.line ++ .line) := Joins.line.append .line
  have huses : Joins (Doc.concat (m.uses.map (fun u => Doc.keyword "use" ++
      (Doc.space ++ (.text u ++ .line))))) :=
    .concat (List.forall_mem_map.mpr fun u _ => (Joins.keyword _).append
      ((Joins.text " ").append ((Joins.text u).append .line)))
  have hfunctions : Joins (Doc.join (.line ++ .line) (m.functions.map (Function.doc page))) :=
    hgap.join (List.forall_mem_map.mpr fun f hf => joins_function (h f hf))
  have hend : Joins (endDoc "module" none ++ (Doc.space ++ (.text m.name ++ .line))) :=
    (joins_endDoc _ none).append ((Joins.text " ").append ((Joins.text m.name).append .line))
  refine Joins.append ?_ ((Joins.keyword _).append ((Joins.text " ").append
    ((Joins.text m.name).append
      (((Joins.line.append (huses.append (.keyword _))).nest _).append
        (Joins.line.append ((Joins.keyword _).append (((hgap.append hfunctions).nest _).append
          (Joins.append ?_ (hgap.append hend)))))))))
  · split
    · next text htext => exact (joins_sideCode htext).append hgap
    · exact .nil
  · split
    · next text htext => exact hgap.append (joins_sideCode htext)
    · exact .nil

end

/-! ## Pages of different widths -/

section
variable {narrow wide : Page}

theorem stringDoc_page (h : narrow.indent = wide.indent)
    (value : String) : stringDoc narrow value = stringDoc wide value := by
  rw [stringDoc, stringDoc, h]

mutual

theorem doc_expr_page (h : narrow.indent = wide.indent) : ∀ (e : Expr) (surrounding : Nat),
    e.doc narrow surrounding = e.doc wide surrounding
  | .var _, _ | .int _, _ | .logical true, _ | .logical false, _ | .verbatim _, _ => by
    rw [Expr.doc, Expr.doc]
  | .str value, _ => by
    rw [Expr.doc, Expr.doc, stringDoc_page h]
  | .call name args, _ => by
    rw [Expr.doc, Expr.doc, exprDocs_page h args, h]
  | .substring var lo hi, _ => by
    rw [Expr.doc, Expr.doc, doc_expr_page h lo, doc_expr_page h hi]
  | .array items, _ => by
    rw [Expr.doc, Expr.doc, exprDocs_page h items, h]
  | .not operand, _ => by
    rw [Expr.doc, Expr.doc, doc_expr_page h operand]
  | .bin op lhs rhs, _ => by
    rw [Expr.doc, Expr.doc, doc_expr_page h lhs, doc_expr_page h rhs]

theorem exprDocs_page (h : narrow.indent = wide.indent)
    : ∀ es : List Expr, exprDocs narrow es = exprDocs wide es
  | [] => by
    rw [exprDocs, exprDocs]
  | e :: rest => by
    rw [exprDocs, exprDocs, doc_expr_page h e, exprDocs_page h rest]

end

theorem indented_page (h : narrow.indent = wide.indent)
    (ds : List Doc) : indented narrow ds = indented wide ds := by
  rw [indented, indented, h]

theorem condDoc_page (h : narrow.indent = wide.indent) : condDoc narrow = condDoc wide := by
  funext test body elseIfs otherwise
  simp only [condDoc, indented_page h]

theorem doc_decl_page (h : narrow.indent = wide.indent) (d : Decl) : d.doc narrow = d.doc wide := by
  rw [Decl.doc, Decl.doc, h]

theorem loopHead_page (h : narrow.indent = wide.indent)
    (label : Option String) (range : Option DoRange) :
    loopHead narrow label range = loopHead wide label range := by
  cases range with
  | none => rfl
  | some r => rw [loopHead, loopHead, doc_expr_page h, doc_expr_page h]

mutual

theorem doc_stmt_page (h : narrow.indent = wide.indent) : ∀ s : Stmt, s.doc narrow = s.doc wide
  | .assign lhs rhs => by
    rw [Stmt.doc, Stmt.doc, doc_expr_page h]
  | .cond test body elseIfs otherwise => by
    have htest := doc_expr_page h test 0
    have hbody := stmtDocs_page h body
    have helseIfs := branchDocs_page h elseIfs
    have hotherwise := optionalDocs_page h otherwise
    rw [Stmt.doc.eq_def, Stmt.doc.eq_def]
    simp only [htest, hbody, helseIfs, hotherwise, condDoc_page h]
  | .loop label range body => by
    rw [Stmt.doc, Stmt.doc, loopHead_page h, stmtDocs_page h body, indented_page h]
  | .select selector cases default => by
    rw [Stmt.doc, Stmt.doc, doc_expr_page h, caseDocs_page h cases, optionalDocs_page h default]
    simp only [indented_page h]
  | .block label decls body => by
    have hdecls : decls.map (Decl.doc narrow) = decls.map (Decl.doc wide) :=
      List.map_congr_left fun d _ => doc_decl_page h d
    rw [Stmt.doc, Stmt.doc, hdecls, stmtDocs_page h body, indented_page h, indented_page h]
  | .exit _ | .cycle _ | .return => by
    rw [Stmt.doc, Stmt.doc]

theorem stmtDocs_page (h : narrow.indent = wide.indent)
    : ∀ ss : List Stmt, stmtDocs narrow ss = stmtDocs wide ss
  | [] => by
    rw [stmtDocs, stmtDocs]
  | s :: rest => by
    rw [stmtDocs, stmtDocs, doc_stmt_page h s, stmtDocs_page h rest]

theorem optionalDocs_page (h : narrow.indent = wide.indent) : ∀ body : Option (List Stmt),
    optionalDocs narrow body = optionalDocs wide body
  | none => by
    rw [optionalDocs, optionalDocs]
  | some body => by
    rw [optionalDocs, optionalDocs, stmtDocs_page h body]

theorem branchDocs_page (h : narrow.indent = wide.indent)
    : ∀ bs : List (Expr × List Stmt), branchDocs narrow bs = branchDocs wide bs
  | [] => by
    rw [branchDocs, branchDocs]
  | (test, body) :: rest => by
    rw [branchDocs, branchDocs, doc_expr_page h, stmtDocs_page h body, branchDocs_page h rest]

theorem caseDocs_page (h : narrow.indent = wide.indent)
    : ∀ cs : List (Nat × List Stmt), caseDocs narrow cs = caseDocs wide cs
  | [] => by
    rw [caseDocs, caseDocs]
  | (value, body) :: rest => by
    rw [caseDocs, caseDocs, stmtDocs_page h body, indented_page h, caseDocs_page h rest]

end

theorem doc_function_page (h : narrow.indent = wide.indent)
    (f : Function) : f.doc narrow = f.doc wide := by
  have hbody : f.body.doc narrow = f.body.doc wide := by
    cases f.body with
    | stmts ss => rw [Body.doc, Body.doc, stmtDocs_page h, indented_page h]
    | verbatim text => rw [Body.doc, Body.doc, h]
  simp only [Function.doc, hbody, h, doc_decl_page h]

/-- The width of a page has no part in what is laid out on it. -/
theorem doc_module_page (h : narrow.indent = wide.indent)
    (m : Module) : m.doc narrow = m.doc wide := by
  have hfunctions : Function.doc narrow = Function.doc wide := funext (doc_function_page h)
  simp only [Module.doc, hfunctions, h]

end

end PegCompiler.Target
