import PegCompiler.Proofs.Layout.Chars
import PegCompiler.Proofs.Target.Precedence
import PegCompiler.Proofs.Text.Lines
import PegCompiler.Target.Module
/-
  The texts of expressions, statements and modules, and the documents that are written with
  their characters. What stands around the texts are words, numbers and signs of printable
  ASCII, so a document has characters of any common kind that its texts have.
-/

namespace PegCompiler.Target

open Layout (Common Doc Page Uses)

/-! ## Texts -/

mutual

/-- The texts of an expression. -/
def Expr.texts : Expr → List String
  | .int _ | .logical _ => []
  | .var text | .str text | .verbatim text => [text]
  | .call name args => name :: exprsTexts args
  | .substring var lo hi => var :: (lo.texts ++ hi.texts)
  | .array items => exprsTexts items
  | .not operand => operand.texts
  | .bin _ lhs rhs => lhs.texts ++ rhs.texts

def exprsTexts : List Expr → List String
  | [] => []
  | e :: rest => e.texts ++ exprsTexts rest

end

def Decl.texts (d : Decl) : List String :=
  d.type :: (d.attrs ++ d.names)

def DoRange.texts (r : DoRange) : List String :=
  r.var :: (r.first.texts ++ r.last.texts)

/-- The texts of the range of a loop that may be endless. -/
def rangeTexts : Option DoRange → List String
  | none => []
  | some r => r.texts

mutual

/-- The texts of a statement. -/
def Stmt.texts : Stmt → List String
  | .assign lhs rhs => lhs :: rhs.texts
  | .cond test body elseIfs otherwise =>
    test.texts ++ (stmtsTexts body ++ (branchesTexts elseIfs ++ optionalTexts otherwise))
  | .loop label range body => label.toList ++ (rangeTexts range ++ stmtsTexts body)
  | .select selector cases default =>
    selector.texts ++ (casesTexts cases ++ optionalTexts default)
  | .block label decls body => label.toList ++ (decls.flatMap Decl.texts ++ stmtsTexts body)
  | .exit label | .cycle label => label.toList
  | .return => []

def stmtsTexts : List Stmt → List String
  | [] => []
  | s :: rest => s.texts ++ stmtsTexts rest

def optionalTexts : Option (List Stmt) → List String
  | none => []
  | some body => stmtsTexts body

def branchesTexts : List (Expr × List Stmt) → List String
  | [] => []
  | (test, body) :: rest => test.texts ++ (stmtsTexts body ++ branchesTexts rest)

def casesTexts : List (Nat × List Stmt) → List String
  | [] => []
  | (_, body) :: rest => stmtsTexts body ++ casesTexts rest

end

def Body.texts : Body → List String
  | .stmts body => stmtsTexts body
  | .verbatim code => [code]

def Function.texts (f : Function) : List String :=
  f.name :: f.result :: (f.args ++ (f.decls.flatMap Decl.texts ++ f.body.texts))

def Module.texts (m : Module) : List String :=
  m.name :: (m.uses ++ (m.prologue.toList ++ (m.functions.flatMap Function.texts ++
    m.epilogue.toList)))

section
variable {P : Char → Prop} {page : Page}

/-! ## Expressions -/

theorem uses_quotedChars (hP : Common P) {cs : List Char} (h : ∀ c ∈ cs, P c) :
    ∀ c ∈ quotedChars cs, P c := by
  intro c hc
  obtain ⟨d, hd, hc⟩ := List.mem_flatMap.mp hc
  split at hc
  · have hquote : c = '\'' := by simpa using hc
    exact hquote ▸ hP '\'' (by decide)
  · rw [List.mem_singleton.mp hc]
    exact h d hd

/-- Only the characters of quoted pieces are written. -/
theorem written_piece (hP : Common P) {p : Piece}
    (h : ∀ chars, p = .quoted chars → ∀ c ∈ chars, P c) : p.doc.Written P := by
  cases p with
  | quoted chars =>
    have hquote : ∀ c ∈ ['\''], P c := List.forall_mem_singleton.mpr (hP _ (by decide))
    exact .mark .literal (.ofList (List.forall_mem_append.mpr ⟨List.forall_mem_append.mpr
      ⟨hquote, uses_quotedChars hP (h chars rfl)⟩, hquote⟩))
  | code n => exact .text (((Uses.fixed hP (by decide)).append (.digits hP n)).append
      (.fixed hP (by decide)))

theorem written_stringDoc (hP : Common P) {value : String}
    (h : ∀ chars, .quoted chars ∈ pieces value → ∀ c ∈ chars, P c) :
    (stringDoc page value).Written P := by
  refine .nest _ (.continued hP (.fixed hP (by decide)) ?_)
  exact List.forall_mem_map.mpr fun p hp => written_piece hP fun chars he => h chars (he ▸ hp)

theorem written_bracketed (hP : Common P) {d : Doc} (h : d.Written P) (surrounding own : Nat) :
    (bracketed surrounding own d).Written P := by
  unfold bracketed
  split
  · exact h.parens hP
  · exact h

mutual

theorem written_expr (hP : Common P) : ∀ (e : Expr), (∀ s ∈ e.texts, Uses P s) →
    ∀ surrounding : Nat, (e.doc page surrounding).Written P
  | .var name => fun h _ => by
    rw [Expr.doc]
    exact .text (h name (List.mem_singleton_self _))
  | .int n => fun _ _ => by
    rw [Expr.doc]
    exact .text (.digits hP n)
  | .logical true => fun _ _ => by
    rw [Expr.doc]
    exact .keyword hP (by decide)
  | .logical false => fun _ _ => by
    rw [Expr.doc]
    exact .keyword hP (by decide)
  | .str value => fun h _ => by
    have hvalue : Uses P value := h value (List.mem_singleton_self _)
    rw [Expr.doc]
    refine written_stringDoc hP fun chars hp c hc => hvalue c ?_
    rw [← flatMap_pieces]
    exact List.mem_flatMap.mpr ⟨_, hp, hc⟩
  | .call name args => fun h _ => by
    obtain ⟨hname, hargs⟩ := List.forall_mem_cons.mp h
    rw [Expr.doc]
    refine .append (.text hname) (.parens hP (.nest _ ?_))
    exact .continued hP (.fixed hP (by decide)) (written_exprs hP args hargs)
  | .substring var lo hi => fun h _ => by
    obtain ⟨hvar, hbounds⟩ := List.forall_mem_cons.mp h
    obtain ⟨hlo, hhi⟩ := List.forall_mem_append.mp hbounds
    rw [Expr.doc]
    refine .append (.text hvar) (.parens hP (.append (written_expr hP lo hlo 0) ?_))
    exact .append (.fixed hP (by decide)) (written_expr hP hi hhi 0)
  | .array items => fun h _ => by
    rw [Expr.doc]
    refine .brackets hP (.nest _ ?_)
    exact .continued hP (.fixed hP (by decide)) (written_exprs hP items h)
  | .not operand => fun h surrounding => by
    rw [Expr.doc]
    apply written_bracketed hP
    exact .append (.keyword hP (by decide)) (.spaced hP (written_expr hP operand h 5))
  | .bin op lhs rhs => fun h surrounding => by
    obtain ⟨hlhs, hrhs⟩ := List.forall_mem_append.mp h
    have hop : (Doc.text op.symbol).Written P := by
      cases op <;> exact .fixed hP (by decide)
    rw [Expr.doc]
    apply written_bracketed hP
    refine .append (written_expr hP lhs hlhs _) (.spaced hP (.append hop ?_))
    exact .spaced hP (written_expr hP rhs hrhs _)
  | .verbatim code => fun h _ => by
    have hcode : Uses P code := h code (List.mem_singleton_self _)
    rw [Expr.doc]
    refine .parens hP (.text (.ofList fun c hc => hcode c ?_))
    exact Text.trim_subset _ hc

theorem written_exprs (hP : Common P) : ∀ (es : List Expr), (∀ s ∈ exprsTexts es, Uses P s) →
    ∀ d ∈ exprDocs page es, d.Written P
  | [] => fun _ => by
    rw [exprDocs]
    exact List.forall_mem_nil _
  | e :: rest => fun h => by
    obtain ⟨he, hrest⟩ := List.forall_mem_append.mp h
    rw [exprDocs]
    exact List.forall_mem_cons.mpr ⟨written_expr hP e he 0, written_exprs hP rest hrest⟩

end

/-! ## Statements -/

theorem written_labelDoc (hP : Common P) {label : Option String}
    (h : ∀ s ∈ label.toList, Uses P s) : (labelDoc label).Written P := by
  cases label with
  | none => exact .nil
  | some name =>
    exact .append (.text (h name (List.mem_singleton_self _)))
      (.append (.fixed hP (by decide)) (.space hP))

theorem written_keywordFor (hP : Common P) {keyword : String} (hkeyword : Uses P keyword)
    {label : Option String} (h : ∀ s ∈ label.toList, Uses P s) :
    (keywordFor keyword label).Written P := by
  cases label with
  | none => exact .mark .keyword hkeyword
  | some name =>
    exact .append (.mark .keyword hkeyword)
      (.spaced hP (.text (h name (List.mem_singleton_self _))))

theorem written_endDoc (hP : Common P) {construct : String} (hconstruct : Uses P construct)
    {label : Option String} (h : ∀ s ∈ label.toList, Uses P s) :
    (endDoc construct label).Written P :=
  .append (.keyword hP (by decide)) (.spaced hP (written_keywordFor hP hconstruct h))

/-- The end of a construct without a name. -/
theorem written_end (hP : Common P) {construct : String} (hconstruct : Uses P construct) :
    (endDoc construct none).Written P :=
  written_endDoc hP hconstruct (List.forall_mem_nil _)

theorem written_indented {ds : List Doc} (h : ∀ d ∈ ds, d.Written P) :
    (indented page ds).Written P := by
  unfold indented
  split
  · exact .nil
  · exact .nest _ (.append .line (.lines h))

theorem written_condHead (hP : Common P) {keyword test : Doc} (hkeyword : keyword.Written P)
    (htest : test.Written P) : (condHead keyword test).Written P :=
  .append hkeyword (.spaced hP (htest.parens hP))

theorem written_condDoc (hP : Common P) {test : Doc} {body : List Doc}
    {elseIfs : List (Doc × List Doc)} {otherwise : Option (List Doc)} (htest : test.Written P)
    (hbody : ∀ d ∈ body, d.Written P)
    (helseIfs : ∀ b ∈ elseIfs, b.1.Written P ∧ ∀ d ∈ b.2, d.Written P)
    (hotherwise : ∀ ds ∈ otherwise, ∀ d ∈ ds, d.Written P) :
    (condDoc page test body elseIfs otherwise).Written P := by
  have hif : (Doc.keyword "if").Written P := .keyword hP (by decide)
  have helse : (Doc.keyword "else").Written P := .keyword hP (by decide)
  have hbranch {keyword test : Doc} {body : List Doc} (hkeyword : keyword.Written P)
      (htest : test.Written P) (hbody : ∀ d ∈ body, d.Written P) :
      (condHead keyword test ++
        (Doc.space ++ (Doc.keyword "then" ++ indented page body))).Written P :=
    .append (written_condHead hP hkeyword htest)
      (.spaced hP (.append (.keyword hP (by decide)) (written_indented hbody)))
  refine .append (hbranch hif htest hbody) (.append (.concat ?_) (.append ?_ ?_))
  · refine List.forall_mem_map.mpr fun b hb => .append .line ?_
    exact hbranch (.append helse (.spaced hP hif)) (helseIfs b hb).1 (helseIfs b hb).2
  · cases otherwise with
    | none => exact .nil
    | some ds => exact .append .line (.append helse (written_indented (hotherwise ds rfl)))
  · exact .append .line (written_end hP (.fixed hP (by decide)))

theorem written_decl (hP : Common P) {d : Decl} (h : ∀ s ∈ d.texts, Uses P s) :
    (d.doc page).Written P := by
  obtain ⟨htype, hrest⟩ := List.forall_mem_cons.mp h
  obtain ⟨hattrs, hnames⟩ := List.forall_mem_append.mp hrest
  have hfold : ∀ (attrs : List String) (doc : Doc), (∀ s ∈ attrs, Uses P s) → doc.Written P →
      (attrs.foldl (fun doc attr => doc ++ (Doc.text ", " ++ Doc.text attr)) doc).Written P := by
    intro attrs
    induction attrs with
    | nil => exact fun _ _ hdoc => hdoc
    | cons attr attrs ih =>
      intro doc h hdoc
      obtain ⟨hattr, hattrs⟩ := List.forall_mem_cons.mp h
      exact ih _ hattrs (.append hdoc (.append (.fixed hP (by decide)) (.text hattr)))
  have hlist : (Doc.continued "," (d.names.map .text)).Written P :=
    .continued hP (.fixed hP (by decide)) (List.forall_mem_map.mpr fun s hs => .text (hnames s hs))
  exact .append (hfold d.attrs _ hattrs (.mark .type htype))
    (.append (.fixed hP (by decide)) (.nest _ hlist))

theorem written_loopHead (hP : Common P) {label : Option String}
    (hlabel : ∀ s ∈ label.toList, Uses P s) {range : Option DoRange}
    (h : ∀ s ∈ rangeTexts range, Uses P s) : (loopHead page label range).Written P := by
  refine .append (written_labelDoc hP hlabel) (.append (.keyword hP (by decide)) ?_)
  cases range with
  | none => exact .nil
  | some r =>
    obtain ⟨hvar, hbounds⟩ := List.forall_mem_cons.mp h
    obtain ⟨hfirst, hlast⟩ := List.forall_mem_append.mp hbounds
    refine .spaced hP (.append (.text hvar) (.append (.fixed hP (by decide)) ?_))
    exact .append (written_expr hP r.first hfirst 0)
      (.append (.fixed hP (by decide)) (written_expr hP r.last hlast 0))

mutual

theorem written_stmt (hP : Common P) : ∀ (s : Stmt), (∀ t ∈ s.texts, Uses P t) →
    (s.doc page).Written P
  | .assign lhs rhs => fun h => by
    obtain ⟨hlhs, hrhs⟩ := List.forall_mem_cons.mp h
    rw [Stmt.doc]
    exact .append (.text hlhs) (.append (.fixed hP (by decide)) (written_expr hP rhs hrhs 0))
  | .cond test body elseIfs otherwise => fun h => by
    obtain ⟨htest, h⟩ := List.forall_mem_append.mp h
    obtain ⟨hbody, h⟩ := List.forall_mem_append.mp h
    obtain ⟨helseIfs, hotherwise⟩ := List.forall_mem_append.mp h
    have htest : (test.doc page 0).Written P := written_expr hP test htest 0
    rw [doc_cond]
    cases hlone : lone body elseIfs otherwise with
    | some s =>
      have hs : (s.doc page).Written P := written_stmts hP body hbody _ (doc_mem_of_lone hlone)
      exact .append (written_condHead hP (.keyword hP (by decide)) htest) (.spaced hP hs)
    | none =>
      exact written_condDoc hP htest (written_stmts hP body hbody)
        (written_branches hP elseIfs helseIfs) (written_optional hP otherwise hotherwise)
  | .loop label range body => fun h => by
    obtain ⟨hlabel, h⟩ := List.forall_mem_append.mp h
    obtain ⟨hrange, hbody⟩ := List.forall_mem_append.mp h
    rw [Stmt.doc]
    refine .append (written_loopHead hP hlabel hrange) (.append ?_ (.append .line ?_))
    · exact written_indented (written_stmts hP body hbody)
    · exact written_endDoc hP (.fixed hP (by decide)) hlabel
  | .select selector cases default => fun h => by
    obtain ⟨hselector, h⟩ := List.forall_mem_append.mp h
    obtain ⟨hcases, hdefault⟩ := List.forall_mem_append.mp h
    have hdocs : ∀ ds ∈ optionalDocs page default, ∀ d ∈ ds, d.Written P :=
      written_optional hP default hdefault
    have htest : (selector.doc page 0).Written P := written_expr hP selector hselector 0
    rw [Stmt.doc]
    refine .append (.keyword hP (by decide)) (.spaced hP (.append (htest.parens hP)
      (.append .line (.append (.lines ?_) (.append .line ?_)))))
    · refine List.forall_mem_append.mpr ⟨written_cases hP cases hcases, ?_⟩
      split
      · next body hbody =>
        refine List.forall_mem_singleton.mpr (.append (.keyword hP (by decide)) ?_)
        exact written_indented (hdocs body hbody)
      · exact List.forall_mem_nil _
    · exact written_end hP (.fixed hP (by decide))
  | .block label decls body => fun h => by
    obtain ⟨hlabel, h⟩ := List.forall_mem_append.mp h
    obtain ⟨hdecls, hbody⟩ := List.forall_mem_append.mp h
    have hlines : ∀ d ∈ decls.map (Decl.doc page), d.Written P := by
      refine List.forall_mem_map.mpr fun d hd => written_decl hP fun s hs => hdecls s ?_
      exact List.mem_flatMap.mpr ⟨d, hd, hs⟩
    rw [Stmt.doc]
    refine .append (written_labelDoc hP hlabel) (.append (.keyword hP (by decide))
      (.append (written_indented hlines) (.append ?_ (.append .line ?_))))
    · exact written_indented (written_stmts hP body hbody)
    · exact written_endDoc hP (.fixed hP (by decide)) hlabel
  | .exit label => fun h => by
    rw [Stmt.doc]
    exact written_keywordFor hP (.fixed hP (by decide)) h
  | .cycle label => fun h => by
    rw [Stmt.doc]
    exact written_keywordFor hP (.fixed hP (by decide)) h
  | .return => fun _ => by
    rw [Stmt.doc]
    exact .keyword hP (by decide)

theorem written_stmts (hP : Common P) : ∀ (ss : List Stmt), (∀ t ∈ stmtsTexts ss, Uses P t) →
    ∀ d ∈ stmtDocs page ss, d.Written P
  | [] => fun _ => by
    rw [stmtDocs]
    exact List.forall_mem_nil _
  | s :: rest => fun h => by
    obtain ⟨hs, hrest⟩ := List.forall_mem_append.mp h
    rw [stmtDocs]
    exact List.forall_mem_cons.mpr ⟨written_stmt hP s hs, written_stmts hP rest hrest⟩

theorem written_optional (hP : Common P) : ∀ (body : Option (List Stmt)),
    (∀ t ∈ optionalTexts body, Uses P t) →
    ∀ ds ∈ optionalDocs page body, ∀ d ∈ ds, d.Written P
  | none => fun _ => by
    rw [optionalDocs]
    exact fun _ h => nomatch h
  | some body => fun h => by
    rw [optionalDocs]
    rintro _ ⟨⟩
    exact written_stmts hP body h

theorem written_branches (hP : Common P) : ∀ (bs : List (Expr × List Stmt)),
    (∀ t ∈ branchesTexts bs, Uses P t) →
    ∀ b ∈ branchDocs page bs, b.1.Written P ∧ ∀ d ∈ b.2, d.Written P
  | [] => fun _ => by
    rw [branchDocs]
    exact List.forall_mem_nil _
  | (test, body) :: rest => fun h => by
    obtain ⟨htest, h⟩ := List.forall_mem_append.mp h
    obtain ⟨hbody, hrest⟩ := List.forall_mem_append.mp h
    rw [branchDocs]
    exact List.forall_mem_cons.mpr
      ⟨⟨written_expr hP test htest 0, written_stmts hP body hbody⟩, written_branches hP rest hrest⟩

theorem written_cases (hP : Common P) : ∀ (cs : List (Nat × List Stmt)),
    (∀ t ∈ casesTexts cs, Uses P t) → ∀ d ∈ caseDocs page cs, d.Written P
  | [] => fun _ => by
    rw [caseDocs]
    exact List.forall_mem_nil _
  | (value, body) :: rest => fun h => by
    obtain ⟨hbody, hrest⟩ := List.forall_mem_append.mp h
    rw [caseDocs]
    refine List.forall_mem_cons.mpr ⟨?_, written_cases hP rest hrest⟩
    exact .append (.keyword hP (by decide)) (.spaced hP (.append
      (.parens hP (.text (.digits hP value))) (written_indented (written_stmts hP body hbody))))

end

/-! ## Functions and modules -/

theorem written_codeDoc {code : String} (h : Uses P code) : (codeDoc code).Written P := by
  refine .lines (List.forall_mem_map.mpr (List.forall_mem_map.mpr fun line hmem => ?_))
  exact .text (.ofList fun c hc => h c (Text.subset_of_mem_dedent hmem hc))

theorem written_body (hP : Common P) {body : Body} (h : ∀ s ∈ body.texts, Uses P s) :
    (body.doc page).Written P := by
  cases body with
  | stmts ss => exact written_indented (written_stmts hP ss h)
  | verbatim code =>
    rw [Body.doc]
    split
    · exact .nil
    · exact .nest _ (.append .line (written_codeDoc (List.forall_mem_singleton.mp h)))

theorem written_function (hP : Common P) {f : Function} (h : ∀ s ∈ f.texts, Uses P s) :
    (f.doc page).Written P := by
  obtain ⟨hname, h⟩ := List.forall_mem_cons.mp h
  obtain ⟨hresult, h⟩ := List.forall_mem_cons.mp h
  obtain ⟨hargs, h⟩ := List.forall_mem_append.mp h
  obtain ⟨hdecls, hbody⟩ := List.forall_mem_append.mp h
  have hlist : (Doc.continued "," (f.args.map .text)).Written P :=
    .continued hP (.fixed hP (by decide)) (List.forall_mem_map.mpr fun s hs => .text (hargs s hs))
  have hlines : ∀ d ∈ f.decls, (Doc.line ++ d.doc page).Written P := fun d hd =>
    .append .line (written_decl hP fun s hs => hdecls s (List.mem_flatMap.mpr ⟨d, hd, hs⟩))
  have hhead : (if f.recursive then Doc.keyword "recursive" ++ Doc.space else .nil).Written P := by
    split
    · exact .append (.keyword hP (by decide)) (.space hP)
    · exact .nil
  have hend : (endDoc "function" none ++ (Doc.space ++ Doc.text f.name)).Written P :=
    .append (written_end hP (.fixed hP (by decide))) (.spaced hP (.text hname))
  refine .append hhead (.append (.keyword hP (by decide)) (.spaced hP (.append (.text hname)
    (.append (.parens hP (.nest _ hlist)) (.spaced hP (.append (.keyword hP (by decide)) ?_))))))
  exact .append (.parens hP (.text hresult)) (.append
    (.nest _ (.concat (List.forall_mem_map.mpr hlines)))
      (.append (written_body hP hbody) (.append .line hend)))

theorem written_sideCode {code : Option String} (h : ∀ s ∈ code.toList, Uses P s) :
    ∀ d ∈ sideCode code, d.Written P := by
  intro d hd
  cases code with
  | none => exact absurd hd (Option.not_mem_none _)
  | some code =>
    rw [sideCode] at hd
    split at hd
    · exact absurd hd (Option.not_mem_none _)
    · obtain rfl := Option.some.inj hd
      exact written_codeDoc (h code (List.mem_singleton_self _))

/-- A side block goes with a gap, and with no block there is none. -/
theorem written_gapped {code : Option Doc} {gapped : Doc → Doc}
    (h : ∀ d ∈ code, (gapped d).Written P) :
    (match code with
      | some d => gapped d
      | none => .nil).Written P := by
  cases code with
  | none => exact .nil
  | some d => exact h d rfl

theorem written_module (hP : Common P) {m : Module} (h : ∀ s ∈ m.texts, Uses P s) :
    (m.doc page).Written P := by
  obtain ⟨hname, h⟩ := List.forall_mem_cons.mp h
  obtain ⟨huses, h⟩ := List.forall_mem_append.mp h
  obtain ⟨hprologue, h⟩ := List.forall_mem_append.mp h
  obtain ⟨hfunctions, hepilogue⟩ := List.forall_mem_append.mp h
  have hgap : (Doc.line ++ Doc.line).Written P := .append .line .line
  have hfront := written_gapped fun d hd => .append (written_sideCode hprologue d hd) hgap
  have hback := written_gapped fun d hd => .append hgap (written_sideCode hepilogue d hd)
  have hlines : ∀ u ∈ m.uses,
      (Doc.keyword "use" ++ (Doc.space ++ (Doc.text u ++ Doc.line))).Written P := fun u hu =>
    .append (.keyword hP (by decide)) (.spaced hP (.append (.text (huses u hu)) .line))
  have hbodies : ∀ f ∈ m.functions, (f.doc page).Written P := fun f hf =>
    written_function hP fun s hs => hfunctions s (List.mem_flatMap.mpr ⟨f, hf, hs⟩)
  have hend : (endDoc "module" none ++ (Doc.space ++ (Doc.text m.name ++ Doc.line))).Written P :=
    .append (written_end hP (.fixed hP (by decide))) (.spaced hP (.append (.text hname) .line))
  refine .append hfront (.append (.keyword hP (by decide)) (.spaced hP (.append (.text hname)
    (.append (.nest _ ?_) (.append .line (.append (.keyword hP (by decide)) (.append (.nest _ ?_)
      (.append hback (.append hgap hend)))))))))
  · exact .append .line (.append (.concat (List.forall_mem_map.mpr hlines))
      (.keyword hP (by decide)))
  · exact .append hgap (.join hgap (List.forall_mem_map.mpr hbodies))

end

end PegCompiler.Target
