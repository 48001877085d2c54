import Mathlib
import PegCompiler.Proofs.Layout.Prints
import PegCompiler.Proofs.Target.Legible
import PegCompiler.Proofs.Text.Dedent
/-
  Functions around code of the grammar's author. Such a function is printed as its head,
  its declarations, the rows of the code and its end (`prints_wrapped`), and the functions at
  the end of a module are lines of the tidied text one after another (`lines_module`). A list
  of parameters can break over lines; of code no line is broken, joined or left out.
-/

namespace PegCompiler.Target

open Layout (Doc Page eq_stacked listBreak prints_back prints_behind prints_concat
  prints_continued prints_plain shift spaces)
open Text (dedent dedent_eq_nil flush_dedent isBlank lines lines_stacked lines_tidy rowLines
  rowLines_append rowLines_of_oneLine stacked stacked_append stacked_cons stacked_nil tidy trimEnd
  trimEnd_eq_nil trimEnd_eq_self)

/-! ## Rows -/

/-- A declaration in one line. -/
def Decl.text (d : Decl) : List Char :=
  d.type.toList ++ d.attrs.flatMap (fun attr => ", ".toList ++ attr.toList) ++ " :: ".toList ++
    List.intercalate ", ".toList (d.names.map String.toList)

/-- The head of a function that is not recursive; lines in which its parameters go on are
indented by a number of spaces. -/
def Function.head (f : Function) (indent : Nat) (broken : Bool) : List Char :=
  "function ".toList ++ f.name.toList ++ "(".toList ++
    List.intercalate (listBreak indent "," broken) (f.args.map String.toList) ++
    ") result(".toList ++ f.result.toList ++ ")".toList

/-- A row of code at an indentation; an empty one stays empty. -/
def codeRow (indent : Nat) (row : List Char) : List Char :=
  if row = [] then [] else spaces indent ++ row

/-- The rows of a function around code, at an indentation of one level: those of its head and
of its declarations, those of the code, and its end. -/
def Function.rows (f : Function) (indent : Nat) (broken : Bool) (code : String) :
    List (List Char) :=
  rowLines (spaces indent ++ f.head (2 * indent) broken) ++
    f.decls.flatMap (fun d => rowLines (spaces (2 * indent) ++ d.text)) ++
    (dedent code.toList).map (codeRow (2 * indent)) ++
    [spaces indent ++ ("end function ".toList ++ f.name.toList)]

/-- What is printed of a function around code, behind an empty row: some rows still have blanks
at their end. -/
def Function.printed (f : Function) (indent : Nat) (broken : Bool) (code : String) :
    List (List Char) :=
  [spaces indent, spaces indent ++ f.head (2 * indent) broken] ++
    f.decls.map (fun d => spaces (2 * indent) ++ d.text) ++
    (dedent code.toList).map (fun row => spaces (2 * indent) ++ row) ++
    [spaces indent ++ ("end function ".toList ++ f.name.toList)]

/-- A function around code. -/
structure Function.Wraps (f : Function) (code : String) : Prop where
  recursive : f.recursive = false
  body : f.body = .verbatim code
  decls : ∀ d ∈ f.decls, ∃ name, d.names = [name]
  named : IsName f.name

/-! ## Functions around code -/

section
variable {page : Page} {indent : Nat} {flat : Bool} {cs : List Char}

theorem printsOnly_decl {d : Decl} (h : ∃ name, d.names = [name]) :
    (d.doc page).PrintsOnly indent flat d.text := by
  obtain ⟨name, hname⟩ := h
  have htype : ∀ (attrs : List String) {doc : Doc} {text : List Char},
      doc.PrintsOnly indent flat text →
        (attrs.foldl (fun doc attr => doc ++ (.text ", " ++ .text attr)) doc).PrintsOnly indent flat
          (text ++ attrs.flatMap fun attr => ", ".toList ++ attr.toList) := by
    intro attrs
    induction attrs with
    | nil => exact fun h => by simpa using h
    | cons attr attrs ih =>
      intro doc text h
      have hattr := ih (h.append ((Doc.PrintsOnly.text ", ").append (.text attr)))
      rwa [List.append_assoc] at hattr
  have hnames : (Doc.nest page.indent (Doc.continued "," (d.names.map .text))).PrintsOnly indent flat
      (List.intercalate ", ".toList (d.names.map String.toList)) := by
    intro cs (h : (Doc.continued "," (d.names.map .text)).Prints (shift indent page.indent) flat cs)
    obtain ⟨broken, rfl⟩ := prints_continued h
    rw [hname, List.map_singleton, List.intercalate_singleton, List.intercalate_singleton]
  have h := (htype d.attrs (.mark .type d.type)).append ((Doc.PrintsOnly.text " :: ").append hnames)
  rw [Decl.text, List.append_assoc]
  exact h

/-- Code is printed as the rows that are left of it without its indentation. -/
theorem printsOnly_code (code : String) : ((Body.verbatim code).doc page).PrintsOnly indent flat
    (stacked ((dedent code.toList).map fun row => spaces (shift indent page.indent) ++ row)) := by
  intro cs h
  have hblank : Text.isBlankText code = true ↔ dedent code.toList = [] := dedent_eq_nil.symm
  rw [Body.doc] at h
  split at h
  next hcode =>
    rw [hblank.mp hcode]
    exact h
  next hcode =>
    obtain ⟨row, rows, hrows⟩ := List.exists_cons_of_ne_nil (mt hblank.mpr hcode)
    change (Doc.line ++ codeDoc code).Prints (shift indent page.indent) flat cs at h
    rw [codeDoc, Text.dedentLines, hrows] at h
    obtain ⟨parts, rfl, hparts⟩ := prints_behind h
    change List.Forall₂ _ (((row :: rows).map String.ofList).map Doc.text) parts at hparts
    rw [List.map_map, List.forall₂_map_left_iff] at hparts
    rw [hrows]
    have hrow (row : List Char) :
        (Doc.text (String.ofList row)).PrintsOnly (shift indent page.indent) flat row :=
      fun _ h => Eq.trans h String.toList_ofList
    exact eq_stacked (fun row _ => hrow row) hparts

/-- A function around code, behind an empty line. -/
theorem prints_wrapped {f : Function} {code : String} (hf : f.Wraps code) (hpage : 0 ≤ page.indent)
    (h : ((Doc.line ++ Doc.line : Doc) ++ f.doc page).Prints page.indent.toNat flat cs) :
    ∃ broken, cs = stacked (f.printed page.indent.toNat broken code) := by
  obtain ⟨_, _, rfl, ⟨_, _, rfl, rfl, rfl⟩, hdoc⟩ := h
  have hshift : shift page.indent.toNat page.indent = 2 * page.indent.toNat := by
    unfold shift
    omega
  unfold Function.doc at hdoc
  rw [hf.recursive, hf.body] at hdoc
  -- one part of the document after another; all but three of them are words
  obtain ⟨_, _, rfl, rfl, _, _, rfl, rfl, _, _, rfl, rfl, _, _, rfl, rfl, hdoc⟩ := hdoc
  obtain ⟨_, _, rfl, ⟨_, _, rfl, rfl, args, _, rfl, hargs, rfl⟩, hdoc⟩ := hdoc
  obtain ⟨_, _, rfl, rfl, _, _, rfl, rfl, hdoc⟩ := hdoc
  obtain ⟨_, _, rfl, ⟨_, _, rfl, rfl, _, _, rfl, rfl, rfl⟩, hdoc⟩ := hdoc
  obtain ⟨decls, _, rfl, hdecls, body, _, rfl, hbody, hdoc⟩ := hdoc
  obtain ⟨_, _, rfl, rfl, _, _, rfl, ⟨_, _, rfl, rfl, _, _, rfl, rfl, rfl⟩, hdoc⟩ := hdoc
  obtain ⟨_, _, rfl, rfl, rfl⟩ := hdoc
  change (Doc.continued "," (f.args.map .text)).Prints
    (shift page.indent.toNat page.indent) flat args at hargs
  change (Doc.concat (f.decls.map fun d => .line ++ d.doc page)).Prints
    (shift page.indent.toNat page.indent) flat decls at hdecls
  obtain ⟨broken, rfl⟩ := prints_continued hargs
  obtain ⟨parts, rfl, hparts⟩ := prints_concat hdecls
  rw [List.forall₂_map_left_iff] at hparts
  rw [eq_stacked (fun d hd => printsOnly_decl (hf.decls d hd)) hparts, printsOnly_code code _ hbody,
    hshift]
  have hfunction : "function ".toList = "function".toList ++ " ".toList := by decide
  have hresult : ") result(".toList =
      ")".toList ++ (" ".toList ++ ("result".toList ++ "(".toList)) := by decide
  have hend : "end function ".toList =
      "end".toList ++ (" ".toList ++ ("function".toList ++ " ".toList)) := by decide
  refine ⟨broken, ?_⟩
  unfold Function.printed Function.head
  simp only [hfunction, hresult, hend, stacked_append, stacked_cons, stacked_nil,
    List.append_assoc, List.cons_append, List.nil_append, List.append_nil]

end

/-! ## Trimmed rows -/

theorem IsName.not_blank {name : String} (h : IsName name) :
    ∀ c ∈ name.toList, isBlank c = false := by
  obtain ⟨first, rest, hname, hfirst, hrest⟩ := h
  have hchar {c : Char} (hc : isNameChar c = true) : isBlank c = false := by
    simp only [isNameChar, Char.isAlphanum, Char.isAlpha, Char.isUpper, Char.isLower, Char.isDigit,
      Bool.or_eq_true, Bool.and_eq_true, decide_eq_true_eq, beq_iff_eq, ge_iff_le,
      UInt32.le_iff_toNat_le] at hc
    rcases hc with hc | rfl
    · have hrange : (65 ≤ c.toNat ∧ c.toNat ≤ 90 ∨ 97 ≤ c.toNat ∧ c.toNat ≤ 122) ∨
          48 ≤ c.toNat ∧ c.toNat ≤ 57 := hc
      simp only [isBlank, Bool.or_eq_false_iff, Bool.and_eq_false_iff, decide_eq_false_iff_not,
        beq_eq_false_iff_ne]
      omega
    · decide
  rw [hname]
  refine List.forall_mem_cons.mpr ⟨hchar ?_, fun c hc => hchar (hrest c hc)⟩
  rw [isNameChar, Char.isAlphanum, hfirst]
  rfl

theorem spaces_blank (n : Nat) : ∀ c ∈ spaces n, isBlank c = true := by
  intro c hc
  rw [(List.mem_replicate.mp hc).2]
  decide

theorem spaces_oneLine (n : Nat) : '\n' ∉ spaces n :=
  fun h => absurd (List.mem_replicate.mp h).2 (by decide)

theorem rowLines_spaces (n : Nat) : rowLines (spaces n) = [[]] := by
  rw [rowLines_of_oneLine (spaces_oneLine n),
    trimEnd_eq_nil.mpr (List.all_eq_true.mpr (spaces_blank n))]

/-- A row of code is one line of the text. -/
theorem rowLines_code {code row : List Char} (h : row ∈ dedent code) (indent : Nat) :
    rowLines (spaces indent ++ row) = [codeRow indent row] := by
  have hflush := flush_dedent code
  have honeLine : '\n' ∉ spaces indent ++ row := by
    simp [spaces_oneLine, hflush.oneLine row h]
  rw [codeRow]
  split
  next hnil => rw [hnil, List.append_nil, rowLines_spaces]
  next hne => exact rowLines_append honeLine (hflush.trimmed row h) hne

/-- A function around code, behind an empty line, is its rows. -/
theorem rowLines_wrapped {f : Function} {code : String} (hf : f.Wraps code) (indent : Nat)
    (broken : Bool) :
    (f.printed indent broken code).flatMap rowLines = [] :: f.rows indent broken code := by
  have hend : rowLines (spaces indent ++ ("end function ".toList ++ f.name.toList)) =
      [spaces indent ++ ("end function ".toList ++ f.name.toList)] := by
    have hname : trimEnd f.name.toList = f.name.toList :=
      trimEnd_eq_self.mpr fun h => by simp [hf.named.not_blank _ (List.getLast_mem h)]
    have hne : f.name.toList ≠ [] := by
      obtain ⟨c, cs, hc, -⟩ := hf.named
      simp [hc]
    have hfeed : '\n' ∉ f.name.toList := fun h => absurd (hf.named.not_blank _ h) (by decide)
    rw [← List.append_assoc]
    exact rowLines_append (by simp [spaces_oneLine, hfeed]) hname hne
  have hcode : ((dedent code.toList).map fun row => spaces (2 * indent) ++ row).flatMap rowLines =
      (dedent code.toList).map (codeRow (2 * indent)) := by
    rw [List.flatMap_map, List.map_eq_flatMap]
    exact List.flatMap_congr fun row h => rowLines_code h _
  unfold Function.printed Function.rows
  simp only [List.flatMap_append, List.flatMap_cons, List.flatMap_nil, rowLines_spaces, hend, hcode,
    List.flatMap_map, List.append_nil, List.append_assoc, List.cons_append, List.nil_append]

/-! ## Modules -/

section
variable {α : Type} {wrap : α → Function} {code : α → String} {page : Page} {as : List α}

/-- Functions around code, each behind an empty line. -/
theorem rows_wrapped {flat : Bool} {parts : List (List Char)} (hpage : 0 ≤ page.indent)
    (hwraps : ∀ a ∈ as, (wrap a).Wraps (code a))
    (h : List.Forall₂ (fun a part => ((Doc.line ++ Doc.line : Doc) ++ (wrap a).doc page).Prints
      page.indent.toNat flat part) as parts) :
    ∃ printed rows, parts.flatten = stacked printed ∧
      printed.flatMap rowLines = rows.flatMap (fun row => [] :: row) ∧
      List.Forall₂ (fun a row => ∃ broken, row = (wrap a).rows page.indent.toNat broken (code a))
        as rows := by
  induction h with
  | nil => exact ⟨[], [], rfl, rfl, .nil⟩
  | @cons a _ as _ hpart _ ih =>
    obtain ⟨hwrap, hrest⟩ := List.forall_mem_cons.mp hwraps
    obtain ⟨broken, rfl⟩ := prints_wrapped hwrap hpage hpart
    obtain ⟨printed, rows, hparts, hlines, hrows⟩ := ih hrest
    refine ⟨(wrap a).printed page.indent.toNat broken (code a) ++ printed,
      (wrap a).rows page.indent.toNat broken (code a) :: rows, ?_, ?_, .cons ⟨broken, rfl⟩ hrows⟩
    · rw [List.flatten_cons, hparts, ← stacked_append]
    · rw [List.flatMap_append, rowLines_wrapped hwrap, hlines, List.flatMap_cons]

/-- The functions around code that a module has at its end are lines of its text, one function
after another, each behind an empty line. -/
theorem lines_module {m : Module} {fs : List Function} (hpage : 0 ≤ page.indent)
    (hwraps : ∀ a ∈ as, (wrap a).Wraps (code a)) (hfunctions : m.functions = fs ++ as.map wrap)
    (layout : (m.doc page).Arrangement 0 false) : ∃ front rows back, List.Forall₂ (fun a row => ∃ broken,
        row = (wrap a).rows page.indent.toNat broken (code a)) as rows ∧
      lines (tidy layout.plain).toList = front ++ rows.flatMap (fun row => [] :: row) ++ back := by
  have h := prints_plain layout
  rw [lines_tidy]
  generalize layout.plain.toList = text at h
  unfold Module.doc at h
  -- the text in front of the functions and behind them is not looked at
  obtain ⟨prologue, _, rfl, -, keyword, _, rfl, -, space, _, rfl, -, name, _, rfl, -, h⟩ := h
  obtain ⟨uses, _, rfl, -, line, _, rfl, -, contains, _, rfl, -, h⟩ := h
  obtain ⟨functions, _, rfl, hmembers, epilogue, _, rfl, hepilogue, h⟩ := h
  obtain ⟨_, _, rfl, ⟨_, _, rfl, rfl, rfl⟩, ending, _, rfl, -, space', _, rfl, -, h⟩ := h
  obtain ⟨name', _, rfl, -, rfl⟩ := h
  change ((Doc.line ++ Doc.line : Doc) ++ Doc.join (Doc.line ++ Doc.line)
    (m.functions.map (Function.doc page))).Prints (shift 0 page.indent) false functions at hmembers
  rw [hfunctions, List.map_append, List.map_map] at hmembers
  obtain ⟨front, parts, rfl, hparts⟩ := prints_back _ hmembers
  have hshift : shift 0 page.indent = page.indent.toNat := by
    unfold shift
    omega
  rw [hshift, List.forall₂_map_left_iff] at hparts
  obtain ⟨printed, rows, hprinted, hlines, hrows⟩ := rows_wrapped hpage hwraps hparts
  obtain ⟨behind, rfl⟩ : ∃ behind, epilogue = stacked behind := by
    cases hside : sideCode m.epilogue with
    | none =>
      rw [hside] at hepilogue
      exact ⟨[], hepilogue⟩
    | some code =>
      rw [hside] at hepilogue
      obtain ⟨_, text, rfl, ⟨_, _, rfl, rfl, rfl⟩, -⟩ := hepilogue
      exact ⟨[[], text], by simp [stacked, spaces]⟩
  let before := prologue ++ (keyword ++ (space ++ (name ++ (uses ++ (line ++
    (contains ++ front))))))
  let after := behind ++ [[], ending ++ (space' ++ name')]
  have hstacked : (lines (before ++ (stacked (printed ++ after) ++ ['\n']))).map trimEnd =
      rowLines before ++ printed.flatMap rowLines ++ after.flatMap rowLines := by
    rw [lines_stacked, List.flatMap_append, List.append_assoc]
  refine ⟨rowLines before, rows, after.flatMap rowLines, hrows, ?_⟩
  rw [← hlines, ← hstacked, hprinted]
  simp [before, after, stacked_append, stacked_cons, stacked_nil, spaces]

end

end PegCompiler.Target
