import PegCompiler.Proofs.Target.Precedence
/-
  The rows of a body. A row is what stands on a line once lines are joined: a statement of
  one line, a part of a construct of several, a declaration or nothing. No word is reserved,
  so what follows the first word is looked at before the word itself: behind a name stand
  the sign of an assignment or the colon of a label, and behind a keyword neither.
-/

namespace PegCompiler.Target

/-! ## Rows and their tokens -/

/-- What stands on a line. -/
inductive Row where
  | blank
  | simple (s : Stmt)
  | guarded (test : Expr) (s : Stmt)
  | ifThen (test : Expr)
  | elseIf (test : Expr)
  | otherwise
  | endIf
  | loop (label : Option String) (range : Option DoRange)
  | endLoop (label : Option String)
  | select (selector : Expr)
  | case (value : Nat)
  | caseDefault
  | endSelect
  | block (label : Option String)
  | decl (d : Decl)
  | endBlock (label : Option String)

/-- The name of a construct behind its keyword. -/
def labelWord : Option String → List Token
  | none => []
  | some label => [.word label]

/-- The name of a construct in front of it. -/
def labelTokens : Option String → List Token
  | none => []
  | some label => [.word label, .colon]

/-- An expression in brackets, and what follows it. -/
def parenthesized (e : Expr) (rest : List Token) : List Token :=
  .opening :: (e.tokens 0 ++ .closing :: rest)

/-- The range of a loop. -/
def rangeTokens : Option DoRange → List Token
  | none => []
  | some r => .word r.var :: .equals :: (r.first.tokens 0 ++ .comma :: r.last.tokens 0)

/-- The tokens of a statement of one line. -/
def Stmt.simpleTokens : Stmt → List Token
  | .assign lhs rhs => .word lhs :: .equals :: rhs.tokens 0
  | .exit label => .word "exit" :: labelWord label
  | .cycle label => .word "cycle" :: labelWord label
  | .return => [.word "return"]
  | _ => []

/-- The tokens of a row. -/
def Row.tokens : Row → List Token
  | .blank => []
  | .simple s => s.simpleTokens
  | .guarded test s => .word "if" :: parenthesized test s.simpleTokens
  | .ifThen test => .word "if" :: parenthesized test [.word "then"]
  | .elseIf test => .word "else" :: .word "if" :: parenthesized test [.word "then"]
  | .otherwise => [.word "else"]
  | .endIf => [.word "end", .word "if"]
  | .loop label range => labelTokens label ++ .word "do" :: rangeTokens range
  | .endLoop label => .word "end" :: .word "do" :: labelWord label
  | .select selector => .word "select" :: .word "case" :: parenthesized selector []
  | .case value => [.word "case", .opening, .number value, .closing]
  | .caseDefault => [.word "case", .word "default"]
  | .endSelect => [.word "end", .word "select"]
  | .block label => labelTokens label ++ [.word "block"]
  | .decl d => .type d.type :: .colon :: .colon :: separated .comma (d.names.map ([.word ·]))
  | .endBlock label => .word "end" :: .word "block" :: labelWord label

/-- A row can be read back. -/
def Row.Legible : Row → Prop
  | .simple s => s.isSimple = true ∧ s.Legible fun _ => False
  | .guarded test s =>
    (test.Legible fun _ => False) ∧ s.isSimple = true ∧ s.Legible fun _ => False
  | .ifThen test | .elseIf test | .select test => test.Legible fun _ => False
  | .loop _ range => rangeLegible (fun _ => False) range
  | .decl d => d.Legible
  | _ => True

/-! ## Reading rows -/

/-- An expression that is all there is. -/
def readWhole (ts : List Token) : Option Expr :=
  match readExpr ts with
  | some (e, []) => some e
  | _ => none

/-- An expression in brackets, and what follows it. -/
def readParenthesized : List Token → Option (Expr × List Token)
  | .opening :: rest => match readExpr rest with
    | some (e, .closing :: rest) => some (e, rest)
    | _ => none
  | _ => none

/-- The name of a construct behind its keyword. -/
def readLabel : List Token → Option (Option String)
  | [] => some none
  | [.word label] => some (some label)
  | _ => none

/-- Names with commas between them. -/
def readNames : List Token → Option (List String)
  | [.word name] => some [name]
  | .word name :: .comma :: rest => (readNames rest).map (name :: ·)
  | _ => none

/-- The range of a loop. -/
def readRange : List Token → Option (Option DoRange)
  | [] => some none
  | .word var :: .equals :: rest => match readExpr rest with
    | some (first, .comma :: rest) => (readWhole rest).map fun last => some ⟨var, first, last⟩
    | _ => none
  | _ => none

/-- A statement of one line. -/
def readSimple : List Token → Option Stmt
  | .word lhs :: .equals :: rest => (readWhole rest).map (.assign lhs)
  | .word keyword :: rest =>
    if keyword = "exit" then (readLabel rest).map .exit
    else if keyword = "cycle" then (readLabel rest).map .cycle
    else if keyword = "return" ∧ rest = [] then some .return
    else none
  | _ => none

/-- A construct that can have a name. -/
def readConstruct (label : Option String) (keyword : String) (rest : List Token) : Option Row :=
  if keyword = "do" then (readRange rest).map (.loop label)
  else if keyword = "block" ∧ rest = [] then some (.block label)
  else none

/-- A condition, and the statement that stands behind it. -/
def readIf (rest : List Token) : Option Row :=
  match readParenthesized rest with
  | some (test, rest) =>
    if rest = [.word "then"] then some (.ifThen test)
    else (readSimple rest).map (.guarded test)
  | none => none

/-- Another branch. -/
def readElse : List Token → Option Row
  | [] => some .otherwise
  | .word keyword :: rest => match readParenthesized rest with
    | some (test, rest) =>
      if keyword = "if" ∧ rest = [.word "then"] then some (.elseIf test) else none
    | none => none
  | _ => none

/-- A selection. -/
def readSelect : List Token → Option Row
  | .word keyword :: rest => match readParenthesized rest with
    | some (selector, rest) =>
      if keyword = "case" ∧ rest = [] then some (.select selector) else none
    | none => none
  | _ => none

/-- A case. -/
def readCase : List Token → Option Row
  | [.opening, .number value, .closing] => some (.case value)
  | [.word keyword] => if keyword = "default" then some .caseDefault else none
  | _ => none

/-- The end of a construct. -/
def readEnd : List Token → Option Row
  | .word construct :: rest =>
    if construct = "if" ∧ rest = [] then some .endIf
    else if construct = "select" ∧ rest = [] then some .endSelect
    else if construct = "do" then (readLabel rest).map .endLoop
    else if construct = "block" then (readLabel rest).map .endBlock
    else none
  | _ => none

/-- A row that begins with a keyword. -/
def readKeyword (keyword : String) (rest : List Token) : Option Row :=
  if keyword = "if" then readIf rest
  else if keyword = "else" then readElse rest
  else if keyword = "end" then readEnd rest
  else if keyword = "select" then readSelect rest
  else if keyword = "case" then readCase rest
  else if keyword = "do" ∨ keyword = "block" then readConstruct none keyword rest
  else (readSimple (.word keyword :: rest)).map .simple

/-- A row. -/
def readRow : List Token → Option Row
  | [] => some .blank
  | .type spec :: .colon :: .colon :: rest =>
    (readNames rest).map fun names => .decl ⟨spec, [], names⟩
  | .word lhs :: .equals :: rest => (readSimple (.word lhs :: .equals :: rest)).map .simple
  | .word label :: .colon :: .word keyword :: rest => readConstruct (some label) keyword rest
  | .word keyword :: rest => readKeyword keyword rest
  | _ => none

section
variable {e : Expr}

theorem readWhole_tokens (h : e.Legible fun _ => False) : readWhole (e.tokens 0) = some e := by
  have hread := readExpr_tokens h (follows_nil 0)
  rw [List.append_nil] at hread
  rw [readWhole, hread]

theorem readParenthesized_tokens (h : e.Legible fun _ => False) (rest : List Token) :
    readParenthesized (parenthesized e rest) = some (e, rest) := by
  have hfollows : Follows 0 (.closing :: rest) := follows_end rfl 0 rest
  rw [parenthesized, readParenthesized, readExpr_tokens h hfollows]

theorem readNames_tokens : ∀ {names : List String}, names ≠ [] →
    readNames (separated .comma (names.map ([.word ·]))) = some names
  | [], h => absurd rfl h
  | [_], _ => rfl
  | name :: other :: rest, _ => by
    have ih := readNames_tokens (List.cons_ne_nil other rest)
    show readNames (.word name :: .comma :: separated .comma ((other :: rest).map ([.word ·]))) = _
    rw [readNames, ih]
    rfl

theorem readRange_tokens {range : Option DoRange} (h : rangeLegible (fun _ => False) range) :
    readRange (rangeTokens range) = some range := by
  cases range with
  | none => rfl
  | some r =>
    obtain ⟨-, hfirst, hlast⟩ := h r rfl
    have hfollows : Follows 0 (.comma :: r.last.tokens 0) := follows_end rfl 0 _
    rw [rangeTokens, readRange, readExpr_tokens hfirst hfollows]
    show (readWhole (r.last.tokens 0)).map _ = _
    rw [readWhole_tokens hlast]
    rfl

theorem readSimple_tokens {s : Stmt} (hsimple : s.isSimple = true)
    (h : s.Legible fun _ => False) : readSimple s.simpleTokens = some s := by
  cases s with
  | assign lhs rhs =>
    rw [Stmt.simpleTokens, readSimple, readWhole_tokens h.2]
    rfl
  | exit label => cases label <;> rfl
  | cycle label => cases label <;> rfl
  | «return» => rfl
  | _ => exact nomatch hsimple

theorem simpleTokens_ne_then {s : Stmt} (hsimple : s.isSimple = true) :
    s.simpleTokens ≠ [.word "then"] := by
  cases s with
  | assign lhs rhs => simp [Stmt.simpleTokens]
  | exit label => simp [Stmt.simpleTokens]
  | cycle label => simp [Stmt.simpleTokens]
  | «return» => simp [Stmt.simpleTokens]
  | _ => exact nomatch hsimple

theorem readConstruct_loop (label : Option String) {range : Option DoRange}
    (h : rangeLegible (fun _ => False) range) :
    readConstruct label "do" (rangeTokens range) = some (.loop label range) := by
  rw [readConstruct, if_pos rfl, readRange_tokens h]
  rfl

/-- A row is read back from its tokens. -/
theorem readRow_tokens {r : Row} (h : r.Legible) : readRow r.tokens = some r := by
  cases r with
  | blank => rfl
  | simple s =>
    have hread := readSimple_tokens h.1 h.2
    -- what follows the first word decides, so a name that is a keyword is still a name
    cases s with
    | assign lhs rhs =>
      show (readSimple (.word lhs :: .equals :: rhs.tokens 0)).map _ = _
      rw [Stmt.simpleTokens] at hread
      rw [hread]
      rfl
    | exit label => cases label <;> rfl
    | cycle label => cases label <;> rfl
    | «return» => rfl
    | _ => exact nomatch h.1
  | guarded test s =>
    obtain ⟨htest, hsimple, hs⟩ := h
    show readIf (parenthesized test s.simpleTokens) = _
    rw [readIf, readParenthesized_tokens htest]
    dsimp only
    rw [if_neg (simpleTokens_ne_then hsimple), readSimple_tokens hsimple hs]
    rfl
  | ifThen test =>
    show readIf (parenthesized test [.word "then"]) = _
    rw [readIf, readParenthesized_tokens h]
    rfl
  | elseIf test =>
    show readElse (.word "if" :: parenthesized test [.word "then"]) = _
    rw [readElse, readParenthesized_tokens h]
    rfl
  | otherwise => rfl
  | endIf => rfl
  | loop label range =>
    have hread := readConstruct_loop label h
    cases label with
    | some label => exact hread
    | none =>
      cases range with
      | none => rfl
      | some r => exact hread
  | endLoop label => cases label <;> rfl
  | select selector =>
    show readSelect (.word "case" :: parenthesized selector []) = _
    rw [readSelect, readParenthesized_tokens h]
    rfl
  | case value => rfl
  | caseDefault => rfl
  | endSelect => rfl
  | block label => cases label <;> rfl
  | decl d =>
    obtain ⟨type, attrs, names⟩ := d
    obtain rfl : attrs = [] := h.attrs
    show (readNames _).map _ = _
    rw [readNames_tokens h.some]
    rfl
  | endBlock label => cases label <;> rfl

end

/-! ## Lines -/

theorem lineEnd_separated {sep : Token} (hsep : sep ≠ .lineEnd) {tss : List (List Token)}
    (h : ∀ ts ∈ tss, .lineEnd ∉ ts) : .lineEnd ∉ separated sep tss := by
  cases tss with
  | nil => exact List.not_mem_nil
  | cons ts tss =>
    obtain ⟨hts, htss⟩ := List.forall_mem_cons.mp h
    rw [separated_cons, List.mem_append, List.mem_flatMap]
    rintro (hmem | ⟨us, hus, hmem⟩)
    · exact hts hmem
    · obtain heq | hmem := List.mem_cons.mp hmem
      · exact hsep heq.symm
      · exact htss us hus hmem

theorem comma_ne_lineEnd : Token.comma ≠ .lineEnd := by
  decide

theorem lineEnd_bracketed {surrounding own : Nat} {ts : List Token} (h : .lineEnd ∉ ts) :
    .lineEnd ∉ bracketedTokens surrounding own ts := by
  unfold bracketedTokens
  split
  · simpa using h
  · exact h

mutual

/-- An expression goes over no line end. -/
theorem lineEnd_expr : ∀ (e : Expr) (surrounding : Nat), .lineEnd ∉ e.tokens surrounding
  | .var _, _ | .int _, _ | .logical _, _ | .verbatim _, _ => by simp [Expr.tokens]
  | .str value, _ => by
    rw [Expr.tokens]
    have hsep : Token.binary .concat ≠ .lineEnd := by decide
    refine lineEnd_separated hsep (List.forall_mem_map.mpr fun p _ => ?_)
    cases p <;> simp [Piece.tokens]
  | .call name args, _ => by
    have hargs := lineEnd_separated comma_ne_lineEnd (lineEnd_exprs args)
    simpa [Expr.tokens] using hargs
  | .substring var lo hi, _ => by
    have hlo := lineEnd_expr lo 0
    have hhi := lineEnd_expr hi 0
    simpa [Expr.tokens] using ⟨hlo, hhi⟩
  | .array items, _ => by
    have hitems := lineEnd_separated comma_ne_lineEnd (lineEnd_exprs items)
    simpa [Expr.tokens] using hitems
  | .not operand, _ => by
    have hoperand := lineEnd_expr operand 5
    rw [Expr.tokens]
    exact lineEnd_bracketed (by simpa using hoperand)
  | .bin op lhs rhs, _ => by
    have hlhs := lineEnd_expr lhs op.precedence
    have hrhs := lineEnd_expr rhs (op.precedence + 1)
    rw [Expr.tokens]
    exact lineEnd_bracketed (by simpa using ⟨hlhs, hrhs⟩)

theorem lineEnd_exprs : ∀ es : List Expr, ∀ ts ∈ exprsTokens es, .lineEnd ∉ ts
  | [] => fun _ h => nomatch h
  | e :: es => List.forall_mem_cons.mpr ⟨lineEnd_expr e 0, lineEnd_exprs es⟩

end

theorem lineEnd_parenthesized {e : Expr} {rest : List Token} (h : .lineEnd ∉ rest) :
    .lineEnd ∉ parenthesized e rest := by
  simpa [parenthesized] using ⟨lineEnd_expr e 0, h⟩

theorem lineEnd_labelWord (label : Option String) : .lineEnd ∉ labelWord label := by
  cases label <;> simp [labelWord]

theorem lineEnd_simple (s : Stmt) : .lineEnd ∉ s.simpleTokens := by
  cases s with
  | assign lhs rhs => simpa [Stmt.simpleTokens] using lineEnd_expr rhs 0
  | exit label => simpa [Stmt.simpleTokens] using lineEnd_labelWord label
  | cycle label => simpa [Stmt.simpleTokens] using lineEnd_labelWord label
  | _ => simp [Stmt.simpleTokens]

/-- A row is on one line. -/
theorem lineEnd_row (r : Row) : .lineEnd ∉ r.tokens := by
  cases r with
  | simple s => exact lineEnd_simple s
  | guarded test s => simpa [Row.tokens] using lineEnd_parenthesized (lineEnd_simple s)
  | ifThen test | elseIf test => simpa [Row.tokens] using lineEnd_parenthesized (by simp)
  | select selector => simpa [Row.tokens] using lineEnd_parenthesized (by simp)
  | loop label range =>
    have hrange : .lineEnd ∉ rangeTokens range := by
      cases range with
      | none => simp [rangeTokens]
      | some r => simpa [rangeTokens] using ⟨lineEnd_expr r.first 0, lineEnd_expr r.last 0⟩
    cases label with
    | none => simpa [Row.tokens, labelTokens] using hrange
    | some label => simpa [Row.tokens, labelTokens] using hrange
  | endLoop label | endBlock label => simpa [Row.tokens] using lineEnd_labelWord label
  | block label => cases label <;> simp [Row.tokens, labelTokens]
  | decl d =>
    have hnames : .lineEnd ∉ separated .comma (d.names.map ([.word ·])) :=
      lineEnd_separated comma_ne_lineEnd (List.forall_mem_map.mpr fun name _ => by simp)
    simpa [Row.tokens] using hnames
  | _ => simp [Row.tokens]

/-- The tokens of rows, each behind a line end. -/
def linesOf (rows : List Row) : List Token :=
  rows.flatMap fun r => .lineEnd :: r.tokens

/-- The rows of tokens, behind those of a row that has begun. -/
def rowsFrom (begun : List Token) : List Token → Option (List Row)
  | [] => (readRow begun).map ([·])
  | .lineEnd :: rest => (readRow begun).bind fun r => (rowsFrom [] rest).map (r :: ·)
  | t :: rest => rowsFrom (begun ++ [t]) rest

theorem rowsFrom_append {ts : List Token} (h : .lineEnd ∉ ts) (begun rest : List Token) :
    rowsFrom begun (ts ++ rest) = rowsFrom (begun ++ ts) rest := by
  induction ts generalizing begun with
  | nil => rw [List.append_nil]; rfl
  | cons t ts ih =>
    have ht : t ≠ .lineEnd := fun he => h (he ▸ List.mem_cons_self)
    replace h : .lineEnd ∉ ts := fun hmem => h (List.mem_cons_of_mem t hmem)
    rw [List.cons_append, rowsFrom, ih h, List.append_assoc, List.singleton_append]
    exact ht

/-- The rows of lines are read back, behind a row that has begun. -/
theorem rowsFrom_lines {rows : List Row} (h : ∀ r ∈ rows, r.Legible) :
    ∀ {begun : List Token} {r : Row}, readRow begun = some r →
      rowsFrom begun (linesOf rows) = some (r :: rows) := by
  induction rows with
  | nil =>
    intro begun r hr
    show (readRow begun).map _ = _
    rw [hr]
    rfl
  | cons next rows ih =>
    intro begun r hr
    obtain ⟨hnext, hrows⟩ := List.forall_mem_cons.mp h
    have hrest := ih hrows (readRow_tokens hnext)
    have hlines : linesOf (next :: rows) = .lineEnd :: (next.tokens ++ linesOf rows) := by
      rw [linesOf, List.flatMap_cons, List.cons_append, linesOf]
    rw [hlines, rowsFrom, hr, rowsFrom_append (lineEnd_row next), List.nil_append, hrest]
    rfl

end PegCompiler.Target
