import PegCompiler.Proofs.Text.Lines
/-
  Where texts are split into lines. What stands behind a line feed has lines of its own
  (`lines_break`), so rows that are written each behind a line feed are the lines there
  (`lines_stacked`), and a tidied text has the trimmed lines of the text (`lines_tidy`). The
  carriage return in front of a line feed is the one character that the split may or may not
  count to a line; trimmed it is gone in either case.
-/

namespace PegCompiler.Text

/-! ## Trimmed lines -/

section
variable {cs ds : List Char}

theorem trimEnd_eq_nil : trimEnd cs = [] ↔ cs.all isBlank = true := by
  change cs.rdropWhile isBlank = [] ↔ _
  rw [List.rdropWhile_eq_nil_iff, List.all_eq_true]

/-- What is trimmed are blanks at the end. -/
theorem exists_blanks (cs : List Char) : ∃ blanks, cs = trimEnd cs ++ blanks ∧
    ∀ c ∈ blanks, isBlank c = true := by
  refine ⟨cs.rtakeWhile isBlank, ?_, fun c hc => List.mem_rtakeWhile_imp hc⟩
  change cs = cs.rdropWhile isBlank ++ cs.rtakeWhile isBlank
  rw [List.rdropWhile, List.rtakeWhile, ← List.reverse_append, List.takeWhile_append_dropWhile,
    List.reverse_reverse]

/-- Blanks at the end do not count. -/
theorem trimEnd_append_blanks (cs : List Char) (h : ∀ c ∈ ds, isBlank c = true) :
    trimEnd (cs ++ ds) = trimEnd cs := by
  unfold trimEnd
  rw [List.reverse_append, List.dropWhile_append_of_pos fun c hc => h c (List.mem_reverse.mp hc)]

/-- What stands in front of something that is not blank is kept. -/
theorem trimEnd_append (cs : List Char) (h : trimEnd ds ≠ []) :
    trimEnd (cs ++ ds) = cs ++ trimEnd ds := by
  have hne : ds.reverse.dropWhile isBlank ≠ [] := fun hnil => h (by simp [trimEnd, hnil])
  unfold trimEnd
  rw [List.reverse_append, List.dropWhile_append, if_neg (by simpa using hne), List.reverse_append,
    List.reverse_reverse]

/-- A text is trimmed when it does not end in a blank. -/
theorem trimEnd_eq_self : trimEnd cs = cs ↔ ∀ h : cs ≠ [], ¬ isBlank (cs.getLast h) = true :=
  List.rdropWhile_eq_self_iff

theorem trimEnd_trimEnd (cs : List Char) : trimEnd (trimEnd cs) = trimEnd cs :=
  List.rdropWhile_idempotent isBlank cs

end

/-! ## Lines -/

/-- The end of a line. -/
inductive LineEnd where
  | feed
  /-- A carriage return in front of the line feed. -/
  | returnFeed

def LineEnd.chars : LineEnd → List Char
  | .feed => ['\n']
  | .returnFeed => ['\r', '\n']

theorem lines_cons (c : Char) (cs : List Char) :
    lines (c :: cs) = ((cs.foldr LineSplit.cons ⟨false, []⟩).cons c).lines := rfl

theorem atFeed_foldr (cs : List Char) :
    (cs.foldr LineSplit.cons ⟨false, []⟩).atFeed = (cs.head? == some '\n') := by
  cases cs with
  | nil => rfl
  | cons c cs =>
    rw [List.foldr_cons, LineSplit.cons]
    by_cases hc : c = '\n'
    · simp [hc]
    · rw [if_neg (by simpa using hc)]
      split
      · simp [hc]
      · split <;> simp [hc]

theorem lines_feed (cs : List Char) : lines ('\n' :: cs) = [] :: lines cs := rfl

/-- A character that is not a line feed goes in front of the first line, unless it is the
carriage return of its end. -/
theorem lines_cons_of_ne {c : Char} {cs first : List Char} {rest : List (List Char)}
    (hc : c ≠ '\n') (h : lines cs = first :: rest) : lines (c :: cs) =
      if c = '\r' ∧ cs.head? = some '\n' then first :: rest else (c :: first) :: rest := by
  unfold lines at h
  rw [lines_cons, LineSplit.cons, if_neg (by simpa using hc), atFeed_foldr]
  by_cases hreturn : c = '\r' ∧ cs.head? = some '\n'
  · rw [if_pos hreturn, if_pos (by simpa using hreturn)]
    exact h
  · rw [if_neg hreturn, if_neg (by simpa using hreturn), h]

/-- The lines of a text behind the end of a line; a carriage return at the end of the line
may be taken for part of a line end, as one more blank. -/
theorem lines_append_end (e : LineEnd) (rest : List Char) : ∀ {cs : List Char}, '\n' ∉ cs →
    ∃ first, lines (cs ++ (e.chars ++ rest)) = first :: lines rest ∧ trimEnd first = trimEnd cs
  | [], _ => by
    cases e with
    | feed => exact ⟨[], rfl, rfl⟩
    | returnFeed => exact ⟨[], rfl, rfl⟩
  | c :: cs, h => by
    rw [List.mem_cons, not_or] at h
    obtain ⟨first, hlines, hfirst⟩ := lines_append_end e rest h.2
    rw [List.cons_append, lines_cons_of_ne (Ne.symm h.1) hlines]
    split
    next hreturn =>
      refine ⟨first, rfl, hfirst.trans ?_⟩
      -- only the line end itself starts with a line feed
      have hnil : cs = [] := by
        cases cs with
        | nil => rfl
        | cons d ds =>
          have hd : d = '\n' := by simpa using hreturn.2
          exact absurd (hd ▸ List.mem_cons_self) h.2
      have hblank : ∀ d ∈ ['\r'], isBlank d = true := List.forall_mem_singleton.mpr rfl
      rw [hnil, hreturn.1]
      exact (trimEnd_append_blanks [] hblank).symm
    next =>
      refine ⟨c :: first, rfl, ?_⟩
      by_cases hnil : trimEnd cs = []
      · obtain ⟨blanks, hcs, hblanks⟩ := exists_blanks cs
        obtain ⟨others, hothers, hothersBlank⟩ := exists_blanks first
        rw [hnil, List.nil_append] at hcs
        rw [hfirst, hnil, List.nil_append] at hothers
        rw [hcs, hothers]
        exact (trimEnd_append_blanks [c] hothersBlank).trans (trimEnd_append_blanks [c] hblanks).symm
      · have hcons (ds : List Char) (hds : trimEnd ds ≠ []) :
            trimEnd (c :: ds) = c :: trimEnd ds := trimEnd_append [c] hds
        rw [hcons cs hnil, hcons first (hfirst ▸ hnil), hfirst]

/-- A line behind the last line end is one if there is anything in it. -/
theorem lines_oneLine : ∀ {cs : List Char}, '\n' ∉ cs → cs ≠ [] → lines cs = [cs]
  | [], _, h => absurd rfl h
  | [c], hfeed, _ => by
    have hc : c ≠ '\n' := fun h => hfeed (by simp [h])
    simp [lines, LineSplit.cons, hc]
  | c :: d :: cs, hfeed, _ => by
    have hc : c ≠ '\n' := fun h => hfeed (by simp [h])
    have hd : d ≠ '\n' := fun h => hfeed (by simp [h])
    have ih := lines_oneLine (fun h => hfeed (List.mem_cons_of_mem c h)) (List.cons_ne_nil d cs)
    rw [lines_cons_of_ne hc ih, if_neg (by simp [hd])]

/-- There are lines in a text if there is anything in it. -/
theorem lines_ne_nil : ∀ {cs : List Char}, cs ≠ [] → lines cs ≠ []
  | [], h => absurd rfl h
  | c :: cs, _ => by
    by_cases hc : c = '\n'
    · rw [hc, lines_feed]
      exact List.cons_ne_nil _ _
    · cases cs with
      | nil => simp [lines, LineSplit.cons, hc]
      | cons d cs =>
        obtain ⟨first, rest, hlines⟩ :=
          List.exists_cons_of_ne_nil (lines_ne_nil (List.cons_ne_nil d cs))
        rw [lines_cons_of_ne hc hlines]
        split <;> exact List.cons_ne_nil _ _

/-- No line has a line feed in it. -/
theorem feed_not_mem_lines : ∀ (cs : List Char), ∀ line ∈ lines cs, '\n' ∉ line
  | [] => fun _ h => nomatch h
  | c :: cs => by
    have ih := feed_not_mem_lines cs
    by_cases hc : c = '\n'
    · rw [hc, lines_feed]
      exact List.forall_mem_cons.mpr ⟨List.not_mem_nil, ih⟩
    · cases cs with
      | nil => simp [lines, LineSplit.cons, hc, Ne.symm hc]
      | cons d cs =>
        obtain ⟨first, rest, hlines⟩ :=
          List.exists_cons_of_ne_nil (lines_ne_nil (List.cons_ne_nil d cs))
        rw [hlines] at ih
        obtain ⟨hfirst, hrest⟩ := List.forall_mem_cons.mp ih
        rw [lines_cons_of_ne hc hlines]
        split
        · exact ih
        · exact List.forall_mem_cons.mpr ⟨by simp [hfirst, Ne.symm hc], hrest⟩

/-- What stands behind a line feed has lines of its own. -/
theorem lines_break (ys : List Char) : ∀ xs : List Char,
    lines (xs ++ '\n' :: ys) = lines (xs ++ ['\n']) ++ lines ys
  | [] => rfl
  | c :: xs => by
    have ih := lines_break ys xs
    by_cases hc : c = '\n'
    · rw [hc, List.cons_append, List.cons_append, lines_feed, lines_feed, ih]
      rfl
    · obtain ⟨first, rest, hlines⟩ :=
        List.exists_cons_of_ne_nil (lines_ne_nil (List.concat_ne_nil '\n' xs))
      rw [hlines] at ih
      have hhead : (xs ++ '\n' :: ys).head? = (xs ++ ['\n']).head? := by cases xs <;> rfl
      rw [List.cons_append, List.cons_append, lines_cons_of_ne hc ih, lines_cons_of_ne hc hlines,
        hhead]
      split <;> rfl

/-! ## Rows -/

/-- The trimmed lines of a row that is ended by a line feed: the row itself, if it has no
other one. -/
def rowLines (row : List Char) : List (List Char) :=
  (lines (row ++ ['\n'])).map trimEnd

theorem rowLines_of_oneLine {row : List Char} (h : '\n' ∉ row) : rowLines row = [trimEnd row] := by
  obtain ⟨first, hlines, hfirst⟩ := lines_append_end .feed [] h
  have hrow : lines (row ++ ['\n']) = [first] := hlines
  rw [rowLines, hrow, List.map_singleton, hfirst]

/-- A row of one line that does not end in a blank is a line as it stands. -/
theorem rowLines_append {front back : List Char} (hfeed : '\n' ∉ front ++ back)
    (hback : trimEnd back = back) (hne : back ≠ []) : rowLines (front ++ back) = [front ++ back] := by
  rw [rowLines_of_oneLine hfeed, trimEnd_append front (by rwa [hback]), hback]

/-- Rows, each behind a line feed. -/
def stacked (rows : List (List Char)) : List Char :=
  rows.flatMap fun row => '\n' :: row

theorem stacked_nil : stacked [] = [] := rfl

theorem stacked_cons (row : List Char) (rows : List (List Char)) :
    stacked (row :: rows) = '\n' :: (row ++ stacked rows) := rfl

theorem stacked_append (rows more : List (List Char)) :
    stacked (rows ++ more) = stacked rows ++ stacked more :=
  List.flatMap_append

/-- The lines of rows behind a text. -/
theorem lines_stacked : ∀ (rows : List (List Char)) (xs : List Char),
    (lines (xs ++ (stacked rows ++ ['\n']))).map trimEnd = rowLines xs ++ rows.flatMap rowLines
  | [], xs => (List.append_nil _).symm
  | row :: rows, xs => by
    rw [stacked_cons, List.cons_append, List.append_assoc, lines_break, List.map_append,
      lines_stacked rows row]
    rfl

/-- A trimmed row that is ended by a line feed is a line. -/
theorem lines_trimmed (ys : List Char) : ∀ {row : List Char}, '\n' ∉ row →
    row.getLast? ≠ some '\r' → lines (row ++ '\n' :: ys) = row :: lines ys
  | [], _, _ => rfl
  | [c], hfeed, hreturn => by
    have hc : c ≠ '\n' := fun h => hfeed (by simp [h])
    have hr : c ≠ '\r' := fun h => hreturn (by simp [h])
    show lines (c :: '\n' :: ys) = _
    rw [lines_cons_of_ne hc (lines_feed ys), if_neg (by simp [hr])]
  | c :: d :: row, hfeed, hreturn => by
    have hc : c ≠ '\n' := fun h => hfeed (by simp [h])
    have hd : d ≠ '\n' := fun h => hfeed (by simp [h])
    have ih := lines_trimmed ys (fun h => hfeed (List.mem_cons_of_mem c h)) hreturn
    rw [List.cons_append, lines_cons_of_ne hc ih, if_neg (by simp [hd])]

/-- Trimmed rows, each in front of a line feed, are the lines there. -/
theorem lines_rows {rows : List (List Char)} (hfeed : ∀ row ∈ rows, '\n' ∉ row) :
    lines (rows.flatMap fun row => trimEnd row ++ ['\n']) = rows.map trimEnd := by
  induction rows with
  | nil => rfl
  | cons row rows ih =>
    obtain ⟨hrow, hrows⟩ := List.forall_mem_cons.mp hfeed
    have hreturn : (trimEnd row).getLast? ≠ some '\r' := by
      intro hlast
      have hne : trimEnd row ≠ [] := fun hnil => by simp [hnil] at hlast
      have hkept := trimEnd_eq_self.mp (trimEnd_trimEnd row) hne
      rw [List.getLast?_eq_some_getLast hne, Option.some.injEq] at hlast
      rw [hlast] at hkept
      exact hkept (by decide)
    have htrimmed : '\n' ∉ trimEnd row := fun h => hrow (trimEnd_subset row h)
    rw [List.flatMap_cons, List.append_assoc, List.singleton_append,
      lines_trimmed _ htrimmed hreturn, ih hrows, List.map_cons]

/-- A tidied text has the trimmed lines of the text. -/
theorem lines_tidy (s : String) : lines (tidy s).toList = (lines s.toList).map trimEnd := by
  have htext (ls : List (List Char)) : ∀ out : String,
      (ls.foldl (fun out line => out ++ String.ofList (trimEnd line) ++ "\n") out).toList =
        out.toList ++ ls.flatMap fun line => trimEnd line ++ ['\n'] := by
    induction ls with
    | nil => exact fun out => (List.append_nil _).symm
    | cons l ls ih =>
      intro out
      rw [List.foldl_cons, ih, List.flatMap_cons]
      simp
  have hempty : "".toList = [] := rfl
  rw [tidy, htext, hempty, List.nil_append]
  exact lines_rows (feed_not_mem_lines s.toList)

end PegCompiler.Text
