import Mathlib.Data.List.Forall2
import PegCompiler.Proofs.Text.Split
/-
  Code without its indentation. A text is taken as lines with their ends and a line behind
  the last end (`textOf`), which every text is in one way at least (`exists_textOf`). What
  `dedent` gives depends on the trimmed lines alone (`dedent_textOf`), so that

    1. line ends, blanks behind lines, blank lines at either end and an indentation that
       all lines share do not count (`dedent_reformats`);
    2. one number of spaces and tabs is taken from all lines (`dedent_relative`);
    3. the result is dedented already (`Flush.dedent_eq`).

  The lines that are kept lie between the first and the last that are not blank
  (`exists_kept`); of the common indentation only two things are used, that it is the
  indentation of one of them and that no other has less.
-/

namespace PegCompiler.Text

/-! ## Lines of a text -/

/-- A line, without its end. -/
structure Line where
  chars : List Char
  oneLine : '\n' ∉ chars

/-- A line without the blanks at its end. -/
def Line.trimmed (l : Line) : List Char :=
  trimEnd l.chars

/-- Lines with their ends, and a line behind the last end. -/
def textOf (ls : List (Line × LineEnd)) (last : Line) : List Char :=
  (ls.flatMap fun l => l.1.chars ++ l.2.chars) ++ last.chars

theorem textOf_cons (l : Line × LineEnd) (ls : List (Line × LineEnd)) (last : Line) :
    textOf (l :: ls) last = l.1.chars ++ (l.2.chars ++ textOf ls last) := by
  simp [textOf]

/-- Every text is made of lines, and with line ends of one kind it is made of the same. -/
theorem exists_textOf (code : List Char) : ∃ ls last, code = textOf ls last ∧
    joinLineEnds code = textOf (ls.map fun l => (l.1, .feed)) last := by
  fun_induction joinLineEnds code with
  | case1 => exact ⟨[], ⟨[], by simp⟩, rfl, rfl⟩
  | case2 rest ih =>
    obtain ⟨ls, last, hrest, hjoined⟩ := ih
    refine ⟨(⟨[], by simp⟩, .returnFeed) :: ls, last, ?_, ?_⟩
    · simp [textOf_cons, LineEnd.chars, ← hrest]
    · simp [textOf_cons, LineEnd.chars, hjoined]
  | case3 c rest _ ih =>
    obtain ⟨ls, last, rfl, hjoined⟩ := ih
    rw [hjoined]
    by_cases hc : c = '\n'
    · refine ⟨(⟨[], by simp⟩, .feed) :: ls, last, ?_, ?_⟩
      · simp [textOf_cons, LineEnd.chars, hc]
      · simp [textOf_cons, LineEnd.chars, hc]
    · -- the character belongs to the first line, which may be the last one
      cases ls with
      | nil => exact ⟨[], ⟨c :: last.chars, by simp [last.oneLine, Ne.symm hc]⟩, rfl, rfl⟩
      | cons l ls =>
        refine ⟨(⟨c :: l.1.chars, by simp [l.1.oneLine, Ne.symm hc]⟩, l.2) :: ls, last, ?_, ?_⟩
        · simp [textOf]
        · simp [textOf]

/-- The trimmed lines of a text, the last one too if there is nothing in it. -/
def trimmedLines (ls : List (Line × LineEnd)) (last : Line) : List (List Char) :=
  ls.map (fun l => l.1.trimmed) ++ [last.trimmed]

theorem lines_textOf (ls : List (Line × LineEnd)) (last : Line) :
    trimmedLines ls last = (lines (textOf ls last)).map trimEnd ∨
      trimmedLines ls last = (lines (textOf ls last)).map trimEnd ++ [[]] := by
  induction ls with
  | nil =>
    by_cases hnil : last.chars = []
    · exact .inr (by simp [trimmedLines, textOf, hnil, lines, Line.trimmed, trimEnd])
    · exact .inl (by simp [trimmedLines, textOf, Line.trimmed, lines_oneLine last.oneLine hnil])
  | cons l ls ih =>
    obtain ⟨first, hlines, hfirst⟩ := lines_append_end l.2 (textOf ls last) l.1.oneLine
    have hcons : trimmedLines (l :: ls) last = l.1.trimmed :: trimmedLines ls last := rfl
    rw [textOf_cons, hlines, List.map_cons, hfirst, hcons, List.cons_append]
    exact ih.imp (congrArg (l.1.trimmed :: ·)) (congrArg (l.1.trimmed :: ·))

/-! ## Lines that are kept -/

/-- The first and the last line are not empty. -/
structure Bordered (ls : List (List Char)) : Prop where
  first : ls.head? ≠ some []
  last : ls.getLast? ≠ some []

theorem dropWhile_of_head {ls : List (List Char)} (h : ls.head? ≠ some []) :
    ls.dropWhile List.isEmpty = ls := by
  cases ls with
  | nil => rfl
  | cons l ls =>
    have hl : l ≠ [] := fun he => h (by rw [he]; rfl)
    exact List.dropWhile_cons_of_neg (by simpa using hl)

/-- The empty lines at either end are left out. -/
theorem trimEmpty_eq {front kept back : List (List Char)} (hfront : ∀ l ∈ front, l = [])
    (hback : ∀ l ∈ back, l = []) (hkept : Bordered kept) :
    trimEmpty (front ++ kept ++ back) = kept := by
  have hempty {ls : List (List Char)} (h : ∀ l ∈ ls, l = []) : ∀ l ∈ ls, l.isEmpty = true :=
    fun l hl => by rw [h l hl]; rfl
  have hends : ∀ l ∈ back.reverse, l = [] := fun l hl => hback l (List.mem_reverse.mp hl)
  unfold trimEmpty
  rw [List.append_assoc, List.dropWhile_append_of_pos (hempty hfront)]
  cases kept with
  | nil =>
    rw [List.nil_append, List.dropWhile_eq_nil_iff.mpr (hempty hback)]
    rfl
  | cons l ls =>
    have hl : (l :: ls ++ back).head? ≠ some [] := hkept.first
    rw [dropWhile_of_head hl, List.reverse_append, List.dropWhile_append_of_pos (hempty hends),
      dropWhile_of_head (by rw [List.head?_reverse]; exact hkept.last), List.reverse_reverse]

/-- Of lines that are read off a list, those that are kept stand together. -/
theorem exists_kept {α : Type} (f : α → List Char) (xs : List α) : ∃ front kept back,
    xs = front ++ kept ++ back ∧ (∀ x ∈ front, f x = []) ∧ (∀ x ∈ back, f x = []) ∧
      Bordered (kept.map f) := by
  induction xs with
  | nil => exact ⟨[], [], [], rfl, by simp, by simp, by simp, by simp⟩
  | cons x xs ih =>
    obtain ⟨front, kept, back, rfl, hfront, hback, hkept⟩ := ih
    by_cases hx : f x = []
    · exact ⟨x :: front, kept, back, rfl, List.forall_mem_cons.mpr ⟨hx, hfront⟩, hback, hkept⟩
    · cases kept with
      | nil =>
        refine ⟨[], [x], front ++ back, by simp, by simp, ?_, by simpa using hx, by simpa using hx⟩
        exact List.forall_mem_append.mpr ⟨hfront, hback⟩
      | cons y kept =>
        refine ⟨[], x :: front ++ y :: kept, back, by simp, by simp, hback, by simpa using hx, ?_⟩
        have hlast := hkept.last
        rw [List.map_append, List.map_cons, List.getLast?_append_of_ne_nil _ (by simp)]
        exact hlast

theorem trimEmpty_map {α : Type} {f : α → List Char} {front kept back : List α}
    (hfront : ∀ x ∈ front, f x = []) (hback : ∀ x ∈ back, f x = [])
    (hkept : Bordered (kept.map f)) :
    trimEmpty ((front ++ kept ++ back).map f) = kept.map f := by
  rw [List.map_append, List.map_append]
  exact trimEmpty_eq (List.forall_mem_map.mpr hfront) (List.forall_mem_map.mpr hback) hkept

/-- Empty lines at either end do not count. -/
theorem trimEmpty_append {above ls below : List (List Char)} (habove : ∀ l ∈ above, l = [])
    (hbelow : ∀ l ∈ below, l = []) : trimEmpty (above ++ ls ++ below) = trimEmpty ls := by
  obtain ⟨front, kept, back, rfl, hfront, hback, hkept⟩ := exists_kept id ls
  rw [List.map_id] at hkept
  have hsplit : above ++ (front ++ kept ++ back) ++ below =
      (above ++ front) ++ kept ++ (back ++ below) := by simp
  rw [hsplit, trimEmpty_eq (List.forall_mem_append.mpr ⟨habove, hfront⟩)
    (List.forall_mem_append.mpr ⟨hback, hbelow⟩) hkept, trimEmpty_eq hfront hback hkept]

/-! ## The common indentation -/

/-- Lines without what they are indented by in common. -/
def level (ls : List (List Char)) : List (List Char) :=
  ls.map (List.drop (commonIndent ls))

theorem dedent_eq (code : List Char) :
    dedent code = level (trimEmpty ((lines code).map trimEnd)) := rfl

/-- A number is the least indentation of lines, those that are empty left out. -/
structure LeastIndent (ls : List (List Char)) (n : Nat) : Prop where
  attained : ∃ l ∈ ls, l ≠ [] ∧ indentOf l = n
  least : ∀ l ∈ ls, l ≠ [] → n ≤ indentOf l

theorem LeastIndent.commonIndent_eq {ls : List (List Char)} {n : Nat} (h : LeastIndent ls n) :
    commonIndent ls = n := by
  have hmin : (((ls.filter fun l => !l.isEmpty).map indentOf).min?) = some n := by
    rw [List.min?_eq_some_iff]
    constructor
    · obtain ⟨l, hl, hne, hn⟩ := h.attained
      exact List.mem_map.mpr ⟨l, List.mem_filter.mpr ⟨hl, by simpa using hne⟩, hn⟩
    · refine List.forall_mem_map.mpr fun l hl => ?_
      rw [List.mem_filter] at hl
      exact h.least l hl.1 (by simpa using hl.2)
  rw [commonIndent, hmin]
  rfl

theorem leastIndent_commonIndent {ls : List (List Char)} (h : ∃ l ∈ ls, l ≠ []) :
    LeastIndent ls (commonIndent ls) := by
  obtain ⟨l, hl, hne⟩ := h
  have hmem : indentOf l ∈ (ls.filter fun l => !l.isEmpty).map indentOf :=
    List.mem_map_of_mem (List.mem_filter.mpr ⟨hl, by simpa using hne⟩)
  obtain ⟨n, hmin⟩ := Option.isSome_iff_exists.mp (List.isSome_min?_of_mem hmem)
  obtain ⟨hattained, hleast⟩ := List.min?_eq_some_iff.mp hmin
  obtain ⟨first, hfirst, rfl⟩ := List.mem_map.mp hattained
  rw [List.mem_filter] at hfirst
  have hn : commonIndent ls = indentOf first := by
    rw [commonIndent, hmin]
    rfl
  rw [hn]
  refine ⟨⟨first, hfirst.1, by simpa using hfirst.2, rfl⟩, fun other hother hnot => ?_⟩
  exact hleast _ (List.mem_map_of_mem (List.mem_filter.mpr ⟨hother, by simpa using hnot⟩))

/-- What all lines have in common is an indentation of each. -/
theorem commonIndent_le {ls : List (List Char)} {l : List Char} (hl : l ∈ ls) (hne : l ≠ []) :
    commonIndent ls ≤ indentOf l :=
  (leastIndent_commonIndent ⟨l, hl, hne⟩).least l hl hne

theorem isBlank_of_isIndent {c : Char} (h : isIndent c = true) : isBlank c = true := by
  rw [isIndent, Bool.or_eq_true, beq_iff_eq, beq_iff_eq] at h
  rcases h with rfl | rfl <;> decide

theorem indentOf_append {p : List Char} (h : ∀ c ∈ p, isIndent c = true) (l : List Char) :
    indentOf (p ++ l) = p.length + indentOf l := by
  unfold indentOf
  rw [List.takeWhile_append_of_pos h, List.length_append]

/-- A line is indented by spaces and tabs. -/
theorem exists_indent {l : List Char} {n : Nat} (h : n ≤ indentOf l) :
    ∃ p, l = p ++ l.drop n ∧ p.length = n ∧ ∀ c ∈ p, isIndent c = true := by
  have hlength : n ≤ l.length := Nat.le_trans h (List.takeWhile_prefix isIndent).length_le
  refine ⟨l.take n, (List.take_append_drop n l).symm, List.length_take_of_le hlength, ?_⟩
  intro c hc
  rw [← List.takeWhile_append_dropWhile (p := isIndent) (l := l),
    List.take_append_of_le_length h] at hc
  exact List.mem_takeWhile_imp (List.mem_of_mem_take hc)

/-- Of a trimmed line some of the indentation is taken away. -/
theorem drop_indent {l : List Char} {n : Nat} (htrimmed : trimEnd l = l) (h : n ≤ indentOf l) :
    (l.drop n = [] ↔ l = []) ∧ trimEnd (l.drop n) = l.drop n ∧
      indentOf l = n + indentOf (l.drop n) := by
  obtain ⟨p, hl, hlength, hp⟩ := exists_indent h
  generalize l.drop n = rest at hl
  subst hl hlength
  have hblank : ∀ c ∈ p, isBlank c = true := fun c hc => isBlank_of_isIndent (hp c hc)
  have hindent : trimEnd p = [] := trimEnd_eq_nil.mpr (List.all_eq_true.mpr hblank)
  refine ⟨?_, ?_, indentOf_append hp rest⟩
  · constructor
    · rintro rfl
      rw [List.append_nil] at htrimmed ⊢
      exact htrimmed.symm.trans hindent
    · exact fun hnil => (List.append_eq_nil_iff.mp hnil).2
  · by_cases hrest : trimEnd rest = []
    · -- all of the line is blank, so there is nothing in it
      obtain ⟨blanks, hblanks, hall⟩ := exists_blanks rest
      rw [hrest, List.nil_append] at hblanks
      subst hblanks
      rw [trimEnd_append_blanks p hall, hindent] at htrimmed
      rw [hrest, (List.append_eq_nil_iff.mp htrimmed.symm).2]
    · rw [trimEnd_append p hrest] at htrimmed
      exact List.append_cancel_left htrimmed

section
variable {rows : List (List Char)}

/-- Of trimmed rows none is lost to the indentation that they have in common. -/
theorem drop_common (htrimmed : ∀ row ∈ rows, trimEnd row = row) {row : List Char}
    (hrow : row ∈ rows) : (row.drop (commonIndent rows) = [] ↔ row = []) ∧
      trimEnd (row.drop (commonIndent rows)) = row.drop (commonIndent rows) := by
  by_cases hne : row = []
  · rw [hne, List.drop_nil]
    exact ⟨Iff.rfl, rfl⟩
  · obtain ⟨hnil, hdropped, -⟩ := drop_indent (htrimmed row hrow) (commonIndent_le hrow hne)
    exact ⟨hnil, hdropped⟩

/-- Without it they have none in common. -/
theorem commonIndent_level (htrimmed : ∀ row ∈ rows, trimEnd row = row) :
    commonIndent (level rows) = 0 := by
  by_cases hsome : ∃ row ∈ rows, row ≠ []
  · -- a row that has no more than the common indentation has none left
    obtain ⟨first, hfirst, hne, hindent⟩ := (leastIndent_commonIndent hsome).attained
    obtain ⟨-, -, hrest⟩ := drop_indent (htrimmed first hfirst) (Nat.le_of_eq hindent.symm)
    have hleast : LeastIndent (level rows) 0 := by
      refine ⟨⟨_, List.mem_map_of_mem hfirst, mt (drop_common htrimmed hfirst).1.mp hne, ?_⟩,
        fun _ _ _ => Nat.zero_le _⟩
      omega
    exact hleast.commonIndent_eq
  · have hnone : (level rows).filter (fun row => !row.isEmpty) = [] := by
      rw [List.filter_eq_nil_iff]
      refine List.forall_mem_map.mpr fun row hrow => ?_
      have hnil : row = [] := by_contra fun hne => hsome ⟨row, hrow, hne⟩
      simp [hnil]
    rw [commonIndent, hnone]
    rfl

end

/-! ## What does not count -/

/-- A space or a tab. -/
inductive Margin where
  | space
  | tab

def Margin.char : Margin → Char
  | .space => ' '
  | .tab => '\t'

theorem isIndent_margin : ∀ m : Margin, isIndent m.char = true
  | .space | .tab => rfl

theorem isIndent_margins {ms : List Margin} : ∀ c ∈ ms.map Margin.char, isIndent c = true :=
  List.forall_mem_map.mpr fun m _ => isIndent_margin m

theorem margins_oneLine (ms : List Margin) : '\n' ∉ ms.map Margin.char :=
  fun h => absurd (isIndent_margins _ h) (by decide)

namespace Line

/-- A line with spaces and tabs behind it. -/
def behind (l : Line) (ms : List Margin) : Line :=
  ⟨l.chars ++ ms.map Margin.char, by simp [l.oneLine, margins_oneLine]⟩

/-- Whether there is nothing but blanks in a line. -/
def isBlank (l : Line) : Bool :=
  l.chars.all Text.isBlank

/-- A line with spaces and tabs in front of it, unless it is blank. -/
def indented (l : Line) (ms : List Margin) : Line :=
  if l.isBlank then l else ⟨ms.map Margin.char ++ l.chars, by simp [l.oneLine, margins_oneLine]⟩

theorem isBlank_iff {l : Line} : l.isBlank = true ↔ l.trimmed = [] :=
  trimEnd_eq_nil.symm

end Line

/-- Texts that differ in what does not count of the code of an author. -/
inductive Reformats : List Char → List Char → Prop
  /-- Each line has another end. -/
  | ends (ls : List (Line × LineEnd × LineEnd)) (last : Line) :
    Reformats (textOf (ls.map fun l => (l.1, l.2.1)) last)
      (textOf (ls.map fun l => (l.1, l.2.2)) last)
  /-- Each line has spaces and tabs behind it. -/
  | behind (ls : List (Line × LineEnd × List Margin)) (last : Line) (ms : List Margin) :
    Reformats (textOf (ls.map fun l => (l.1, l.2.1)) last)
      (textOf (ls.map fun l => (l.1.behind l.2.2, l.2.1)) (last.behind ms))
  /-- Blank lines stand above the text. -/
  | above (front ls : List (Line × LineEnd)) (last : Line)
    (blank : ∀ l ∈ front, l.1.isBlank = true) :
    Reformats (textOf ls last) (textOf (front ++ ls) last)
  /-- Blank lines stand below the text. -/
  | below (ls : List (Line × LineEnd)) (last : Line) (e : LineEnd) (back : List (Line × LineEnd))
    (end_ : Line) (blank : ∀ l ∈ back, l.1.isBlank = true) (blankEnd : end_.isBlank = true) :
    Reformats (textOf ls last) (textOf (ls ++ (last, e) :: back) end_)
  /-- Each line that is not blank has as many spaces and tabs in front of it. -/
  | indent (n : Nat) (ls : List (Line × LineEnd × { ms : List Margin // ms.length = n }))
    (last : Line) (ms : { ms : List Margin // ms.length = n }) :
    Reformats (textOf (ls.map fun l => (l.1, l.2.1)) last)
      (textOf (ls.map fun l => (l.1.indented l.2.2, l.2.1)) (last.indented ms))

theorem dedent_textOf (ls : List (Line × LineEnd)) (last : Line) :
    dedent (textOf ls last) = level (trimEmpty (trimmedLines ls last)) := by
  rw [dedent_eq]
  -- a last line with nothing in it is none of the lines, and is not kept
  rcases lines_textOf ls last with h | h <;> rw [h]
  have hlast : trimEmpty ([] ++ (lines (textOf ls last)).map trimEnd ++ [[]]) =
      trimEmpty ((lines (textOf ls last)).map trimEnd) := trimEmpty_append (by simp) (by simp)
  rw [List.nil_append] at hlast
  rw [hlast]

/-- A line of which another one has more indentation. -/
def Shifted (n : Nat) (l l' : List Char) : Prop :=
  l = [] ∧ l' = [] ∨ l ≠ [] ∧ ∃ p, l' = p ++ l ∧ p.length = n ∧ ∀ c ∈ p, isIndent c = true

theorem Shifted.eq_nil {n : Nat} {l l' : List Char} (h : Shifted n l l') : l' = [] ↔ l = [] := by
  rcases h with ⟨rfl, rfl⟩ | ⟨hne, p, rfl, -, -⟩
  · rfl
  · simp [hne]

theorem Line.shifted_indented {n : Nat} {ms : List Margin} (h : ms.length = n) (l : Line) :
    Shifted n l.trimmed (l.indented ms).trimmed := by
  rw [indented]
  split
  next hblank => exact .inl ⟨isBlank_iff.mp hblank, isBlank_iff.mp hblank⟩
  next hblank =>
    have hne : l.trimmed ≠ [] := mt isBlank_iff.mpr hblank
    exact .inr ⟨hne, ms.map Margin.char, trimEnd_append _ hne, by simp [h], isIndent_margins⟩

theorem Bordered.congr {α : Type} {f f' : α → List Char} {xs : List α}
    (h : Bordered (xs.map f)) (hnil : ∀ x ∈ xs, f' x = [] ↔ f x = []) : Bordered (xs.map f') := by
  constructor
  · intro hhead
    rw [List.head?_map] at hhead
    obtain ⟨x, hx, hfx⟩ := Option.map_eq_some_iff.mp hhead
    refine h.first ?_
    rw [List.head?_map, hx, Option.map_some, (hnil x (List.mem_of_head? hx)).mp hfx]
  · intro hlast
    rw [List.getLast?_map] at hlast
    obtain ⟨x, hx, hfx⟩ := Option.map_eq_some_iff.mp hlast
    refine h.last ?_
    rw [List.getLast?_map, hx, Option.map_some, (hnil x (List.mem_of_getLast? hx)).mp hfx]

section
variable {α : Type} {n : Nat} {f f' : α → List Char} {xs : List α}

theorem LeastIndent.shifted {m : Nat} (hleast : LeastIndent (xs.map f) m)
    (h : ∀ x ∈ xs, Shifted n (f x) (f' x)) : LeastIndent (xs.map f') (n + m) := by
  constructor
  · obtain ⟨first, hfirst, hne, hindent⟩ := hleast.attained
    obtain ⟨x, hx, rfl⟩ := List.mem_map.mp hfirst
    obtain ⟨hnil, -⟩ | ⟨-, p, hp, hlength, hall⟩ := h x hx
    · exact absurd hnil hne
    · refine ⟨f' x, List.mem_map_of_mem hx, mt (h x hx).eq_nil.mp hne, ?_⟩
      rw [hp, indentOf_append hall, hlength, hindent]
  · refine List.forall_mem_map.mpr fun x hx hnot => ?_
    obtain ⟨-, hnil⟩ | ⟨hne, p, hp, hlength, hall⟩ := h x hx
    · exact absurd hnil hnot
    · rw [hp, indentOf_append hall, hlength]
      exact Nat.add_le_add_left (hleast.least _ (List.mem_map_of_mem hx) hne) n

/-- What all lines have in front of them is common indentation. -/
theorem level_shifted (h : ∀ x ∈ xs, Shifted n (f x) (f' x)) :
    level (xs.map f') = level (xs.map f) := by
  by_cases hsome : ∃ l ∈ xs.map f, l ≠ []
  · have hleast := (leastIndent_commonIndent hsome).shifted h
    unfold level
    rw [hleast.commonIndent_eq, List.map_map, List.map_map]
    refine List.map_congr_left fun x hx => ?_
    obtain ⟨hl, hl'⟩ | ⟨-, p, hp, rfl, -⟩ := h x hx
    · simp [hl, hl']
    · simp [hp]
  · -- there are only empty lines in both lists
    have hnil : ∀ l ∈ xs.map f, l = [] := fun l hl => by_contra fun hne => hsome ⟨l, hl, hne⟩
    have hsame : xs.map f' = xs.map f := List.map_congr_left fun x hx => by
      rw [hnil _ (List.mem_map_of_mem hx), (h x hx).eq_nil.mpr (hnil _ (List.mem_map_of_mem hx))]
    rw [hsame]

end

/-- Code gives the same lines however it is formatted. -/
theorem dedent_reformats {code code' : List Char} (h : Reformats code code') :
    dedent code' = dedent code := by
  cases h with
  | ends ls last => simp [dedent_textOf, trimmedLines, Function.comp_def]
  | behind ls last ms =>
    have hbehind (l : Line) (ms : List Margin) : (l.behind ms).trimmed = l.trimmed :=
      trimEnd_append_blanks _ fun c hc => isBlank_of_isIndent (isIndent_margins c hc)
    simp [dedent_textOf, trimmedLines, Function.comp_def, hbehind]
  | above front ls last blank =>
    have hfront : ∀ l ∈ front.map (fun l => l.1.trimmed), l = [] :=
      List.forall_mem_map.mpr fun l hl => Line.isBlank_iff.mp (blank l hl)
    have hsplit : trimmedLines (front ++ ls) last =
        front.map (fun l => l.1.trimmed) ++ trimmedLines ls last ++ [] := by
      simp [trimmedLines]
    rw [dedent_textOf, dedent_textOf, hsplit, trimEmpty_append hfront (by simp)]
  | below ls last e back end_ blank blankEnd =>
    have hback : ∀ l ∈ back.map (fun l => l.1.trimmed) ++ [end_.trimmed], l = [] := by
      refine List.forall_mem_append.mpr ⟨?_, ?_⟩
      · exact List.forall_mem_map.mpr fun l hl => Line.isBlank_iff.mp (blank l hl)
      · simpa using Line.isBlank_iff.mp blankEnd
    have hsplit : trimmedLines (ls ++ (last, e) :: back) end_ = [] ++ trimmedLines ls last ++
        (back.map (fun l => l.1.trimmed) ++ [end_.trimmed]) := by
      simp [trimmedLines]
    rw [dedent_textOf, dedent_textOf, hsplit, trimEmpty_append (by simp) hback]
  | indent n ls last ms =>
    -- a line and what is put in front of it: where the line is blank, nothing
    let xs : List (Line × { ms : List Margin // ms.length = n }) :=
      ls.map (fun l => (l.1, l.2.2)) ++ [(last, ms)]
    let plain (x : Line × { ms : List Margin // ms.length = n }) : List Char := x.1.trimmed
    let shifted (x : Line × { ms : List Margin // ms.length = n }) : List Char :=
      (x.1.indented x.2).trimmed
    have hshifted (x : Line × { ms : List Margin // ms.length = n }) :
        Shifted n (plain x) (shifted x) := x.1.shifted_indented x.2.2
    have hnil (x : Line × { ms : List Margin // ms.length = n }) := (hshifted x).eq_nil
    have hplain : trimmedLines (ls.map fun l => (l.1, l.2.1)) last = xs.map plain := by
      simp [trimmedLines, xs, plain, Function.comp_def]
    have hmoved : trimmedLines (ls.map fun l => (l.1.indented l.2.2, l.2.1)) (last.indented ms) =
        xs.map shifted := by
      simp [trimmedLines, xs, shifted, Function.comp_def]
    obtain ⟨front, kept, back, hxs, hfront, hback, hkept⟩ := exists_kept plain xs
    rw [dedent_textOf, dedent_textOf, hplain, hmoved, hxs, trimEmpty_map hfront hback hkept,
      trimEmpty_map (fun x hx => (hnil x).mpr (hfront x hx)) (fun x hx => (hnil x).mpr (hback x hx))
        (hkept.congr fun x _ => hnil x)]
    exact level_shifted fun x _ => hshifted x

/-- Line ends of one kind are a matter of format, too. -/
theorem reformats_joinLineEnds (code : List Char) : Reformats code (joinLineEnds code) := by
  obtain ⟨ls, last, hcode, hjoined⟩ := exists_textOf code
  have h := Reformats.ends (ls.map fun l => (l.1, l.2, .feed)) last
  rw [List.map_map, List.map_map] at h
  rw [hjoined, hcode]
  simpa [Function.comp_def] using h

/-! ## What is kept -/

/-- A line of code and the row that it gives: some number of spaces and tabs in front, which
are as many bytes, and the blanks at its end are left out. -/
def Gives (n : Nat) (l : Line) (row : List Char) : Prop :=
  l.isBlank = true ∧ row = [] ∨
    ∃ p q, l.chars = p ++ row ++ q ∧ p.length = n ∧ (p.flatMap String.utf8EncodeChar).length = n ∧
      (∀ c ∈ p, isIndent c = true) ∧ (∀ c ∈ q, isBlank c = true) ∧ row ≠ []

/-- Spaces and tabs are one byte each. -/
theorem length_encoded {p : List Char} (h : ∀ c ∈ p, isIndent c = true) :
    (p.flatMap String.utf8EncodeChar).length = p.length := by
  induction p with
  | nil => rfl
  | cons c p ih =>
    obtain ⟨hc, hp⟩ := List.forall_mem_cons.mp h
    have hbyte : (String.utf8EncodeChar c).length = 1 := by
      rw [isIndent, Bool.or_eq_true, beq_iff_eq, beq_iff_eq] at hc
      rcases hc with rfl | rfl <;> rfl
    rw [List.flatMap_cons, List.length_append, hbyte, ih hp, List.length_cons, Nat.add_comm]

/-- Rows that stand as they are: trimmed, not indented in common, and none of them empty at
either end. -/
structure Flush (rows : List (List Char)) : Prop where
  oneLine : ∀ row ∈ rows, '\n' ∉ row
  trimmed : ∀ row ∈ rows, trimEnd row = row
  bordered : Bordered rows
  flush : commonIndent rows = 0

/-- The lines of a text from the first to the last that are not blank. -/
theorem exists_keptLines (ls : List (Line × LineEnd)) (last : Line) : ∃ front kept back : List Line,
    ls.map (fun l => l.1) ++ [last] = front ++ kept ++ back ∧
      (∀ l ∈ front, l.isBlank = true) ∧ (∀ l ∈ back, l.isBlank = true) ∧
      Bordered (kept.map Line.trimmed) ∧
      dedent (textOf ls last) = level (kept.map Line.trimmed) := by
  obtain ⟨front, kept, back, hsplit, hfront, hback, hkept⟩ :=
    exists_kept Line.trimmed (ls.map (fun l => l.1) ++ [last])
  refine ⟨front, kept, back, hsplit, fun l hl => Line.isBlank_iff.mpr (hfront l hl),
    fun l hl => Line.isBlank_iff.mpr (hback l hl), hkept, ?_⟩
  have hlines : trimmedLines ls last = (ls.map (fun l => l.1) ++ [last]).map Line.trimmed := by
    simp [trimmedLines, Function.comp_def]
  rw [dedent_textOf, hlines, hsplit, trimEmpty_map hfront hback hkept]

theorem trimmed_kept (kept : List Line) : ∀ row ∈ kept.map Line.trimmed, trimEnd row = row :=
  List.forall_mem_map.mpr fun l _ => trimEnd_trimEnd l.chars

/-- Nothing is left of code if it is blank. -/
theorem dedent_eq_nil {code : List Char} : dedent code = [] ↔ code.all isBlank = true := by
  obtain ⟨ls, last, rfl, -⟩ := exists_textOf code
  obtain ⟨front, kept, back, hsplit, hfront, hback, hkept, hdedent⟩ := exists_keptLines ls last
  have hends (e : LineEnd) : e.chars.all isBlank = true := by cases e <;> rfl
  have hall : (textOf ls last).all isBlank = true ↔
      ∀ l ∈ ls.map (fun l => l.1) ++ [last], l.isBlank = true := by
    rw [textOf, List.all_append, List.all_flatMap, Bool.and_eq_true, List.forall_mem_append,
      List.forall_mem_map, List.all_eq_true]
    simp [hends, Line.isBlank]
  rw [hall, hsplit, hdedent]
  -- the first line that is kept is not blank
  cases kept with
  | nil => exact iff_of_true rfl (List.forall_mem_append.mpr ⟨by simpa using hfront, hback⟩)
  | cons l kept =>
    have hl : l.isBlank ≠ true := fun h => hkept.first (by simp [Line.isBlank_iff.mp h])
    exact iff_of_false (by simp [level]) fun h => hl (h l (by simp))

/-- One number of spaces and tabs is taken away from all lines that are not blank, between
the first of them and the last. -/
theorem dedent_relative (ls : List (Line × LineEnd)) (last : Line) :
    ∃ n, ∃ front kept back : List Line, ls.map (fun l => l.1) ++ [last] = front ++ kept ++ back ∧
      (∀ l ∈ front, l.isBlank = true) ∧ (∀ l ∈ back, l.isBlank = true) ∧
      List.Forall₂ (Gives n) kept (dedent (textOf ls last)) := by
  obtain ⟨front, kept, back, hsplit, hfront, hback, -, hdedent⟩ := exists_keptLines ls last
  refine ⟨commonIndent (kept.map Line.trimmed), front, kept, back, hsplit, hfront, hback, ?_⟩
  rw [hdedent, level, List.map_map, List.forall₂_map_right_iff, List.forall₂_same]
  intro l hl
  by_cases hblank : l.isBlank = true
  · exact .inl ⟨hblank, by simp [Line.isBlank_iff.mp hblank]⟩
  · have hne : l.trimmed ≠ [] := mt Line.isBlank_iff.mpr hblank
    have hmem : l.trimmed ∈ kept.map Line.trimmed := List.mem_map_of_mem hl
    obtain ⟨p, hl, hlength, hp⟩ := exists_indent (commonIndent_le hmem hne)
    obtain ⟨q, hq, hblanks⟩ := exists_blanks l.chars
    have hrow := (drop_common (trimmed_kept kept) hmem).1
    exact .inr ⟨p, q, by rw [Function.comp_apply, ← hl, Line.trimmed, ← hq], hlength,
      (length_encoded hp).trans hlength, hp, hblanks, mt hrow.mp hne⟩

/-- Code without its indentation stands as it is. -/
theorem flush_dedent (code : List Char) : Flush (dedent code) := by
  obtain ⟨ls, last, rfl, -⟩ := exists_textOf code
  obtain ⟨-, kept, -, -, -, -, hkept, hdedent⟩ := exists_keptLines ls last
  have htrimmed := trimmed_kept kept
  rw [hdedent]
  constructor
  · -- what is left of a line are characters of it
    refine List.forall_mem_map.mpr (List.forall_mem_map.mpr fun l _ hmem => l.oneLine ?_)
    exact trimEnd_subset _ (List.drop_subset _ _ hmem)
  · exact List.forall_mem_map.mpr fun row hrow => (drop_common htrimmed hrow).2
  · rw [level, List.map_map]
    exact hkept.congr fun l hl => (drop_common htrimmed (List.mem_map_of_mem hl)).1
  · exact commonIndent_level htrimmed

theorem intercalate_concat (sep last : List Char) : ∀ rows : List (List Char),
    List.intercalate sep (rows ++ [last]) = (rows.flatMap fun row => row ++ sep) ++ last
  | [] => by simp [List.intercalate]
  | row :: rows => by
    have ih := intercalate_concat sep last rows
    cases rows with
    | nil => simp [List.intercalate]
    | cons next rows =>
      rw [List.cons_append, List.cons_append, List.intercalate_cons_cons, List.flatMap_cons,
        ← List.cons_append, ih]
      simp only [List.append_assoc]

/-- Rows without line feeds are lines. -/
theorem exists_map_chars : ∀ {rows : List (List Char)}, (∀ row ∈ rows, '\n' ∉ row) →
    ∃ ls : List Line, ls.map Line.chars = rows
  | [], _ => ⟨[], rfl⟩
  | row :: rows, h => by
    obtain ⟨hrow, hrows⟩ := List.forall_mem_cons.mp h
    obtain ⟨ls, rfl⟩ := exists_map_chars hrows
    exact ⟨⟨row, hrow⟩ :: ls, rfl⟩

/-- Rows that stand as they are, put together, are what is made of them. -/
theorem Flush.dedent_eq {rows : List (List Char)} (h : Flush rows) :
    dedent (List.intercalate ['\n'] rows) = rows := by
  have hlevel : level rows = rows := by
    rw [level, h.flush]
    exact List.map_id'' (fun _ => rfl) rows
  have hkept : trimEmpty ([] ++ rows ++ []) = rows := trimEmpty_eq (by simp) (by simp) h.bordered
  rw [List.nil_append, List.append_nil] at hkept
  obtain ⟨ls, hls⟩ := exists_map_chars h.oneLine
  rcases List.eq_nil_or_concat ls with rfl | ⟨front, last, rfl⟩
  · subst hls
    rfl
  · have htext : List.intercalate ['\n'] rows = textOf (front.map fun l => (l, .feed)) last := by
      rw [← hls, List.concat_eq_append, List.map_append, List.map_singleton, intercalate_concat]
      simp [textOf, LineEnd.chars, List.flatMap_map]
    have hlines : trimmedLines (front.map fun l => (l, .feed)) last = rows := by
      have htrimmed : rows.map trimEnd = rows := by
        simpa using List.map_congr_left (g := id) h.trimmed
      rw [← htrimmed, ← hls]
      simp [trimmedLines, Line.trimmed, Function.comp_def]
    rw [htext, dedent_textOf, hlines, hkept, hlevel]

/-- What code keeps of itself without its indentation. -/
structure Dedents (code : List Char) (rows : List (List Char)) : Prop where
  /-- Its format does not count. -/
  format : ∀ code', Reformats code code' → dedent code' = rows
  /-- Nor do its line ends, which are made alike when a file is read. -/
  lineEnds : dedent (joinLineEnds code) = rows
  flush : Flush rows
  /-- The rows are code that has no indentation. -/
  again : dedent (List.intercalate ['\n'] rows) = rows
  /-- All lines between the first and the last that are not blank are kept, and one number of
  spaces and tabs is taken from each of them. -/
  relative : ∀ ls last, code = textOf ls last → ∃ n, ∃ front kept back : List Line,
    ls.map (fun l => l.1) ++ [last] = front ++ kept ++ back ∧
      (∀ l ∈ front, l.isBlank = true) ∧ (∀ l ∈ back, l.isBlank = true) ∧
      List.Forall₂ (Gives n) kept rows

theorem dedents_dedent (code : List Char) : Dedents code (dedent code) where
  format _ h := dedent_reformats h
  lineEnds := dedent_reformats (reformats_joinLineEnds code)
  flush := flush_dedent code
  again := (flush_dedent code).dedent_eq
  relative := by
    rintro ls last rfl
    exact dedent_relative ls last

end PegCompiler.Text
