import PegCompiler.Proofs.Layout.Layouts
/-
  The characters that documents are written with. `Doc.Written` says of a document that all
  its texts are written with characters of a kind; it is closed under all that documents are
  made of. The plain text of a layout has no other characters but line ends and the spaces
  that indent (`mem_plain`).

  Words and signs that documents put around their texts are printable ASCII, so one
  condition on the kind (`Common`) does for all of them.
-/

namespace PegCompiler.Layout

/-- All characters of a text are of a kind. -/
def Uses (P : Char → Prop) (s : String) : Prop :=
  ∀ c ∈ s.toList, P c

/-- Printable ASCII is of the kind. -/
def Common (P : Char → Prop) : Prop :=
  ∀ c : Char, 0x20 ≤ c.toNat ∧ c.toNat ≤ 0x7E → P c

/-- The texts of a document are written with characters of a kind. -/
inductive Doc.Written (P : Char → Prop) : Doc → Prop
  | nil : Written P .nil
  | text {s : String} (h : Uses P s) : Written P (.text s)
  | line : Written P .line
  | append {a b : Doc} (h : Written P a) (h' : Written P b) : Written P (.append a b)
  | nest {d : Doc} (by_ : Int) (h : Written P d) : Written P (.nest by_ d)
  | group {d : Doc} (h : Written P d) : Written P (.group d)
  | choice {broken flat : Doc} (h : Written P broken) (h' : Written P flat) :
      Written P (.choice broken flat)
  | styled {d : Doc} (style : Style) (h : Written P d) : Written P (.styled style d)

/-! ## Documents put together -/

section
variable {P : Doc → Prop} {sep : Doc}

/-- What the empty document has, and two documents together have of each, any number of them
have together. -/
theorem Doc.concat_of (hnil : P .nil) (happend : ∀ {a b}, P a → P b → P (a ++ b)) :
    ∀ {ds : List Doc}, (∀ d ∈ ds, P d) → P (Doc.concat ds)
  | [], _ => hnil
  | [d], h => h d (List.mem_singleton_self d)
  | d :: e :: ds, h => by
    obtain ⟨hd, hds⟩ := List.forall_mem_cons.mp h
    exact happend hd (Doc.concat_of hnil happend hds)

theorem Doc.join_of (hnil : P .nil) (happend : ∀ {a b}, P a → P b → P (a ++ b)) (hsep : P sep) :
    ∀ {ds : List Doc}, (∀ d ∈ ds, P d) → P (Doc.join sep ds)
  | [], _ => hnil
  | [d], h => h d (List.mem_singleton_self d)
  | d :: e :: ds, h => by
    obtain ⟨hd, hds⟩ := List.forall_mem_cons.mp h
    exact happend hd (happend hsep (Doc.join_of hnil happend hsep hds))

end

/-! ## Written documents -/

section
variable {P : Char → Prop}

theorem Common.fixed (hP : Common P) {cs : List Char}
    (h : cs.all (fun c => 0x20 ≤ c.toNat && c.toNat ≤ 0x7E) = true) : ∀ c ∈ cs, P c := by
  intro c hc
  have hrange := List.all_eq_true.mp h c hc
  rw [Bool.and_eq_true, decide_eq_true_eq, decide_eq_true_eq] at hrange
  exact hP c hrange

namespace Uses

theorem append {s t : String} (h : Uses P s) (h' : Uses P t) : Uses P (s ++ t) := by
  rw [Uses, String.toList_append]
  exact List.forall_mem_append.mpr ⟨h, h'⟩

theorem ofList {cs : List Char} (h : ∀ c ∈ cs, P c) : Uses P (String.ofList cs) := by
  rw [Uses, String.toList_ofList]
  exact h

/-- Words and signs of printable ASCII. -/
theorem fixed (hP : Common P) {s : String}
    (h : s.toList.all (fun c => 0x20 ≤ c.toNat && c.toNat ≤ 0x7E) = true) : Uses P s :=
  hP.fixed h

theorem digits (hP : Common P) (n : Nat) : Uses P (toString n) := by
  rw [Nat.toString_eq_ofList_toDigits]
  refine ofList fun c hc => hP c ?_
  have hdigit := Nat.isDigit_of_mem_toDigits (by decide) (by decide) hc
  simp only [Char.isDigit, Bool.and_eq_true, decide_eq_true_eq, ge_iff_le,
    UInt32.le_iff_toNat_le] at hdigit
  exact ⟨Nat.le_trans (by decide) hdigit.1, Nat.le_trans hdigit.2 (by decide)⟩

end Uses

namespace Doc.Written

variable {d : Doc}

theorem fixed (hP : Common P) {s : String}
    (h : s.toList.all (fun c => 0x20 ≤ c.toNat && c.toNat ≤ 0x7E) = true) :
    (Doc.text s).Written P :=
  .text (.fixed hP h)

theorem mark (style : Style) {s : String} (h : Uses P s) : (Doc.mark style s).Written P :=
  .styled style (.text h)

theorem keyword (hP : Common P) {s : String}
    (h : s.toList.all (fun c => 0x20 ≤ c.toNat && c.toNat ≤ 0x7E) = true) :
    (Doc.keyword s).Written P :=
  .mark .keyword (.fixed hP h)

theorem space (hP : Common P) : Doc.space.Written P :=
  .fixed hP (by decide)

theorem spaced (hP : Common P) (h : d.Written P) : (Doc.space ++ d).Written P :=
  .append (.space hP) h

theorem parens (hP : Common P) (h : d.Written P) : d.parens.Written P :=
  .append (.fixed hP (by decide)) (.append h (.fixed hP (by decide)))

theorem brackets (hP : Common P) (h : d.Written P) : d.brackets.Written P :=
  .append (.fixed hP (by decide)) (.append h (.fixed hP (by decide)))

theorem braces (hP : Common P) (h : d.Written P) : d.braces.Written P :=
  .append (.fixed hP (by decide)) (.append h (.fixed hP (by decide)))

theorem concat {ds : List Doc} (h : ∀ d ∈ ds, d.Written P) : (Doc.concat ds).Written P :=
  Doc.concat_of .nil .append h

theorem join {sep : Doc} (hsep : sep.Written P) {ds : List Doc} (h : ∀ d ∈ ds, d.Written P) :
    (Doc.join sep ds).Written P :=
  Doc.join_of .nil .append hsep h

/-- Documents in lines. -/
theorem lines {ds : List Doc} (h : ∀ d ∈ ds, d.Written P) : (Doc.join .line ds).Written P :=
  .join .line h

theorem continued (hP : Common P) {sep : String} (hsep : Uses P sep) {ds : List Doc}
    (h : ∀ d ∈ ds, d.Written P) : (Doc.continued sep ds).Written P := by
  have hbreak : Doc.continuation.Written P :=
    .choice (.append (.fixed hP (by decide)) .line) (.space hP)
  exact .group (.join (.append (.text hsep) hbreak) h)

end Doc.Written

/-! ## Layouts -/

variable {indent : Nat} {flat : Bool}

/-- What a layout shows are texts of the document. -/
theorem uses_laidOut {d : Doc} (h : d.Written P) :
    ∀ {indent : Nat} {flat : Bool} {ps : List Piece}, d.LaidOut indent flat ps →
      ∀ s, .text s ∈ ps → Uses P s := by
  induction h with
  | nil =>
    rintro _ _ _ rfl s hs
    cases hs
  | text h =>
    rintro _ _ _ rfl s hs
    obtain ⟨⟩ := List.mem_singleton.mp hs
    exact h
  | line =>
    rintro _ _ _ rfl s hs
    cases List.mem_singleton.mp hs
  | append _ _ iha ihb =>
    rintro _ _ _ ⟨_, _, rfl, ha, hb⟩ s hs
    exact (List.mem_append.mp hs).elim (iha ha s) (ihb hb s)
  | nest _ _ ih => exact fun h => ih h
  | group _ ih =>
    rintro _ _ _ ⟨_, _, h⟩
    exact ih h
  | choice _ _ ihbroken ihflat =>
    intro _ _ _ h
    rcases h.of_choice with ⟨-, h⟩ | ⟨-, h⟩
    · exact ihflat h
    · exact ihbroken h
  | styled _ _ ih =>
    rintro _ _ _ ⟨body, rfl, hbody⟩ s hs
    rcases List.mem_cons.mp hs with hs | hs
    · cases hs
    · rcases List.mem_append.mp hs with hs | hs
      · exact ih hbody s hs
      · cases List.mem_singleton.mp hs

/-- The plain text has the characters of the document, line ends and spaces. -/
theorem mem_plain {d : Doc} (h : d.Written P) (layout : d.Arrangement indent flat) {c : Char}
    (hc : c ∈ layout.plain.toList) : P c ∨ c = '\n' ∨ c = ' ' := by
  rw [Doc.Arrangement.plain, toList_plainText] at hc
  obtain ⟨p, hp, hc⟩ := List.mem_flatMap.mp hc
  cases p with
  | text s => exact .inl (uses_laidOut h layout.laidOut s hp c hc)
  | newline indent =>
    rw [Piece.chars, newlineText, String.toList_append] at hc
    rcases List.mem_append.mp hc with hc | hc
    · exact .inr (.inl (List.mem_singleton.mp hc))
    · rw [String.toList_ofList] at hc
      exact .inr (.inr (List.mem_replicate.mp hc).2)
  | push style => cases hc
  | pop => cases hc

end

end PegCompiler.Layout
