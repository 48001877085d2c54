import Mathlib
import PegCompiler.Proofs.Layout.Chars
/-
  Line breaks do not count. A statement may go on in the next line behind an ampersand;
  `joined` puts such lines together. Two layouts of a document whose only choices are those
  of lists with separators differ only in these places, so what they are joined to is what
  the document is on pages of any width (`Doc.whole`).

  The relation is between pieces (`Rejoins`): text is never split, and where lines are
  joined text of a separator stands in front and text that starts with neither a space nor
  an ampersand behind. `Joins` says of a document that all its layouts are so related to
  the whole; it is closed under all that documents are made of but for free choices.
-/

namespace PegCompiler.Layout

/-! ## Symbols -/

/-- What a text is made of: characters, and types when nobody looks into them. -/
inductive Symbol where
  | char (c : Char)
  | type (spec : String)
  deriving DecidableEq, Repr

/-- The symbols of plain text. -/
def plainSymbols (s : String) : List Symbol :=
  s.toList.map .char

/-- The symbols of a line end and the indentation behind it. -/
def newlineSymbols (indent : Nat) : List Symbol :=
  .char '\n' :: List.replicate indent (.char ' ')

/-- The symbols of pieces. With `sealed`, text is one symbol where a part with the style of a
type has just begun, which is what `marked` says. -/
def symbols (sealed : Bool) : Bool → List Piece → List Symbol
  | _, [] => []
  | marked, .text s :: rest =>
    (if sealed && marked then [.type s] else plainSymbols s) ++ symbols sealed false rest
  | _, .newline indent :: rest => newlineSymbols indent ++ symbols sealed false rest
  | _, .push style :: rest => symbols sealed (style == .type) rest
  | _, .pop :: rest => symbols sealed false rest

/-- The text with a space for every continuation: a space, an ampersand, a line end and the
spaces behind it, which are passed over while `skipping`. -/
def joinFrom : Bool → List Symbol → List Symbol
  | _, [] => []
  | true, .char ' ' :: rest => joinFrom true rest
  | _, .char ' ' :: .char '&' :: .char '\n' :: rest => .char ' ' :: joinFrom true rest
  | _, s :: rest => s :: joinFrom false rest

/-- The text with its lines joined. -/
def joined (text : List Symbol) : List Symbol :=
  joinFrom false text

/-- A text goes on with the rest of a continuation. -/
def Breaks (text : List Symbol) : Prop :=
  ∃ rest, text = .char '&' :: .char '\n' :: rest

/-- A text starts with neither a space nor an ampersand. -/
def Opens (text : List Symbol) : Prop :=
  ∃ s rest, text = s :: rest ∧ s ≠ .char ' ' ∧ s ≠ .char '&'

section
variable {s : Symbol} {rest : List Symbol}

theorem joinFrom_of_ne (h : s ≠ .char ' ') (skipping : Bool) (rest : List Symbol) :
    joinFrom skipping (s :: rest) = s :: joinFrom false rest := by
  rw [joinFrom]
  · intro _ hs
    exact absurd hs h
  · intro _ hs
    exact absurd hs h

theorem joinFrom_skip (rest : List Symbol) :
    joinFrom true (.char ' ' :: rest) = joinFrom true rest := by
  rw [joinFrom]

theorem joinFrom_break (rest : List Symbol) :
    joinFrom false (.char ' ' :: .char '&' :: .char '\n' :: rest) =
      .char ' ' :: joinFrom true rest := by
  rw [joinFrom]
  rintro ⟨⟩

theorem joinFrom_space (h : ¬ Breaks rest) :
    joinFrom false (.char ' ' :: rest) = .char ' ' :: joinFrom false rest := by
  rw [joinFrom]
  · exact fun more _ hrest => h ⟨more, hrest⟩
  · exact fun hfalse => nomatch hfalse

theorem joinFrom_spaces (k : Nat) (rest : List Symbol) :
    joinFrom true (List.replicate k (.char ' ') ++ rest) = joinFrom true rest := by
  induction k with
  | zero => rfl
  | succ k ih => rw [List.replicate_succ, List.cons_append, joinFrom_skip, ih]

theorem joinFrom_opens {text : List Symbol} (h : Opens text) (skipping : Bool) :
    joinFrom skipping text = joinFrom false text := by
  obtain ⟨s, rest, rfl, hspace, -⟩ := h
  rw [joinFrom_of_ne hspace, joinFrom_of_ne hspace]

theorem Opens.not_breaks {text : List Symbol} (h : Opens text) : ¬ Breaks text := by
  obtain ⟨s, rest, rfl, -, hampersand⟩ := h
  rintro ⟨more, hmore⟩
  exact hampersand (List.cons.inj hmore).1

theorem Opens.append {text : List Symbol} (h : Opens text) (more : List Symbol) :
    Opens (text ++ more) := by
  obtain ⟨s, rest, rfl, hs⟩ := h
  exact ⟨s, rest ++ more, rfl, hs⟩

end

/-! ## Texts that differ in continuations -/

/-- The first text has continuations where the second has spaces, each behind something
else than a space or a line end and in front of text that opens. -/
inductive Rejoined : List Symbol → List Symbol → Prop where
  | nil : Rejoined [] []
  | same (s : Symbol) {a b : List Symbol} (h : Rejoined a b) : Rejoined (s :: a) (s :: b)
  | joint {c : Symbol} (hc : c ≠ .char ' ' ∧ c ≠ .char '\n') (indent : Nat) {a b : List Symbol}
      (hopens : Opens b) (h : Rejoined a b) :
      Rejoined (c :: .char ' ' :: .char '&' :: (newlineSymbols indent ++ a)) (c :: .char ' ' :: b)

namespace Rejoined

variable {a b : List Symbol}

theorem head (h : Rejoined a b) : a.head? = b.head? := by
  cases h <;> rfl

theorem prefixed (h : Rejoined a b) (front : List Symbol) :
    Rejoined (front ++ a) (front ++ b) := by
  induction front with
  | nil => exact h
  | cons s front ih => exact .same s ih

theorem opens (h : Rejoined a b) (hb : Opens b) : Opens a := by
  obtain ⟨s, rest, rfl, hs⟩ := hb
  obtain ⟨more, rfl⟩ := List.head?_eq_some_iff.mp h.head
  exact ⟨s, more, rfl, hs⟩

/-- The rest of a continuation stands in both texts. -/
theorem breaks (h : Rejoined a b) (hbreak : Breaks a ∨ Breaks b) :
    ∃ more rest, a = .char '&' :: .char '\n' :: more ∧ b = .char '&' :: .char '\n' :: rest ∧
      Rejoined more rest := by
  cases h with
  | nil => simp [Breaks] at hbreak
  | joint hc indent hopens h => simp [Breaks] at hbreak
  | @same s a b h =>
    cases h with
    | nil => simp [Breaks] at hbreak
    | @same t a b h =>
      obtain ⟨rfl, rfl⟩ : s = .char '&' ∧ t = .char '\n' := by simpa [Breaks] using hbreak
      exact ⟨a, b, rfl, rfl, h⟩
    | @joint c hc indent a b hopens h =>
      have hline : s = .char '&' ∧ c = .char '\n' := by simpa [Breaks] using hbreak
      exact absurd hline.2 hc.2

end Rejoined

theorem joinFrom_rejoined : ∀ {a b : List Symbol}, Rejoined a b → ∀ skipping : Bool,
    joinFrom skipping a = joinFrom skipping b
  | _, _, .nil, _ => rfl
  | _, _, @Rejoined.same s a b h, skipping => by
    by_cases hs : s = .char ' '
    · subst hs
      cases skipping with
      | true => rw [joinFrom_skip, joinFrom_skip, joinFrom_rejoined h]
      | false =>
        by_cases hbreak : Breaks a ∨ Breaks b
        · -- both go on with the rest of a continuation, behind which both are shorter
          obtain ⟨more, rest, rfl, rfl, hrest⟩ := h.breaks hbreak
          rw [joinFrom_break, joinFrom_break, joinFrom_rejoined hrest]
        · rw [not_or] at hbreak
          rw [joinFrom_space hbreak.1, joinFrom_space hbreak.2, joinFrom_rejoined h]
    · rw [joinFrom_of_ne hs, joinFrom_of_ne hs, joinFrom_rejoined h]
  | _, _, @Rejoined.joint c hc indent a b hopens h, skipping => by
    have hjoin : joinFrom true (List.replicate indent (.char ' ') ++ a) = joinFrom false b := by
      rw [joinFrom_spaces, joinFrom_opens (h.opens hopens), joinFrom_rejoined h]
    rw [joinFrom_of_ne hc.1, joinFrom_of_ne hc.1, newlineSymbols, List.cons_append, joinFrom_break,
      hjoin, joinFrom_space hopens.not_breaks]
termination_by a => a.length
decreasing_by all_goals subst_vars; simp +arith

/-! ## Layouts that differ in continuations -/

/-- The text of separators. -/
def separators : List String := [",", " //"]

/-- The first text of pieces starts with neither a space nor an ampersand. -/
def OpensText : List Piece → Prop
  | .text s :: _ => ∃ c cs, s.toList = c :: cs ∧ c ≠ ' ' ∧ c ≠ '&'
  | .newline _ :: _ => False
  | .push _ :: rest | .pop :: rest => OpensText rest
  | [] => False

/-- The first pieces have continuations where the second have spaces, each behind a
separator. -/
inductive Rejoins : List Piece → List Piece → Prop where
  | nil : Rejoins [] []
  | same (p : Piece) {a b : List Piece} (h : Rejoins a b) : Rejoins (p :: a) (p :: b)
  | joint {sep : String} (hsep : sep ∈ separators) (indent : Nat) {a b : List Piece}
      (hopens : OpensText b) (h : Rejoins a b) :
      Rejoins (.text sep :: .text " &" :: .newline indent :: a) (.text sep :: .text " " :: b)

theorem Rejoins.refl : ∀ ps : List Piece, Rejoins ps ps
  | [] => .nil
  | p :: ps => .same p (refl ps)

theorem OpensText.append {ps : List Piece} (h : OpensText ps) (more : List Piece) :
    OpensText (ps ++ more) := by
  induction ps with
  | nil => exact h.elim
  | cons p ps ih =>
    cases p with
    | text s => exact h
    | newline indent => exact h.elim
    | push style => exact ih h
    | pop => exact ih h

theorem Rejoins.append {a b c d : List Piece} (h : Rejoins a b) (h' : Rejoins c d) :
    Rejoins (a ++ c) (b ++ d) := by
  induction h with
  | nil => exact h'
  | same p _ ih => exact .same p ih
  | joint hsep indent hopens _ ih => exact .joint hsep indent (hopens.append d) ih

/-- What text that opens is made of opens. -/
theorem opens_symbols {ps : List Piece} (sealed : Bool) :
    ∀ marked : Bool, OpensText ps → Opens (symbols sealed marked ps) := by
  induction ps with
  | nil => exact fun _ h => h.elim
  | cons p ps ih =>
    intro marked h
    cases p with
    | text s =>
      obtain ⟨c, cs, hs, hspace, hampersand⟩ := h
      rw [symbols]
      split
      · exact ⟨.type s, _, rfl, by simp, by simp⟩
      · exact ⟨.char c, cs.map .char ++ symbols sealed false ps,
          by rw [plainSymbols, hs]; rfl, by simpa using hspace, by simpa using hampersand⟩
    | newline indent => exact h.elim
    | push style => exact ih _ h
    | pop => exact ih _ h

/-- A separator ends with something else than a space. -/
theorem exists_last {sep : String} (hsep : sep ∈ separators) (sealed marked : Bool) :
    ∃ front c, (if sealed && marked then [.type sep] else plainSymbols sep) = front ++ [c] ∧
      c ≠ Symbol.char ' ' ∧ c ≠ .char '\n' := by
  split
  · exact ⟨[], .type sep, rfl, by simp, by simp⟩
  · rw [separators, List.mem_pair] at hsep
    rcases hsep with rfl | rfl
    · exact ⟨[], .char ',', rfl, by decide, by decide⟩
    · exact ⟨[.char ' ', .char '/'], .char '/', rfl, by decide, by decide⟩

theorem Rejoins.symbols {a b : List Piece} (h : Rejoins a b) (sealed : Bool) :
    ∀ marked : Bool, Rejoined (symbols sealed marked a) (symbols sealed marked b) := by
  induction h with
  | nil => exact fun _ => .nil
  | same p _ ih =>
    intro marked
    cases p with
    | text s => exact (ih false).prefixed _
    | newline indent => exact (ih false).prefixed _
    | push style => exact ih _
    | pop => exact ih _
  | @joint sep hsep indent a b hopens _ ih =>
    intro marked
    obtain ⟨front, c, hfront, hc⟩ := exists_last hsep sealed marked
    have hjoint := (Rejoined.joint hc indent (opens_symbols sealed false hopens)
      (ih false)).prefixed front
    have hbroken : Layout.symbols sealed marked (.text sep :: .text " &" :: .newline indent :: a) =
        front ++ c :: .char ' ' :: .char '&' ::
          (newlineSymbols indent ++ Layout.symbols sealed false a) := by
      rw [Layout.symbols, hfront]
      simp [Layout.symbols, plainSymbols]
    have hwhole : Layout.symbols sealed marked (.text sep :: .text " " :: b) =
        front ++ c :: .char ' ' :: Layout.symbols sealed false b := by
      rw [Layout.symbols, hfront]
      simp [Layout.symbols, plainSymbols]
    rw [hbroken, hwhole]
    exact hjoint

/-! ## Documents -/

/-- The pieces of a document with no list broken. -/
def Doc.whole : Doc → Nat → List Piece
  | .nil, _ => []
  | .text s, _ => [.text s]
  | .line, indent => [.newline indent]
  | .append a b, indent => a.whole indent ++ b.whole indent
  | .nest by_ d, indent => d.whole (shift indent by_)
  | .group d, indent => d.whole indent
  | .choice _ flat, indent => flat.whole indent
  | .styled style d, indent => .push style :: (d.whole indent ++ [.pop])

/-- However a document is laid out, its lists can only have more continuations than the
whole. -/
def Joins (d : Doc) : Prop :=
  ∀ (indent : Nat) (flat : Bool) (ps : List Piece),
    d.LaidOut indent flat ps → Rejoins ps (d.whole indent)

/-- A document starts with text that can follow a continuation. -/
def Doc.Opens (d : Doc) : Prop :=
  ∀ indent : Nat, OpensText (d.whole indent)

namespace Joins

variable {d e : Doc}

theorem nil : Joins .nil := by
  rintro _ _ _ rfl
  exact .nil

theorem text (s : String) : Joins (.text s) := by
  rintro _ _ _ rfl
  exact .refl _

theorem line : Joins .line := by
  rintro _ _ _ rfl
  exact .refl _

theorem append (h : Joins d) (h' : Joins e) : Joins (d ++ e) := by
  rintro _ _ _ ⟨_, _, rfl, hd, he⟩
  exact (h _ _ _ hd).append (h' _ _ _ he)

theorem nest (by_ : Int) (h : Joins d) : Joins (.nest by_ d) :=
  fun indent => h (shift indent by_)

theorem styled (style : Style) (h : Joins d) : Joins (.styled style d) := by
  rintro _ _ _ ⟨_, rfl, hd⟩
  exact .same _ ((h _ _ _ hd).append (.refl _))

theorem parens (h : Joins d) : Joins d.parens :=
  (text _).append (h.append (text _))

theorem brackets (h : Joins d) : Joins d.brackets :=
  (text _).append (h.append (text _))

theorem keyword (s : String) : Joins (Doc.keyword s) :=
  (text s).styled .keyword

theorem concat {ds : List Doc} (h : ∀ d ∈ ds, Joins d) : Joins (Doc.concat ds) :=
  Doc.concat_of nil append h

theorem join {sep : Doc} (hsep : Joins sep) {ds : List Doc} (h : ∀ d ∈ ds, Joins d) :
    Joins (Doc.join sep ds) :=
  Doc.join_of nil append hsep h

/-- A list breaks behind its separators only. -/
theorem continued {sep : String} (hsep : sep ∈ separators) {ds : List Doc}
    (h : ∀ d ∈ ds, Joins d ∧ d.Opens) : Joins (Doc.continued sep ds) := by
  have hjoin : Joins (Doc.join (.text sep ++ Doc.continuation) ds) := by
    induction ds with
    | nil => exact nil
    | cons d ds ih =>
      obtain ⟨hd, hds⟩ := List.forall_mem_cons.mp h
      cases ds with
      | nil => exact hd.1
      | cons e ds =>
        rintro indent flat _ ⟨_, _, rfl, hfirst, _, _, rfl, ⟨_, _, rfl, rfl, hbreak⟩, hrest⟩
        have hopens : OpensText
            ((Doc.join (.text sep ++ Doc.continuation) (e :: ds)).whole indent) := by
          have he := (hds e List.mem_cons_self).2 indent
          cases ds with
          | nil => exact he
          | cons f ds => exact he.append _
        refine (hd.1 _ _ _ hfirst).append ?_
        -- in a flat group the separator goes on in the line, in a broken one it ends it
        cases flat with
        | true =>
          obtain rfl := hbreak
          exact .same _ (.same _ (ih hds _ _ _ hrest))
        | false =>
          obtain ⟨_, _, rfl, rfl, rfl⟩ := hbreak
          exact .joint hsep indent hopens (ih hds _ _ _ hrest)
  exact fun _ _ _ ⟨_, _, hinner⟩ => hjoin _ _ _ hinner

end Joins

/-- All layouts are joined to the whole document. -/
theorem Joins.joined_symbols {d : Doc} {indent : Nat} {flat : Bool} (h : Joins d) (sealed : Bool)
    (layout : d.Arrangement indent flat) :
    joined (symbols sealed false layout.pieces) = joined (symbols sealed false (d.whole indent)) :=
  joinFrom_rejoined ((h _ _ _ layout.laidOut).symbols sealed false) false

/-! ## Plain text -/

theorem plainSymbols_append (s t : String) :
    plainSymbols (s ++ t) = plainSymbols s ++ plainSymbols t := by
  rw [plainSymbols, String.toList_append, List.map_append]
  rfl

theorem plainSymbols_newline (indent : Nat) :
    plainSymbols (newlineText indent) = newlineSymbols indent := by
  rw [newlineText, plainSymbols_append]
  simp [plainSymbols, newlineSymbols]

/-- The plain text of pieces has their symbols. -/
theorem symbols_unsealed (ps : List Piece) : ∀ marked : Bool,
    symbols false marked ps = (ps.flatMap Piece.chars).map .char := by
  induction ps with
  | nil => exact fun _ => rfl
  | cons p ps ih =>
    intro marked
    rw [List.flatMap_cons, List.map_append]
    cases p with
    | text s => rw [symbols, ih]; rfl
    | newline indent => rw [symbols, ih, ← plainSymbols_newline]; rfl
    | push style => rw [symbols, ih]; rfl
    | pop => rw [symbols, ih]; rfl

theorem plainSymbols_plain {d : Doc} {indent : Nat} {flat : Bool} (layout : d.Arrangement indent flat) :
    plainSymbols layout.plain = symbols false false layout.pieces := by
  rw [symbols_unsealed, ← toList_plainText]
  rfl

/-- The characters of a symbol. -/
def Symbol.chars : Symbol → List Char
  | .char c => [c]
  | .type spec => spec.toList

theorem chars_plainSymbols (s : String) : (plainSymbols s).flatMap Symbol.chars = s.toList := by
  rw [plainSymbols, List.flatMap_map]
  exact List.flatMap_singleton' _

/-- Types stand for their characters in the plain text. -/
theorem chars_symbols (sealed : Bool) (ps : List Piece) : ∀ marked : Bool,
    (symbols sealed marked ps).flatMap Symbol.chars = (plainText ps).toList := by
  rw [toList_plainText]
  induction ps with
  | nil => exact fun _ => rfl
  | cons p ps ih =>
    intro marked
    rw [List.flatMap_cons]
    cases p with
    | text s =>
      have hchars : (if sealed && marked then [.type s] else plainSymbols s).flatMap Symbol.chars =
          s.toList := by
        split
        · exact List.append_nil _
        · exact chars_plainSymbols s
      rw [symbols, List.flatMap_append, hchars, ih]
      rfl
    | newline indent =>
      rw [symbols, List.flatMap_append, ← plainSymbols_newline, chars_plainSymbols, ih]
      rfl
    | push style => rw [symbols, ih]; rfl
    | pop => rw [symbols, ih]; rfl

end PegCompiler.Layout
