import PegCompiler.Proofs.Target.Precedence
/-
  Documents as tokens. What a document is as a whole (`Doc.shown`) is put together from its
  parts, and so are its tokens (`Reads`). A word or a constant at the end of a document
  could go on in what follows, which is the only thing that has to be said about it: a
  document that reads `apart` needs something behind it that parts the words, such as a
  space, a sign or a line end (`Parting`).
-/

namespace PegCompiler.Target

open Layout (Doc Page Style Symbol newlineSymbols plainSymbols symbols)

/-! ## Texts as tokens -/

/-- What is read in a text: the tokens that have ended, and the one that has begun. -/
def scan : Partial → List Symbol → Option (List Token × Partial)
  | p, [] => some ([], p)
  | p, s :: rest => (p.step s).bind fun (ts, q) => (scan q rest).map fun (us, q) => (ts ++ us, q)

/-- The tokens of a text that ends with a word. -/
def endWord : List Token × Partial → Option (List Token)
  | (ts, .word cs) => (wordToken cs).map fun t => ts ++ [t]
  | _ => none

theorem lexFrom_append (text rest : List Symbol) : ∀ p : Partial,
    lexFrom p (text ++ rest) = (scan p text).bind fun (ts, q) => (lexFrom q rest).map (ts ++ ·) := by
  induction text with
  | nil =>
    intro p
    exact Option.map_id'.symm
  | cons s text ih =>
    intro p
    rw [List.cons_append, lexFrom, scan]
    cases p.step s with
    | none => rfl
    | some r =>
      obtain ⟨ts, q⟩ := r
      show (lexFrom q (text ++ rest)).map _ = _
      rw [ih]
      show _ = ((scan q text).map fun (us, q) => (ts ++ us, q)).bind _
      cases scan q text with
      | none => rfl
      | some r => simp [Function.comp_def]

/-- A text has these tokens wherever it stands; `apart`, in front of what parts it from the
next word. -/
def Spells (apart : Bool) (text : List Symbol) (ts : List Token) : Prop :=
  ∀ rest, (apart = true → Parts rest) →
    lexFrom .none (text ++ rest) = (lexFrom .none rest).map (ts ++ ·)

/-- A text parts the words in front of it from what follows. -/
def Parting (apart : Bool) (text : List Symbol) : Prop :=
  ∀ rest, (apart = true → Parts rest) → Parts (text ++ rest)

namespace Spells

variable {apart apart' : Bool} {text more : List Symbol} {ts us : List Token}

theorem nil : Spells apart [] [] :=
  fun _ _ => Option.map_id'.symm

theorem append (h : Spells apart text ts) (h' : Spells apart' more us)
    (hparting : apart = true → Parting apart' more) : Spells apart' (text ++ more) (ts ++ us) := by
  intro rest hrest
  rw [List.append_assoc, h (more ++ rest) (fun ha => hparting ha rest hrest), h' rest hrest]
  cases lexFrom .none rest with
  | none => rfl
  | some vs => simp

/-- What is read by itself can have anything behind it. -/
theorem closed (h : Spells false text ts) (h' : Spells apart more us) :
    Spells apart (text ++ more) (ts ++ us) :=
  h.append h' fun hf => absurd hf Bool.false_ne_true

theorem of_scan (h : scan .none text = some (ts, .none)) (apart : Bool) : Spells apart text ts := by
  intro rest _
  rw [lexFrom_append, h]
  rfl

theorem weaken (h : Spells false text ts) : Spells apart text ts :=
  fun rest _ => h rest fun hf => absurd hf Bool.false_ne_true

/-- A text that ends with a word. -/
theorem of_word (h : (scan .none text).bind endWord = some ts) : Spells true text ts := by
  intro rest hrest
  obtain ⟨⟨us, p⟩, hscan, hend⟩ := Option.bind_eq_some_iff.mp h
  rw [lexFrom_append, hscan, Option.bind_some]
  cases p with
  | word cs =>
    obtain ⟨t, ht, rfl⟩ := Option.map_eq_some_iff.mp hend
    show (lexFrom (.word cs) rest).map _ = _
    rw [lexFrom_endWord ht (hrest rfl)]
    cases lexFrom .none rest with
    | none => rfl
    | some vs => simp
  | _ => exact nomatch hend

end Spells

namespace Parting

variable {apart : Bool} {text more : List Symbol}

theorem nil : Parting true [] :=
  fun _ h => h rfl

theorem of_char {c : Char} (h : isWordChar c = false ∧ c ≠ '\'') (apart : Bool) (text : List Symbol) :
    Parting apart (.char c :: text) :=
  fun _ _ => parts_cons h _

theorem append_left (h : Parting false text) (apart : Bool) (more : List Symbol) :
    Parting apart (text ++ more) := by
  intro rest _
  rw [List.append_assoc]
  exact h _ fun hf => absurd hf Bool.false_ne_true

theorem append (h : Parting true text) (h' : Parting apart more) :
    Parting apart (text ++ more) := by
  intro rest hrest
  rw [List.append_assoc]
  exact h _ fun _ => h' rest hrest

end Parting

/-! ## Names and numbers -/

theorem spells_word {s : String} {c : Char} {cs : List Char} (hs : s.toList = c :: cs)
    (hcs : ∀ d ∈ c :: cs, isWordChar d = true) {t : Token} (ht : wordToken (c :: cs) = some t) :
    Spells true (plainSymbols s) [t] := by
  intro rest hrest
  rw [plainSymbols, hs]
  exact lexFrom_word hcs ht (hrest rfl)

theorem isDigit_of_isAlpha {c : Char} (h : c.isAlpha = true) : c.isDigit = false := by
  simp only [Char.isAlpha, Char.isUpper, Char.isLower, Char.isDigit, Bool.or_eq_true,
    Bool.and_eq_true, decide_eq_true_eq, Bool.and_eq_false_iff, decide_eq_false_iff_not] at h ⊢
  have hnine : '9'.val < 'A'.val ∧ '9'.val < 'a'.val := by decide
  simp only [ge_iff_le, UInt32.le_iff_toNat_le, UInt32.lt_iff_toNat_lt] at h hnine ⊢
  omega

theorem spells_name {name : String} (h : IsName name) :
    Spells true (plainSymbols name) [.word name] := by
  obtain ⟨c, cs, hname, hc, hcs⟩ := h
  have hchars : ∀ d ∈ c :: cs, isNameChar d = true :=
    List.forall_mem_cons.mpr ⟨by simp [isNameChar, Char.isAlphanum, hc], hcs⟩
  have hdot : c ≠ '.' := fun he => absurd (he ▸ hc) (by decide)
  refine spells_word hname (fun d hd => ?_) ?_
  · rw [isWordChar, hchars d hd, Bool.true_or]
  · rw [wordToken, if_neg (by rw [isDigit_of_isAlpha hc]; decide), if_pos, ← hname,
      String.ofList_toList]
    · simpa [hc] using hcs
    · exact hdot

theorem spells_number (n : Nat) : Spells true (plainSymbols (toString n)) [.number n] := by
  obtain ⟨c, cs, hn, htoDigits, hdigits⟩ := exists_digits n
  obtain ⟨hc, hcs⟩ := List.forall_mem_cons.mp hdigits
  have hdot : c ≠ '.' := fun he => absurd (he ▸ hc) (by decide)
  refine spells_word hn (fun d hd => ?_) ?_
  · simp [isWordChar, isNameChar, Char.isAlphanum, hdigits d hd]
  · rw [wordToken, if_pos hc, if_pos (List.all_eq_true.mpr hcs), ← htoDigits,
      Nat.ofDigitChars_ten_toDigits]
    exact hdot

/-! ## Documents -/

/-- What a document is made of as a whole. -/
def shown (d : Doc) (indent : Nat) : List Symbol :=
  symbols true false (d.whole indent)

/-- A document has these tokens wherever it stands. -/
def Reads (apart : Bool) (d : Doc) (ts : List Token) : Prop :=
  ∀ indent : Nat, Spells apart (shown d indent) ts

/-- A document parts what stands in front of it from what follows. -/
def Divides (apart : Bool) (d : Doc) : Prop :=
  ∀ indent : Nat, Parting apart (shown d indent)

section
variable {indent : Nat}

/-- Behind a part with a style no type has begun. -/
theorem symbols_pop (marked : Bool) (ps rest : List Layout.Piece) :
    symbols true marked (ps ++ .pop :: rest) = symbols true marked ps ++ symbols true false rest := by
  induction ps generalizing marked with
  | nil => rfl
  | cons p ps ih => cases p <;> simp [symbols, ih]

theorem symbols_whole (d : Doc) : ∀ (indent : Nat) (rest : List Layout.Piece),
    symbols true false (d.whole indent ++ rest) =
      symbols true false (d.whole indent) ++ symbols true false rest := by
  induction d with
  | nil => exact fun _ _ => rfl
  | text s =>
    intro indent rest
    simp [Doc.whole, symbols]
  | line =>
    intro indent rest
    simp [Doc.whole, symbols]
  | append a b iha ihb =>
    intro indent rest
    rw [Doc.whole, List.append_assoc, iha, ihb, iha, List.append_assoc]
  | nest by_ d ih => exact fun indent => ih _
  | group d ih => exact fun indent => ih indent
  | choice broken flat _ ih => exact fun indent => ih indent
  | styled style d ih =>
    intro indent rest
    simp [Doc.whole, symbols, symbols_pop]

theorem shown_append (a b : Doc) : shown (a ++ b) indent = shown a indent ++ shown b indent :=
  symbols_whole a indent _

theorem shown_styled {style : Style} (hstyle : style ≠ .type) (d : Doc) :
    shown (.styled style d) indent = shown d indent := by
  have hmark : (style == .type) = false := by simpa using hstyle
  show symbols true (style == .type) (d.whole indent ++ [.pop]) = _
  rw [hmark, symbols_pop]
  exact List.append_nil _

theorem shown_text (s : String) : shown (.text s) indent = plainSymbols s :=
  List.append_nil _

theorem shown_append_nil (d : Doc) : shown (d ++ .nil) indent = shown d indent :=
  congrArg (symbols true false) (List.append_nil _)

theorem shown_line : shown .line indent = newlineSymbols indent :=
  List.append_nil _

end

theorem spells_spaces (k : Nat) : Spells false (List.replicate k (.char ' ')) [] := by
  induction k with
  | zero => exact .nil
  | succ k ih =>
    have hspace : Spells false [.char ' '] [] := .of_scan rfl false
    exact hspace.closed ih

theorem spells_newline (indent : Nat) : Spells false (newlineSymbols indent) [.lineEnd] := by
  have hline : Spells false [.char '\n'] [.lineEnd] := .of_scan rfl false
  exact hline.closed (spells_spaces indent)

namespace Divides

variable {apart : Bool} {d e : Doc}

theorem nil : Divides true .nil :=
  fun _ => .nil

theorem text {s : String} {c : Char} {cs : List Char} (hs : s.toList = c :: cs)
    (hc : isWordChar c = false ∧ c ≠ '\'') (apart : Bool) : Divides apart (.text s) := by
  intro indent
  rw [shown_text, plainSymbols, hs]
  exact .of_char hc apart _

theorem line (apart : Bool) : Divides apart .line := by
  intro indent
  rw [shown_line]
  exact .of_char (by decide) apart _

theorem append_left (h : Divides false d) (apart : Bool) (e : Doc) : Divides apart (d ++ e) := by
  intro indent
  rw [shown_append d e]
  exact (h indent).append_left apart _

theorem append (h : Divides true d) (h' : Divides apart e) : Divides apart (d ++ e) := by
  intro indent
  rw [shown_append d e]
  exact (h indent).append (h' indent)

theorem nest (by_ : Int) (h : Divides apart d) : Divides apart (.nest by_ d) :=
  fun indent => h (Layout.shift indent by_)

theorem space (apart : Bool) (d : Doc) : Divides apart (Doc.space ++ d) :=
  append_left (text rfl (by decide) false) apart d

theorem parens (apart : Bool) (d : Doc) : Divides apart d.parens :=
  append_left (text rfl (by decide) false) apart _

end Divides

namespace Reads

variable {apart apart' : Bool} {d e : Doc} {ts us : List Token}

theorem nil : Reads apart .nil [] :=
  fun _ => .nil

theorem text {s : String} (h : Spells apart (plainSymbols s) ts) : Reads apart (.text s) ts := by
  intro indent
  rw [shown_text]
  exact h

theorem line : Reads false .line [.lineEnd] := by
  intro indent
  rw [shown_line]
  exact spells_newline indent

theorem append (h : Reads apart d ts) (h' : Reads apart' e us)
    (hdivides : apart = true → Divides apart' e) : Reads apart' (d ++ e) (ts ++ us) := by
  intro indent
  rw [shown_append d e]
  exact (h indent).append (h' indent)
    fun ha => hdivides ha indent

/-- What is read by itself can have anything behind it. -/
theorem closed (h : Reads false d ts) (h' : Reads apart e us) : Reads apart (d ++ e) (ts ++ us) :=
  h.append h' fun hf => absurd hf Bool.false_ne_true

theorem nest (by_ : Int) (h : Reads apart d ts) : Reads apart (.nest by_ d) ts :=
  fun indent => h (Layout.shift indent by_)

theorem styled {style : Style} (hstyle : style ≠ .type) (h : Reads apart d ts) :
    Reads apart (.styled style d) ts := by
  intro indent
  rw [shown_styled hstyle]
  exact h indent

theorem keyword {s : String} (h : Spells apart (plainSymbols s) ts) :
    Reads apart (Doc.keyword s) ts :=
  (text h).styled (by decide)

/-- A text of words, signs and operators that end in it. -/
theorem of_scan {s : String} (h : scan .none (plainSymbols s) = some (ts, .none)) (apart : Bool) :
    Reads apart (.text s) ts :=
  text (.of_scan h apart)

/-- A keyword, of one word or several. -/
theorem keyword_of_word {s : String} (h : (scan .none (plainSymbols s)).bind endWord = some ts) :
    Reads true (Doc.keyword s) ts :=
  keyword (.of_word h)

theorem name {name : String} (h : IsName name) : Reads true (.text name) [.word name] :=
  text (spells_name h)

theorem number (n : Nat) : Reads true (.text (toString n)) [.number n] :=
  text (spells_number n)

theorem weaken (h : Reads false d ts) : Reads apart d ts :=
  fun indent rest _ => h indent rest fun hf => absurd hf Bool.false_ne_true

theorem space (h : Reads apart d ts) : Reads apart (Doc.space ++ d) ts :=
  have hspace : Reads false Doc.space [] := of_scan rfl false
  hspace.closed h

theorem parens (h : Reads apart d ts) : Reads false d.parens (.opening :: (ts ++ [.closing])) := by
  have hopening : Reads false (.text "(") [.opening] := of_scan rfl false
  have hclosing : Reads false (.text ")") [.closing] := of_scan rfl false
  exact hopening.closed (h.append hclosing fun _ => .text rfl (by decide) false)

theorem brackets (h : Reads apart d ts) :
    Reads false d.brackets (.openingList :: (ts ++ [.closingList])) := by
  have hopening : Reads false (.text "[") [.openingList] := of_scan rfl false
  have hclosing : Reads false (.text "]") [.closingList] := of_scan rfl false
  exact hopening.closed (h.append hclosing fun _ => .text rfl (by decide) false)

/-- An operator ends at the space behind it. -/
theorem operator (op : BinOp) (h : Reads apart d ts) :
    Reads apart (.text op.symbol ++ (Doc.space ++ d)) (.binary op :: ts) := by
  have hop : Spells false (plainSymbols op.symbol ++ plainSymbols " ") [.binary op] := by
    refine .of_scan ?_ false
    cases op <;> rfl
  intro indent
  have hspace : shown Doc.space indent = plainSymbols " " := shown_text " "
  rw [shown_append, shown_append, shown_text, hspace, ← List.append_assoc]
  exact hop.closed (h indent)

theorem join {sep : Doc} {t : Token} (hsep : Reads false sep [t]) (hdivides : Divides false sep)
    {ds : List Doc} {tss : List (List Token)} (h : List.Forall₂ (Reads true) ds tss) :
    Reads true (Doc.join sep ds) (separated t tss) := by
  induction h with
  | nil => exact nil
  | @cons d ts ds tss hd hds ih =>
    cases hds with
    | nil => exact hd
    | cons hd' hds => exact hd.append (hsep.closed ih) fun _ => hdivides.append_left true _

/-- A list, on one line or broken, is its items with separators. -/
theorem continued {sep : String} {t : Token}
    (h : sep = "," ∧ t = .comma ∨ sep = " //" ∧ t = .binary .concat) {ds : List Doc}
    {tss : List (List Token)} (hds : List.Forall₂ (Reads true) ds tss) :
    Reads true (Doc.continued sep ds) (separated t tss) := by
  have hsep : Reads false (.text sep ++ Doc.continuation) [t] ∧
      Divides false (.text sep ++ Doc.continuation) := by
    have hshown (indent : Nat) : shown (.text sep ++ Doc.continuation) indent =
        plainSymbols sep ++ plainSymbols " " := by
      have hspace : shown Doc.continuation indent = plainSymbols " " := @shown_text indent " "
      rw [shown_append, shown_text, hspace]
    obtain ⟨rfl, rfl⟩ | ⟨rfl, rfl⟩ := h
    · refine ⟨fun indent => ?_, .append_left (.text rfl (by decide) false) false _⟩
      rw [hshown indent]
      exact .of_scan rfl false
    · refine ⟨fun indent => ?_, .append_left (.text rfl (by decide) false) false _⟩
      rw [hshown indent]
      exact .of_scan rfl false
  exact hsep.1.join hsep.2 hds

end Reads

/-- A type is one token. -/
theorem reads_type (spec : String) : Reads false (Doc.mark .type spec) [.type spec] := by
  intro indent rest _
  exact lexFrom_cons rfl rest

/-! ## Constants -/

/-- No character that is written by its code stands in a quoted piece. -/
def Piece.Printable : Piece → Prop
  | .quoted chars => ∀ c ∈ chars, isControl c = false
  | .code _ => True

/-- A quoted piece has from 1 to 40 characters, and a character that is written by its code
is a control character. -/
def Piece.Sized : Piece → Prop
  | .quoted chars => chars ≠ [] ∧ chars.length ≤ 40
  | .code n => ∃ c, isControl c = true ∧ c.toNat = n

theorem proper_flush {chunk : List Char} (hlength : chunk.length ≤ 40)
    (h : ∀ c ∈ chunk, isControl c = false) :
    ∀ p ∈ Piece.flush chunk, p.Printable ∧ p.Sized := by
  unfold Piece.flush
  split
  · exact List.forall_mem_nil _
  · next hne =>
    have hchunk : chunk ≠ [] := fun he => hne (List.isEmpty_iff.mpr he)
    exact List.forall_mem_singleton.mpr ⟨h, hchunk, hlength⟩

/-- The open piece never has more than 40 characters. -/
theorem proper_piecesFrom (cs : List Char) : ∀ {chunk : List Char}, chunk.length ≤ 40 →
    (∀ c ∈ chunk, isControl c = false) →
    ∀ p ∈ piecesFrom chunk cs, p.Printable ∧ p.Sized := by
  induction cs with
  | nil =>
    intro chunk hlength h
    exact proper_flush hlength h
  | cons c cs ih =>
    intro chunk hlength h
    rw [piecesFrom]
    split
    · next hc =>
      exact List.forall_mem_append.mpr ⟨proper_flush hlength h, List.forall_mem_cons.mpr
        ⟨⟨trivial, c, hc, rfl⟩, ih (Nat.zero_le _) (List.forall_mem_nil _)⟩⟩
    · next hc =>
      have hcontrol : isControl c = false := by simpa using hc
      split
      · next hfull =>
        have hchunk : chunk ≠ [] := by
          rintro rfl
          exact absurd hfull (by decide)
        exact List.forall_mem_cons.mpr ⟨⟨h, hchunk, hlength⟩,
          ih (by simp) (List.forall_mem_singleton.mpr hcontrol)⟩
      · next hroom =>
        have hlonger : (chunk ++ [c]).length ≤ 40 := by
          rw [beq_iff_eq] at hroom
          rw [List.length_append, List.length_singleton]
          omega
        exact ih hlonger (List.forall_mem_append.mpr ⟨h, List.forall_mem_singleton.mpr hcontrol⟩)

/-- Only the empty constant has an empty piece. -/
theorem proper_pieces (value : String) :
    ∀ p ∈ pieces value, p.Printable ∧ (p.Sized ∨ value = "" ∧ p = .quoted []) := by
  have hall : ∀ p ∈ piecesFrom [] value.toList, p.Printable ∧ p.Sized :=
    proper_piecesFrom value.toList (Nat.zero_le _) (List.forall_mem_nil _)
  unfold pieces
  split
  · next hnone =>
    have hchars := flatMap_piecesFrom value.toList []
    rw [hnone] at hchars
    have hempty : value = "" := String.toList_eq_nil_iff.mp hchars.symm
    exact List.forall_mem_singleton.mpr ⟨List.forall_mem_nil _, .inr ⟨hempty, rfl⟩⟩
  · exact fun p hp => ⟨(hall p hp).1, .inl (hall p hp).2⟩

theorem printable_pieces (value : String) : ∀ p ∈ pieces value, p.Printable :=
  fun p hp => (proper_pieces value p hp).1

theorem shows_piece {p : Piece} (h : p.Printable) : Reads true p.doc p.tokens := by
  cases p with
  | quoted chars =>
    have hline : '\n' ∉ chars := fun hmem => absurd (h _ hmem) (by decide)
    refine .styled (by decide) (.text fun rest hrest => ?_)
    have hquoted := lexFrom_quoted hline (hrest rfl)
    simpa [plainSymbols, Piece.tokens] using hquoted
  | code n =>
    have hopening : Spells false (plainSymbols "achar(") [.word characterCall, .opening] :=
      .of_scan rfl false
    have hclosing : Spells false (plainSymbols ")") [.closing] := .of_scan rfl false
    refine .text ?_
    rw [Layout.plainSymbols_append, Layout.plainSymbols_append]
    exact ((hopening.closed (spells_number n)).append hclosing
      fun _ => .of_char (by decide) false []).weaken

/-! ## Expressions -/

section
variable {page : Page}

theorem shows_bracketed {d : Doc} {ts : List Token} (h : Reads true d ts) (surrounding own : Nat) :
    Reads true (bracketed surrounding own d) (bracketedTokens surrounding own ts) := by
  unfold bracketed bracketedTokens
  split
  · exact h.parens.weaken
  · exact h

mutual

/-- An expression is written as its tokens. -/
theorem shows_expr : ∀ (e : Expr), e.Legible (fun _ => False) → ∀ surrounding : Nat,
    Reads true (e.doc page surrounding) (e.tokens surrounding)
  | .var name, h, _ => by
    rw [Expr.doc]
    exact .name h
  | .int n, _, _ => by
    rw [Expr.doc]
    exact .number n
  | .logical true, _, _ => by
    rw [Expr.doc]
    exact .keyword_of_word rfl
  | .logical false, _, _ => by
    rw [Expr.doc]
    exact .keyword_of_word rfl
  | .str value, _, _ => by
    rw [Expr.doc, stringDoc, Expr.tokens]
    refine .nest _ (.continued (.inr ⟨rfl, rfl⟩) ?_)
    rw [List.forall₂_map_left_iff, List.forall₂_map_right_iff, List.forall₂_same]
    exact fun p hp => shows_piece (printable_pieces value p hp)
  | .call name args, h, _ => by
    rw [Expr.doc, Expr.tokens]
    have hargs : Reads true (Doc.continued "," (exprDocs page args)) _ :=
      .continued (.inl ⟨rfl, rfl⟩) (shows_exprs args h.2.2)
    exact ((Reads.name h.1).append (hargs.nest page.indent).parens fun _ => .parens false _).weaken
  | .substring var lo hi, h, _ => by
    have hcolon : Reads false (.text ":") [.colon] := .of_scan rfl false
    have hbounds := (shows_expr lo h.2.1 0).append (hcolon.closed (shows_expr hi h.2.2 0))
      fun _ => .append_left (.text rfl (by decide) false) true _
    have hall := (Reads.name h.1).append hbounds.parens fun _ => .parens false _
    rw [Expr.doc, Expr.tokens]
    apply Reads.weaken
    simpa using hall
  | .array items, h, _ => by
    rw [Expr.doc, Expr.tokens]
    have hitems : Reads true (Doc.continued "," (exprDocs page items)) _ :=
      .continued (.inl ⟨rfl, rfl⟩) (shows_exprs items h)
    exact (hitems.nest page.indent).brackets.weaken
  | .not operand, h, surrounding => by
    have hnot : Reads true (Doc.keyword ".not.") [.negation] := .keyword_of_word rfl
    rw [Expr.doc, Expr.tokens]
    exact shows_bracketed (hnot.append (.space (shows_expr operand h.2 5))
      fun _ => .space true _) _ _
  | .bin op lhs rhs, h, surrounding => by
    have hrhs := Reads.operator op (shows_expr rhs h.2.1.2 (op.precedence + 1))
    rw [Expr.doc, Expr.tokens]
    exact shows_bracketed ((shows_expr lhs h.1.2 op.precedence).append (.space hrhs)
      fun _ => .space true _) _ _

theorem shows_exprs : ∀ (es : List Expr), exprsLegible (fun _ => False) es →
    List.Forall₂ (Reads true) (exprDocs page es) (exprsTokens es)
  | [], _ => by
    rw [exprDocs, exprsTokens]
    exact .nil
  | e :: rest, h => by
    rw [exprDocs, exprsTokens]
    exact .cons (shows_expr e h.1 0) (shows_exprs rest h.2)

end

end

end PegCompiler.Target
