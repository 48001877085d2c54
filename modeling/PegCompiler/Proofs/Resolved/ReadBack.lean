import PegCompiler.Proofs.Resolved.OneLine
import PegCompiler.Proofs.Resolved.Readable
/-
  PEG notation is read back, where it can be. The text of a matcher whose parts are all
  readable is read as the gist of the matcher (`read_matcher`): its first character tells
  how it goes on, and what stands behind it does not go on as a matcher would.
-/

namespace PegCompiler

namespace Resolved

open Layout (Doc)

/-! ## How matchers begin -/

/-- What may stand behind a matcher of a row. -/
def Ends (rest : List Char) : Prop :=
  ∀ c, rest.head? = some c → c = ' ' ∨ c = ')'

theorem Ends.parts {rest : List Char} (h : Ends rest) : Parts rest := by
  intro c hc
  rcases h c hc with rfl | rfl
  · decide
  · decide

/-- A text begins as an atom does. -/
def OpensAtom (cs : List Char) : Prop :=
  ∃ c more, cs = c :: more ∧ (isSign c = true → c ∈ ['"', '[', '.', '('])

/-- A text begins as a matcher does. -/
def Opens (cs : List Char) : Prop :=
  ∃ c more, cs = c :: more ∧ (isSign c = true → c ∈ ['"', '[', '.', '(', '!', '&'])

theorem OpensAtom.opens {cs : List Char} (h : OpensAtom cs) : Opens cs := by
  obtain ⟨c, more, hcs, hc⟩ := h
  refine ⟨c, more, hcs, fun hsign => ?_⟩
  have hmem := hc hsign
  simp only [List.mem_cons, List.not_mem_nil, or_false] at hmem ⊢
  tauto

theorem OpensAtom.append {cs : List Char} (h : OpensAtom cs) (rest : List Char) :
    OpensAtom (cs ++ rest) := by
  obtain ⟨c, more, rfl, hc⟩ := h
  exact ⟨c, more ++ rest, rfl, hc⟩

theorem Opens.append {cs : List Char} (h : Opens cs) (rest : List Char) : Opens (cs ++ rest) := by
  obtain ⟨c, more, rfl, hc⟩ := h
  exact ⟨c, more ++ rest, rfl, hc⟩

/-- Only some signs begin an atom. -/
theorem OpensAtom.ne {cs : List Char} (h : OpensAtom cs) {c : Char} (hc : isSign c = true)
    (hmem : c ∉ ['"', '[', '.', '(']) (more : List Char) : cs ≠ c :: more := by
  obtain ⟨d, ds, rfl, hsign⟩ := h
  intro he
  obtain rfl : d = c := (List.cons.inj he).1
  exact hmem (hsign hc)

/-- Only some signs begin a matcher. -/
theorem Opens.ne {cs : List Char} (h : Opens cs) {c : Char} (hc : isSign c = true)
    (hmem : c ∉ ['"', '[', '.', '(', '!', '&']) (more : List Char) : cs ≠ c :: more := by
  obtain ⟨d, ds, rfl, hsign⟩ := h
  intro he
  obtain rfl : d = c := (List.cons.inj he).1
  exact hmem (hsign hc)

/-- No sign begins a name. -/
theorem IsWord.ne {s : String} (h : IsWord s) {c : Char} (hc : isSign c = true)
    (rest more : List Char) : s.toList ++ rest ≠ c :: more := by
  obtain ⟨d, ds, hs⟩ := List.exists_cons_of_ne_nil h.ne_nil
  intro he
  rw [hs] at he
  obtain rfl : d = c := (List.cons.inj he).1
  rw [h.chars d (hs ▸ List.mem_cons_self)] at hc
  exact absurd hc (by decide)

theorem opens_word {s : String} (h : IsWord s) : OpensAtom s.toList := by
  obtain ⟨c, more, hs⟩ := List.exists_cons_of_ne_nil h.ne_nil
  refine ⟨c, more, hs, fun hsign => ?_⟩
  rw [h.chars c (hs ▸ List.mem_cons_self)] at hsign
  exact absurd hsign (by decide)

theorem chars_literal (value : String) : (Matcher.literal value).doc.chars =
    '"' :: (value.toList.flatMap Text.quotedChar ++ ['"']) := by
  rw [Matcher.doc, Doc.chars_mark, Text.quoted, String.toList_ofList]
  rfl

theorem chars_choice (c : Choice) : (Matcher.choice c).doc.chars =
    '(' :: ((Doc.join (Doc.space ++ (.text "/" ++ Doc.space))
      (alternativeDocs c.alternatives)).chars ++ [')']) := by
  obtain ⟨as, result⟩ := c
  rw [Matcher.doc, Choice.doc, choiceDoc, Doc.chars_parens]

theorem opens_atom {m : Matcher} (hatom : m.isAtom = true) (h : m.Readable) :
    OpensAtom m.doc.chars := by
  cases m with
  | literal value =>
    rw [chars_literal]
    exact ⟨_, _, rfl, fun _ => by decide⟩
  | «class» tests =>
    rw [chars_class]
    exact ⟨_, _, rfl, fun _ => by decide⟩
  | anyChar =>
    rw [Matcher.doc]
    exact ⟨'.', [], rfl, fun _ => by decide⟩
  | call call =>
    rw [Matcher.doc, Doc.chars_mark]
    exact opens_word h
  | choice c =>
    rw [chars_choice]
    exact ⟨_, _, rfl, fun _ => by decide⟩
  | _ => exact nomatch hatom

theorem doc_repeat {body : Matcher} (hatom : body.isAtom = true) (min : Bound) (max : Option Bound)
    (separator : Option Matcher) : (Matcher.repeat body min max separator).doc =
      body.doc ++ repeatSuffix min max (separatorDoc separator) := by
  have hplain : body.isCompound = false := by
    cases body <;> first | rfl | cases hatom
  rw [Matcher.doc, hplain]
  rfl

theorem chars_lookahead (negated : Bool) (body : Matcher) :
    (Matcher.lookahead negated body).doc.chars =
      (if negated then '!' else '&') :: body.doc.chars := by
  rw [Matcher.doc]
  cases negated <;> rfl

theorem chars_predicate (negated : Bool) (call : ActionCall) :
    (Matcher.predicate negated call).doc.chars =
      (if negated then '!' else '&') :: '\x7b' :: (call.doc.chars ++ ['\x7d']) := by
  rw [Matcher.doc]
  cases negated <;> rfl

/-- All matchers in one can be read. -/
def AllReadable (ms : List Matcher) : Prop :=
  ∀ m ∈ ms, m.Readable

theorem AllReadable.self {m : Matcher} (h : AllReadable m.matchers) : m.Readable := by
  refine h m ?_
  cases m <;> simp [Matcher.matchers]

theorem AllReadable.parts {body : Matcher} {min : Bound} {max : Option Bound}
    {separator : Option Matcher} (h : AllReadable (Matcher.repeat body min max separator).matchers) :
    AllReadable body.matchers ∧ AllReadable (separatorMatchers separator) := by
  rw [Matcher.matchers] at h
  exact List.forall_mem_append.mp (List.forall_mem_cons.mp h).2

theorem opens_matcher {m : Matcher} (h : AllReadable m.matchers) : Opens m.doc.chars := by
  cases m with
  | «repeat» body min max separator =>
    have hatom := h.self.1
    rw [doc_repeat hatom, Doc.chars_append]
    exact ((opens_atom hatom h.parts.1.self).append _).opens
  | lookahead negated body =>
    rw [chars_lookahead]
    exact ⟨_, _, rfl, fun _ => by cases negated <;> decide⟩
  | predicate negated call =>
    rw [chars_predicate]
    exact ⟨_, _, rfl, fun _ => by cases negated <;> decide⟩
  | endOfInput =>
    rw [Matcher.doc]
    exact ⟨'!', ['.'], rfl, fun _ => by decide⟩
  | _ => exact (opens_atom rfl h.self).opens

theorem opens_element {m : Matcher} {capture : Option Capture} (h : AllReadable m.matchers)
    (he : (Element.mk m capture).Readable) : Opens (Element.mk m capture).doc.chars := by
  rw [Element.doc]
  cases capture with
  | none => exact opens_matcher h
  | some c => exact ((opens_word (he.var c rfl)).append _).opens

/-- Documents behind each other begin as the first does. -/
theorem opens_join {sep d : Doc} {ds : List Doc} (h : Opens d.chars) :
    Opens (Doc.join sep (d :: ds)).chars := by
  cases ds with
  | nil => exact h
  | cons e ds =>
    rw [Doc.chars_join_cons]
    exact h.append _

theorem opens_elements {es : List Element} (hne : es ≠ []) (h : AllReadable (elementsMatchers es))
    (hes : ∀ e ∈ es, e.Readable) : Opens (Doc.join Doc.space (elementDocs es)).chars := by
  match es, hne with
  | ⟨m, capture⟩ :: es, _ =>
    rw [elementsMatchers] at h
    rw [elementDocs]
    exact opens_join (opens_element (List.forall_mem_append.mp h).1 (hes _ List.mem_cons_self))

theorem opens_row {a : Alternative} (h : AllReadable a.matchers) (ha : a.Readable) :
    Opens a.doc.chars := by
  obtain ⟨es, result, type⟩ := a
  rw [Alternative.matchers] at h
  rw [Alternative.doc, chars_rowDoc]
  refine Opens.append ?_ _
  cases es with
  | nil =>
    rw [elementDocs]
    exact ⟨'(', [')'], rfl, fun _ => by decide⟩
  | cons e es =>
    have hne : (elementDocs (e :: es)).isEmpty = false := by
      rw [elementDocs]
      rfl
    rw [hne]
    exact opens_elements (List.cons_ne_nil e es) h ha.elements

/-! ## Signs of a row -/

/-- A text does not begin as an empty row does. -/
def Filled (cs : List Char) : Prop :=
  ∀ more, cs ≠ '(' :: ')' :: more

theorem filled_of_ne {c : Char} (h : c ≠ '(') (cs : List Char) : Filled (c :: cs) :=
  fun _ he => h (List.cons.inj he).1

/-- A choice has a row, which does not begin by a bracket that closes. -/
theorem filled_atom {m : Matcher} (hatom : m.isAtom = true) (h : AllReadable m.matchers)
    (rest : List Char) : Filled (m.doc.chars ++ rest) := by
  cases m with
  | literal value =>
    rw [chars_literal]
    exact filled_of_ne (by decide) _
  | «class» tests =>
    rw [chars_class]
    exact filled_of_ne (by decide) _
  | anyChar =>
    rw [Matcher.doc]
    exact filled_of_ne (by decide) _
  | call call =>
    rw [Matcher.doc, Doc.chars_mark]
    exact fun more => IsWord.ne h.self (by decide) rest _
  | choice choice =>
    obtain ⟨hne, hrows⟩ := h.self
    obtain ⟨as, result⟩ := choice
    match as, hne with
    | a :: as, _ =>
      rw [Matcher.matchers, Choice.matchers, alternativesMatchers] at h
      have ha := (List.forall_mem_append.mp (List.forall_mem_cons.mp h).2).1
      have hopens : Opens (Doc.join (Doc.space ++ (.text "/" ++ Doc.space))
          (alternativeDocs (a :: as))).chars := by
        rw [alternativeDocs]
        exact opens_join (opens_row ha (hrows a List.mem_cons_self))
      rw [chars_choice, List.cons_append]
      exact fun more he => ((hopens.append _).append _).ne (by decide) (by decide) more
        (List.cons.inj he).2
  | _ => cases hatom

theorem filled_matcher {m : Matcher} (h : AllReadable m.matchers) (rest : List Char) :
    Filled (m.doc.chars ++ rest) := by
  cases m with
  | «repeat» body min max separator =>
    have hatom := h.self.1
    rw [doc_repeat hatom, Doc.chars_append, List.append_assoc]
    exact filled_atom hatom h.parts.1 _
  | lookahead negated body =>
    rw [chars_lookahead]
    exact filled_of_ne (by cases negated <;> decide) _
  | predicate negated call =>
    rw [chars_predicate]
    exact filled_of_ne (by cases negated <;> decide) _
  | endOfInput =>
    rw [Matcher.doc]
    exact filled_of_ne (by decide) _
  | _ => exact filled_atom rfl h _

theorem filled_elements {es : List Element} (hne : es ≠ []) (h : AllReadable (elementsMatchers es))
    (hes : ∀ e ∈ es, e.Readable) (rest : List Char) :
    Filled ((Doc.join Doc.space (elementDocs es)).chars ++ rest) := by
  match es, hne with
  | ⟨m, capture⟩ :: es, _ =>
    rw [elementsMatchers] at h
    obtain ⟨hm, -⟩ := List.forall_mem_append.mp h
    have hfirst : ∀ rest, Filled ((Element.mk m capture).doc.chars ++ rest) := by
      intro rest
      rw [Element.doc]
      cases capture with
      | none => exact filled_matcher hm rest
      | some c =>
        have hvar := (hes _ List.mem_cons_self).var c rfl
        rw [capturedDoc, Doc.chars_append, List.append_assoc]
        exact fun more => hvar.ne (by decide) _ _
    rw [elementDocs]
    cases hes : elementDocs es with
    | nil => exact hfirst rest
    | cons d ds =>
      rw [Doc.chars_join_cons, List.append_assoc]
      exact hfirst _

/-- What is behind a name at the beginning of a text, if there is one, is not a colon. -/
def Unnamed (cs : List Char) : Prop :=
  ∀ var rest, readWord cs ≠ some (var, ':' :: rest)

theorem unnamed_sign {c : Char} (h : isSign c = true) (cs : List Char) : Unnamed (c :: cs) := by
  intro var rest
  rw [readWord_sign h]
  exact nofun

theorem unnamed_atom {m : Matcher} (hatom : m.isAtom = true) (h : m.Readable) {rest : List Char}
    (hrest : Parts rest) (hcolon : rest.head? ≠ some ':') : Unnamed (m.doc.chars ++ rest) := by
  cases m with
  | literal value =>
    rw [chars_literal]
    exact unnamed_sign (by decide) _
  | «class» tests =>
    rw [chars_class]
    exact unnamed_sign (by decide) _
  | anyChar =>
    rw [Matcher.doc]
    exact unnamed_sign (by decide) _
  | call call =>
    intro var more he
    rw [Matcher.doc, Doc.chars_mark, readWord_word h hrest] at he
    exact hcolon (by rw [(Prod.mk.inj (Option.some.inj he)).2]; rfl)
  | choice c =>
    rw [chars_choice]
    exact unnamed_sign (by decide) _
  | _ => exact nomatch hatom

theorem parts_suffix (min : Bound) (max : Option Bound) (separator : Option Doc) :
    ∃ c more, (repeatSuffix min max separator).chars = c :: more ∧ c ∈ ['?', '*', '+', '|'] := by
  cases separator with
  | some separator => exact ⟨'|', _, rfl, by decide⟩
  | none =>
    unfold repeatSuffix
    dsimp only
    split
    · exact ⟨'?', _, rfl, by decide⟩
    split
    · exact ⟨'*', _, rfl, by decide⟩
    split
    · exact ⟨'+', _, rfl, by decide⟩
    split
    · exact ⟨'|', _, rfl, by decide⟩
    · exact ⟨'|', _, rfl, by decide⟩

/-- A sign behind an atom ends it, and is no colon. -/
theorem parts_repeat (min : Bound) (max : Option Bound) (separator : Option Doc)
    (rest : List Char) : Parts ((repeatSuffix min max separator).chars ++ rest) ∧
      ((repeatSuffix min max separator).chars ++ rest).head? ≠ some ':' := by
  obtain ⟨c, more, hc, hmem⟩ := parts_suffix min max separator
  have hsign : isSign c = true := by
    simp only [List.mem_cons, List.not_mem_nil, or_false] at hmem
    rcases hmem with rfl | rfl | rfl | rfl <;> decide
  rw [hc]
  refine ⟨parts_cons hsign _, fun he => ?_⟩
  obtain rfl : c = ':' := Option.some.inj he
  exact absurd hmem (by decide)

theorem unnamed_matcher {m : Matcher} (h : AllReadable m.matchers) {rest : List Char}
    (hrest : Ends rest) : Unnamed (m.doc.chars ++ rest) := by
  cases m with
  | «repeat» body min max separator =>
    have hatom := h.self.1
    obtain ⟨hparts, hcolon⟩ := parts_repeat min max (separatorDoc separator) rest
    rw [doc_repeat hatom, Doc.chars_append, List.append_assoc]
    exact unnamed_atom hatom h.parts.1.self hparts hcolon
  | lookahead negated body =>
    rw [chars_lookahead]
    exact unnamed_sign (by cases negated <;> decide) _
  | predicate negated call =>
    rw [chars_predicate]
    exact unnamed_sign (by cases negated <;> decide) _
  | endOfInput =>
    rw [Matcher.doc]
    exact unnamed_sign (by decide) _
  | _ =>
    refine unnamed_atom rfl h.self hrest.parts fun hc => ?_
    rcases hrest ':' hc with he | he
    · exact absurd he (by decide)
    · exact absurd he (by decide)

theorem source_gist (m : Matcher) : m.gist.source = m.source := by
  cases m <;> rfl

/-! ## Repetitions -/

theorem readSuffix_ends (separator : Reader Matcher) (body : Matcher) {rest : List Char}
    (h : Ends rest) : readSuffix separator body rest = some (body, rest) := by
  rw [readSuffix]
  all_goals
    rintro cs rfl
    rcases h _ rfl with he | he <;> exact absurd he (by decide)

/-- A number is read in front of a sign. -/
theorem readNumber_sign (n : Nat) {c : Char} (hc : c.isDigit = false) (rest : List Char) :
    readNumber ((toString n).toList ++ c :: rest) = some (n, c :: rest) := by
  refine readNumber_digits n fun d hd => ?_
  obtain rfl := Option.some.inj hd
  exact hc

theorem readUpper_count (n : Nat) (rest : List Char) :
    readUpper ((toString n).toList ++ '|' :: rest) = some (some (.count n), rest) := by
  have hdigit : ∀ c ∈ (toString n).toList, c.isDigit = true := by
    intro c hc
    rw [Nat.toString_eq_ofList_toDigits, String.toList_ofList] at hc
    exact Nat.isDigit_of_mem_toDigits (by decide) (by decide) hc
  have hne : (toString n).toList ≠ [] := by
    rw [Nat.toString_eq_ofList_toDigits, String.toList_ofList]
    exact Nat.toDigits_ne_nil
  have hnumber := readNumber_sign n (c := '|') (by decide) rest
  obtain ⟨c, cs, hc⟩ := List.exists_cons_of_ne_nil hne
  have hbar : c ≠ '|' := by
    rintro rfl
    exact absurd (hdigit '|' (hc ▸ List.mem_cons_self)) (by decide)
  rw [hc, List.cons_append] at hnumber ⊢
  rw [readUpper]
  · rw [hnumber]
    rfl
  · exact fun _ he => hbar (List.cons.inj he).1

theorem exists_count {b : Bound} (h : b.isCount = true) : ∃ n, b = .count n := by
  cases b with
  | count n => exact ⟨n, rfl⟩
  | code _ => exact nomatch h

/-- The signs of a repetition without a separator are read. -/
theorem readSuffix_bounds (separator : Reader Matcher) (body : Matcher) (lo : Nat)
    {max : Option Bound} (hmax : ∀ b, max = some b → b.isCount = true) (rest : List Char) :
    readSuffix separator body ((repeatSuffix (.count lo) max none).chars ++ rest) =
      some (.repeat body (.count lo) max none, rest) := by
  unfold repeatSuffix
  dsimp only
  split
  next h =>
    simp only [Bool.and_eq_true, beq_iff_eq] at h
    obtain ⟨hlo, rfl⟩ := h
    rw [hlo]
    rfl
  split
  next h =>
    simp only [Bool.and_eq_true, beq_iff_eq] at h
    obtain ⟨hlo, rfl⟩ := h
    rw [hlo]
    rfl
  split
  next h =>
    simp only [Bool.and_eq_true, beq_iff_eq] at h
    obtain ⟨hlo, rfl⟩ := h
    rw [hlo]
    rfl
  split
  next h =>
    obtain rfl := beq_iff_eq.mp h
    have hbounds : ((Doc.text "|" ++ (Doc.text (Bound.count lo).shown ++ Doc.text "|")).chars ++
        rest) = '|' :: ((toString lo).toList ++ '|' :: rest) := by
      simp [Bound.shown]
    rw [hbounds, readSuffix, readNumber_sign lo (by decide)]
    rfl
  next =>
    have hbounds : ((Doc.text "|" ++ (Doc.text (Bound.count lo).shown ++ (Doc.text ".." ++
        (Doc.text ((max.map Bound.shown).getD "") ++ Doc.text "|")))).chars ++ rest) =
        '|' :: ((toString lo).toList ++ '.' :: '.' ::
          (((max.map Bound.shown).getD "").toList ++ '|' :: rest)) := by
      simp [Bound.shown]
    rw [hbounds, readSuffix, readNumber_sign lo (by decide), Option.bind_some]
    show (readUpper (((max.map Bound.shown).getD "").toList ++ '|' :: rest)).map _ = _
    match max, hmax with
    | none, _ => rfl
    | some (.count hi), _ =>
      show (readUpper ((toString hi).toList ++ '|' :: rest)).map _ = _
      rw [readUpper_count]
      rfl
    | some (.code _), hmax => exact nomatch hmax _ rfl

theorem readSuffix_separated {separator : Reader Matcher} {s s' : Matcher} {rest : List Char}
    (hread : separator (s.doc.chars ++ '|' :: rest) = some (s', '|' :: rest)) (body : Matcher)
    (lo : Nat) (max : Option Bound) :
    readSuffix separator body ((repeatSuffix (.count lo) max (some s.doc)).chars ++ rest) =
      some (.repeat body (.count lo) (some (.count lo)) (some s'), rest) := by
  have hbounds : (repeatSuffix (.count lo) max (some s.doc)).chars ++ rest =
      '|' :: ((toString lo).toList ++ ',' :: ' ' :: (s.doc.chars ++ '|' :: rest)) := by
    simp [repeatSuffix, Bound.shown]
  rw [hbounds, readSuffix, readNumber_sign lo (by decide), Option.bind_some]
  show readBounds separator body (.count lo) (',' :: ' ' :: (s.doc.chars ++ '|' :: rest)) = _
  rw [readBounds, hread]
  rfl

/-! ## Matchers -/

/-- An atom that has been read is the whole matcher, if no signs of a repetition follow. -/
theorem readMatcher_atom {m : Matcher} (hatom : m.isAtom = true) (h : m.Readable) {depth : Nat}
    {read : Matcher} {rest behind : List Char}
    (hread : readAtom (readRows depth) (m.doc.chars ++ rest) = some (read, behind)) :
    readMatcher (depth + 1) (m.doc.chars ++ rest) =
      readSuffix (readSeparator (readRows depth)) read behind := by
  have hopens := (opens_atom hatom h).append rest
  rw [readMatcher, hread]
  · rfl
  · exact hopens.ne (by decide) (by decide)
  · exact hopens.ne (by decide) (by decide)

/-- An atom stands alone where a matcher ends. -/
theorem readMatcher_alone {m : Matcher} (hatom : m.isAtom = true) (h : m.Readable) {depth : Nat}
    {read : Matcher} {rest : List Char}
    (hread : readAtom (readRows depth) (m.doc.chars ++ rest) = some (read, rest))
    (hrest : Ends rest) : readMatcher (depth + 1) (m.doc.chars ++ rest) = some (read, rest) := by
  rw [readMatcher_atom hatom h hread]
  exact readSuffix_ends _ _ hrest

/-- Behind the sign of a lookahead stands a matcher that is no call of a predicate. -/
theorem readChecked_matcher {m : Matcher} (h : AllReadable m.matchers) {depth : Nat}
    {matcher : Reader Matcher} {read : Matcher} {rest : List Char}
    (hread : matcher (m.doc.chars ++ rest) = some (read, rest)) (negated : Bool) :
    readChecked depth matcher negated (m.doc.chars ++ rest) =
      some (.lookahead negated read, rest) := by
  rw [readChecked, hread]
  · rfl
  · exact ((opens_matcher h).append rest).ne (by decide) (by decide)

theorem readMatcher_sign (depth : Nat) (negated : Bool) (cs : List Char) :
    readMatcher (depth + 1) ((if negated then '!' else '&') :: cs) =
      readChecked depth (readMatcher depth) negated cs := by
  cases negated with
  | false =>
    show readMatcher (depth + 1) ('&' :: cs) = _
    rw [readMatcher]
  | true =>
    show readMatcher (depth + 1) ('!' :: cs) = _
    rw [readMatcher]

theorem readSeparator_atom {m : Matcher} (hatom : m.isAtom = true) (h : m.Readable)
    (rows : Reader (List Alternative)) (rest : List Char) :
    readSeparator rows (m.doc.chars ++ rest) = readAtom rows (m.doc.chars ++ rest) := by
  rw [readSeparator]
  exact fun _ => ((opens_atom hatom h).append rest).ne (by decide) (by decide) _

/-- An element whose matcher is read. -/
theorem readElement_doc {m : Matcher} {capture : Option Capture} (h : AllReadable m.matchers)
    (he : (Element.mk m capture).Readable) {matcher : Reader Matcher} {rest : List Char}
    (hrest : Ends rest) (hread : matcher (m.doc.chars ++ rest) = some (m.gist, rest)) :
    readElement matcher ((Element.mk m capture).doc.chars ++ rest) =
      some (⟨m.gist, capture.map Capture.gist⟩, rest) := by
  rw [Element.doc]
  cases capture with
  | none =>
    have hunnamed := unnamed_matcher h hrest
    show readElement matcher (m.doc.chars ++ rest) = _
    unfold readElement
    split
    next hword => exact absurd hword (hunnamed _ _)
    next => rw [hread]; rfl
  | some c =>
    have hcaptured : (capturedDoc (some c) m.doc).chars ++ rest =
        c.var.toList ++ ':' :: (m.doc.chars ++ rest) := by
      simp [capturedDoc]
    obtain ⟨var, type, source⟩ := c
    obtain rfl : source = m.source := he.source _ rfl
    rw [hcaptured, readElement, readWord_word (he.var _ rfl) (parts_cons (by decide) _)]
    show (matcher (m.doc.chars ++ rest)).map _ = _
    rw [hread]
    show some (Element.mk m.gist (some ⟨var, .text, m.gist.source⟩), rest) = _
    rw [source_gist]
    rfl

/-- What stands behind the elements of a row is no element. -/
theorem ends_result (result : AltResult) {rest : List Char} (hrest : RowEnds rest) :
    Ends (resultChars result ++ rest) ∧ nextElement (resultChars result ++ rest) = none := by
  cases result with
  | consumed =>
    rcases hrest with ⟨more, rfl⟩ | ⟨more, rfl⟩
    · exact ⟨fun c hc => .inr (Option.some.inj hc).symm, rfl⟩
    · exact ⟨fun c hc => .inl (Option.some.inj hc).symm, rfl⟩
  | _ => exact ⟨fun c hc => .inl (Option.some.inj hc).symm, rfl⟩

theorem nextElement_opens {cs : List Char} (h : Opens cs) : nextElement (' ' :: cs) = some cs := by
  obtain ⟨c, more, rfl, hsign⟩ := h
  have hslash : c ≠ '/' := by
    rintro rfl
    exact absurd (hsign (by decide)) (by decide)
  have hequals : c ≠ '=' := by
    rintro rfl
    exact absurd (hsign (by decide)) (by decide)
  rw [nextElement, if_neg (by simp [hslash, hequals])]

mutual

/-- The text of a readable matcher is read as the gist of the matcher. -/
theorem read_matcher : ∀ (m : Matcher) {depth : Nat} {rest : List Char},
    AllReadable m.matchers → sizeOf m < depth → Ends rest →
      readMatcher depth (m.doc.chars ++ rest) = some (m.gist, rest)
  | _, 0, _, _, hdepth, _ => nomatch hdepth
  | .repeat body min max none, depth + 1, rest, h, hdepth, hrest => by
    obtain ⟨hatom, hmin, hmax, -⟩ := h.self
    rw [Matcher.repeat.sizeOf_spec] at hdepth
    obtain ⟨hparts, -⟩ := parts_repeat min max none rest
    have hread := read_atom body hatom h.parts.1 (show sizeOf body ≤ depth by omega) hparts
    obtain ⟨lo, rfl⟩ := exists_count hmin
    rw [doc_repeat hatom, separatorDoc, Doc.chars_append, List.append_assoc,
      readMatcher_atom hatom h.parts.1.self hread, Matcher.gist, separatorGist]
    exact readSuffix_bounds _ _ lo hmax rest
  | .repeat body min max (some s), depth + 1, rest, h, hdepth, hrest => by
    obtain ⟨hatom, hmin, -, hseparator⟩ := h.self
    obtain ⟨hunit, rfl⟩ := hseparator s rfl
    simp only [Matcher.repeat.sizeOf_spec, Option.some.sizeOf_spec] at hdepth
    obtain ⟨hparts, -⟩ := parts_repeat min (some min) (some s.doc) rest
    have hread := read_atom body hatom h.parts.1 (show sizeOf body ≤ depth by omega) hparts
    obtain ⟨lo, rfl⟩ := exists_count hmin
    have hs : AllReadable s.matchers := by
      have hinner := h.parts.2
      rwa [separatorMatchers] at hinner
    have hreadSeparator : ∀ rest, readSeparator (readRows depth) (s.doc.chars ++ '|' :: rest) =
        some (s.gist, '|' :: rest) := fun rest =>
      read_separator s hunit hs (show sizeOf s ≤ depth by omega)
    rw [doc_repeat hatom, separatorDoc, Doc.chars_append, List.append_assoc,
      readMatcher_atom hatom h.parts.1.self hread, Matcher.gist, separatorGist]
    exact readSuffix_separated (hreadSeparator rest) _ lo _
  | .lookahead negated body, depth + 1, rest, h, hdepth, hrest => by
    rw [Matcher.lookahead.sizeOf_spec] at hdepth
    rw [Matcher.matchers] at h
    have hbody : AllReadable body.matchers := (List.forall_mem_cons.mp h).2
    rw [chars_lookahead, List.cons_append, readMatcher_sign, Matcher.gist]
    exact readChecked_matcher hbody (read_matcher body hbody (by omega) hrest) negated
  | .predicate negated call, depth + 1, rest, h, hdepth, hrest => by
    rw [Matcher.predicate.sizeOf_spec] at hdepth
    have hcall : readCall depth (call.doc.chars ++ '\x7d' :: rest) = some (call, '\x7d' :: rest) := by
      obtain ⟨function, args⟩ := call
      rw [ActionCall.mk.sizeOf_spec] at hdepth
      exact readCall_doc h.self (by show sizeOf args ≤ depth; omega) _
    rw [chars_predicate, List.cons_append, readMatcher_sign, Matcher.gist, List.cons_append,
      List.append_assoc, readChecked]
    show (match readCall depth (call.doc.chars ++ '\x7d' :: rest) with
      | some (call, '\x7d' :: rest) => some (Matcher.predicate negated call, rest)
      | _ => none) = _
    rw [hcall]
    rfl
  | .endOfInput, depth + 1, rest, h, hdepth, hrest => by
    rw [Matcher.endOfInput.sizeOf_spec] at hdepth
    obtain ⟨depth, rfl⟩ : ∃ d, depth = d + 1 := ⟨depth - 1, by omega⟩
    have hchar : readAtom (readRows depth) (Matcher.anyChar.doc.chars ++ rest) =
        some (.anyChar, rest) := by
      rw [Matcher.doc]
      rfl
    have hany : readMatcher (depth + 1) (Matcher.anyChar.doc.chars ++ rest) =
        some (.anyChar, rest) :=
      readMatcher_alone rfl (show Matcher.anyChar.Readable from trivial) hchar hrest
    have hsingle : AllReadable Matcher.anyChar.matchers := by
      rw [Matcher.matchers]
      exact List.forall_mem_singleton.mpr trivial
    have hchecked : readChecked (depth + 1) (readMatcher (depth + 1)) true
        (Matcher.anyChar.doc.chars ++ rest) = some (.lookahead true .anyChar, rest) :=
      readChecked_matcher hsingle hany true
    have hdoc : Matcher.endOfInput.doc.chars ++ rest =
        (if true then '!' else '&') :: (Matcher.anyChar.doc.chars ++ rest) := by
      rw [Matcher.doc, Matcher.doc]
      rfl
    rw [hdoc, readMatcher_sign, Matcher.gist]
    exact hchecked
  | .literal value, depth + 1, rest, h, hdepth, hrest =>
    readMatcher_alone rfl h.self (read_atom (.literal value) rfl h (by omega) hrest.parts) hrest
  | .class tests, depth + 1, rest, h, hdepth, hrest =>
    readMatcher_alone rfl h.self (read_atom (.class tests) rfl h (by omega) hrest.parts) hrest
  | .anyChar, depth + 1, rest, h, hdepth, hrest =>
    readMatcher_alone rfl h.self (read_atom .anyChar rfl h (by omega) hrest.parts) hrest
  | .call call, depth + 1, rest, h, hdepth, hrest =>
    readMatcher_alone rfl h.self (read_atom (.call call) rfl h (by omega) hrest.parts) hrest
  | .choice c, depth + 1, rest, h, hdepth, hrest =>
    readMatcher_alone rfl h.self (read_atom (.choice c) rfl h (by omega) hrest.parts) hrest
termination_by m => 2 * sizeOf m + 1
decreasing_by all_goals simp +arith

theorem read_atom : ∀ (m : Matcher) {depth : Nat} {rest : List Char}, m.isAtom = true →
    AllReadable m.matchers → sizeOf m ≤ depth → Parts rest →
      readAtom (readRows depth) (m.doc.chars ++ rest) = some (m.gist, rest)
  | .literal value, depth, rest, _, h, _, _ => by
    rw [chars_literal, List.cons_append, List.append_assoc, readAtom, Matcher.gist]
    show (Text.readUntil '"' (value.toList.flatMap Text.quotedChar ++ '"' :: rest)).map _ = _
    rw [Text.readUntil_quoted, Option.map_some]
    show some (Matcher.literal (String.ofList value.toList), rest) = _
    rw [String.ofList_toList]
  | .class tests, depth, rest, _, h, _, _ => by
    have hclear : ClearClass tests := h.self
    rw [chars_class, List.cons_append, List.append_assoc, readAtom, Matcher.gist]
    show (Text.readUntil ']' ((tests.flatMap ClassTest.letters).flatMap Text.escapedChar ++
      ']' :: rest)).map _ = _
    rw [Text.readUntil_escaped hclear.bracket, Option.map_some]
    show some (Matcher.class (testsOf (tests.flatMap ClassTest.letters)), rest) = _
    rw [hclear.testsOf]
  | .anyChar, depth, rest, _, _, _, _ => by
    rw [Matcher.doc, Matcher.gist]
    rfl
  | .call call, depth, rest, _, h, _, hrest => by
    have hword : IsWord call.rule := h.self
    rw [Matcher.doc, Matcher.gist, Doc.chars_mark, readAtom, readWord_word hword hrest]
    · rfl
    all_goals exact hword.ne (by decide) rest
  | .choice ⟨as, result⟩, depth, rest, _, h, hdepth, _ => by
    obtain ⟨hne, hrows⟩ := h.self
    rw [Matcher.choice.sizeOf_spec, Choice.mk.sizeOf_spec] at hdepth
    rw [Matcher.matchers, Choice.matchers] at h
    have hread : readRows depth ((Doc.join (Doc.space ++ (.text "/" ++ Doc.space))
        (alternativeDocs as)).chars ++ ')' :: rest) = some (alternativesGist as, rest) :=
      read_rows as hne hrows (List.forall_mem_cons.mp h).2 (by omega)
    rw [chars_choice, List.cons_append, List.append_assoc, readAtom, Matcher.gist, Choice.gist]
    show (readRows depth ((Doc.join (Doc.space ++ (.text "/" ++ Doc.space))
      (alternativeDocs as)).chars ++ ')' :: rest)).map _ = _
    rw [hread]
    rfl
termination_by m => 2 * sizeOf m
decreasing_by simp +arith

theorem read_separator : ∀ (s : Matcher) {depth : Nat} {rest : List Char}, s.isUnit = true →
    AllReadable s.matchers → sizeOf s ≤ depth →
      readSeparator (readRows depth) (s.doc.chars ++ '|' :: rest) = some (s.gist, '|' :: rest)
  | .endOfInput, _, _, _, _, _ => by
    rw [Matcher.doc, Matcher.gist]
    rfl
  | .literal value, depth, rest, _, h, hdepth => by
    rw [readSeparator_atom rfl h.self]
    exact read_atom (.literal value) rfl h hdepth (parts_cons (by decide) rest)
  | .class tests, depth, rest, _, h, hdepth => by
    rw [readSeparator_atom rfl h.self]
    exact read_atom (.class tests) rfl h hdepth (parts_cons (by decide) rest)
  | .anyChar, depth, rest, _, h, hdepth => by
    rw [readSeparator_atom rfl h.self]
    exact read_atom .anyChar rfl h hdepth (parts_cons (by decide) rest)
  | .call call, depth, rest, _, h, hdepth => by
    rw [readSeparator_atom rfl h.self]
    exact read_atom (.call call) rfl h hdepth (parts_cons (by decide) rest)
  | .choice c, depth, rest, _, h, hdepth => by
    rw [readSeparator_atom rfl h.self]
    exact read_atom (.choice c) rfl h hdepth (parts_cons (by decide) rest)
termination_by s => 2 * sizeOf s + 1
decreasing_by all_goals simp +arith

theorem read_rows : ∀ (as : List Alternative) {depth : Nat} {rest : List Char}, as ≠ [] →
    (∀ a ∈ as, a.Readable) → AllReadable (alternativesMatchers as) → sizeOf as ≤ depth →
      readRows depth ((Doc.join (Doc.space ++ (.text "/" ++ Doc.space))
        (alternativeDocs as)).chars ++ ')' :: rest) = some (alternativesGist as, rest)
  | [a], depth, rest, _, has, h, hdepth => by
    rw [List.cons.sizeOf_spec] at hdepth
    obtain ⟨depth, rfl⟩ : ∃ d, depth = d + 1 := ⟨depth - 1, by omega⟩
    rw [alternativesMatchers] at h
    have hrow := read_row a (has a List.mem_cons_self) (List.forall_mem_append.mp h).1
      (show sizeOf a ≤ depth by omega) (.inl ⟨rest, rfl⟩)
    rw [readRows, alternativeDocs, alternativeDocs, Doc.chars_join_single, hrow, alternativesGist,
      alternativesGist]
    rfl
  | a :: b :: as, depth, rest, _, has, h, hdepth => by
    rw [List.cons.sizeOf_spec] at hdepth
    obtain ⟨depth, rfl⟩ : ∃ d, depth = d + 1 := ⟨depth - 1, by omega⟩
    obtain ⟨ha, has⟩ := List.forall_mem_cons.mp has
    rw [alternativesMatchers] at h
    obtain ⟨hfirst, hothers⟩ := List.forall_mem_append.mp h
    have hrest : readRows depth ((Doc.join (Doc.space ++ (.text "/" ++ Doc.space))
        (alternativeDocs (b :: as))).chars ++ ')' :: rest) =
          some (alternativesGist (b :: as), rest) :=
      read_rows (b :: as) (List.cons_ne_nil b as) has hothers (by omega)
    rw [alternativeDocs] at hrest
    have hrow := read_row a ha hfirst (show sizeOf a ≤ depth by omega)
      (.inr ⟨(Doc.join (Doc.space ++ (.text "/" ++ Doc.space))
        (b.doc :: alternativeDocs as)).chars ++ ')' :: rest, rfl⟩)
    rw [readRows, alternativeDocs, alternativeDocs, Doc.chars_join_cons, List.append_assoc,
      List.append_assoc, alternativesGist]
    show (readRow _ _ (a.doc.chars ++ ' ' :: '/' :: ' ' ::
      ((Doc.join (Doc.space ++ (.text "/" ++ Doc.space)) (b.doc :: alternativeDocs as)).chars ++
        ')' :: rest))).bind _ = _
    rw [hrow, Option.bind_some]
    show (readRows depth _).map _ = _
    rw [hrest]
    rfl
termination_by as => 2 * sizeOf as
decreasing_by all_goals simp +arith

theorem read_row : ∀ (a : Alternative) {depth : Nat} {rest : List Char}, a.Readable →
    AllReadable a.matchers → sizeOf a ≤ depth → RowEnds rest →
      readRow (readElements depth) (readResult depth) (a.doc.chars ++ rest) = some (a.gist, rest)
  | ⟨[], result, type⟩, depth, rest, ha, _, hdepth, hrest => by
    rw [Alternative.mk.sizeOf_spec] at hdepth
    have hresult : readResult depth (resultChars result ++ rest) = some (result, rest) :=
      readResult_chars ha.result (show sizeOf result ≤ depth by omega) hrest
    rw [Alternative.doc, chars_rowDoc, Alternative.gist, List.append_assoc, elementDocs,
      elementsGist]
    show (readResult depth (resultChars result ++ rest)).map _ = _
    rw [hresult]
    rfl
  | ⟨e :: es, result, type⟩, depth, rest, ha, h, hdepth, hrest => by
    rw [Alternative.mk.sizeOf_spec] at hdepth
    rw [Alternative.matchers] at h
    have hresult : readResult depth (resultChars result ++ rest) = some (result, rest) :=
      readResult_chars ha.result (show sizeOf result ≤ depth by omega) hrest
    obtain ⟨hends, hnext⟩ := ends_result result hrest
    have hread := read_elements (e :: es) (List.cons_ne_nil e es) ha.elements h
      (show sizeOf (e :: es) ≤ depth by omega) hends hnext
    have hfilled := filled_elements (List.cons_ne_nil e es) h ha.elements
      (resultChars result ++ rest)
    have hne : (elementDocs (e :: es)).isEmpty = false := by
      rw [elementDocs]
      rfl
    rw [Alternative.doc, chars_rowDoc, Alternative.gist, List.append_assoc, hne]
    show readRow _ _ ((Doc.join Doc.space (elementDocs (e :: es))).chars ++ _) = _
    rw [readRow, hread, Option.bind_some]
    · show (readResult depth (resultChars result ++ rest)).map _ = _
      rw [hresult]
      rfl
    · exact hfilled
termination_by a => 2 * sizeOf a
decreasing_by simp +arith

theorem read_elements : ∀ (es : List Element) {depth : Nat} {rest : List Char}, es ≠ [] →
    (∀ e ∈ es, e.Readable) → AllReadable (elementsMatchers es) → sizeOf es ≤ depth →
      Ends rest → nextElement rest = none →
      readElements depth ((Doc.join Doc.space (elementDocs es)).chars ++ rest) =
        some (elementsGist es, rest)
  | [⟨m, capture⟩], depth, rest, _, hes, h, hdepth, hrest, hnext => by
    rw [List.cons.sizeOf_spec, Element.mk.sizeOf_spec] at hdepth
    obtain ⟨depth, rfl⟩ : ∃ d, depth = d + 1 := ⟨depth - 1, by omega⟩
    rw [elementsMatchers] at h
    have hm := (List.forall_mem_append.mp h).1
    have hread := readElement_doc hm (hes _ List.mem_cons_self) hrest
      (read_matcher m hm (show sizeOf m < depth by omega) hrest)
    rw [readElements, elementDocs, elementDocs, Doc.chars_join_single, hread, Option.bind_some,
      elementsGist, elementsGist]
    simp only [hnext]
  | ⟨m, capture⟩ :: e :: es, depth, rest, _, hes, h, hdepth, hrest, hnext => by
    rw [List.cons.sizeOf_spec, Element.mk.sizeOf_spec] at hdepth
    obtain ⟨depth, rfl⟩ : ∃ d, depth = d + 1 := ⟨depth - 1, by omega⟩
    rw [elementsMatchers] at h
    obtain ⟨hm, hothers⟩ := List.forall_mem_append.mp h
    obtain ⟨hcapture, hes⟩ := List.forall_mem_cons.mp hes
    have hlater := read_elements (e :: es) (List.cons_ne_nil e es) hes hothers
      (show sizeOf (e :: es) ≤ depth by omega) hrest hnext
    have hopens := (opens_elements (List.cons_ne_nil e es) hothers hes).append rest
    have hspace : Ends (' ' :: ((Doc.join Doc.space (elementDocs (e :: es))).chars ++ rest)) :=
      fun c hc => .inl (Option.some.inj hc).symm
    have hread := readElement_doc hm hcapture hspace
      (read_matcher m hm (show sizeOf m < depth by omega) hspace)
    rw [elementDocs] at hlater hopens hread
    rw [readElements, elementDocs, elementDocs, Doc.chars_join_cons, List.append_assoc,
      List.append_assoc, elementsGist]
    show (readElement _ (_ ++ ' ' ::
      ((Doc.join Doc.space (e.doc :: elementDocs es)).chars ++ rest))).bind _ = _
    rw [hread, Option.bind_some]
    simp only [nextElement_opens hopens, hlater, Option.map_some]
termination_by es => 2 * sizeOf es
decreasing_by all_goals simp +arith

end

/-- Readable matchers that are printed alike have the same gist. -/
theorem gist_of_plain {m m' : Matcher} (h : AllReadable m.matchers) (h' : AllReadable m'.matchers)
    {width : Nat} (htext : m.doc.plain width = m'.doc.plain width) : m.gist = m'.gist := by
  have hchars : m.doc.chars = m'.doc.chars := by
    rw [← plain_matcher m width, htext, plain_matcher]
  have hends : Ends [] := fun c hc => nomatch hc
  have hdepth : sizeOf m < sizeOf m + sizeOf m' + 1 := by omega
  have hdepth' : sizeOf m' < sizeOf m + sizeOf m' + 1 := by omega
  have hread := read_matcher m h hdepth hends
  have hread' := read_matcher m' h' hdepth' hends
  rw [hchars, hread'] at hread
  exact (Prod.mk.inj (Option.some.inj hread)).1.symm

end Resolved

end PegCompiler
