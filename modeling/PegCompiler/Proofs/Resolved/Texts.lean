import PegCompiler.Proofs.Layout.Chars
import PegCompiler.Proofs.Text.Lines
import PegCompiler.Resolved.Printer
/-
  The texts that resolved grammars are printed with, and the characters of what is printed.
  Literals and classes are printed quoted, and what is quoted consists of printable ASCII
  and characters of the text itself; everything else is printed as it is.
-/

namespace PegCompiler

open Layout (Common Doc Page Uses)

/-! ## Quoted texts -/

namespace Text

variable {P : Char → Prop}

theorem range_hexDigits (n : Nat) : ∀ c ∈ Nat.toDigits 16 n, 0x20 ≤ c.toNat ∧ c.toNat ≤ 0x7E := by
  have hdigit : ∀ d < 16, 0x20 ≤ (Nat.digitChar d).toNat ∧ (Nat.digitChar d).toNat ≤ 0x7E := by
    decide
  induction n using Nat.strongRecOn with
  | ind n ih =>
    by_cases hn : n < 16
    · rw [Nat.toDigits_of_lt_base hn]
      exact List.forall_mem_singleton.mpr (hdigit n hn)
    · rw [Nat.toDigits_of_base_le (by decide) (Nat.le_of_not_lt hn)]
      exact List.forall_mem_append.mpr ⟨ih (n / 16) (Nat.div_lt_self (by omega) (by decide)),
        List.forall_mem_singleton.mpr (hdigit (n % 16) (Nat.mod_lt n (by decide)))⟩

theorem forall_codeEscape (hP : Common P) (c : Char) : ∀ d ∈ codeEscape c, P d := by
  refine List.forall_mem_append.mpr ⟨List.forall_mem_append.mpr ⟨?_, ?_⟩, ?_⟩
  · exact hP.fixed (by decide)
  · exact fun d hd => hP d (range_hexDigits c.toNat d hd)
  · exact hP.fixed (by decide)

theorem forall_quotedChar (hP : Common P) {c : Char} (h : P c) : ∀ d ∈ quotedChar c, P d := by
  unfold quotedChar
  repeat' split
  all_goals first
    | exact hP.fixed (by decide)
    | exact List.forall_mem_singleton.mpr h
    | exact forall_codeEscape hP c

theorem forall_escapedChar (hP : Common P) {c : Char} (h : P c) : ∀ d ∈ escapedChar c, P d := by
  unfold escapedChar
  repeat' split
  all_goals first
    | exact hP.fixed (by decide)
    | exact List.forall_mem_singleton.mpr h
    | exact forall_codeEscape hP c

theorem uses_quoted (hP : Common P) {s : String} (h : Uses P s) : Uses P (quoted s) := by
  refine Uses.ofList (List.forall_mem_append.mpr ⟨List.forall_mem_append.mpr ⟨?_, ?_⟩, ?_⟩)
  · exact hP.fixed (by decide)
  · intro d hd
    obtain ⟨c, hc, hd⟩ := List.mem_flatMap.mp hd
    exact forall_quotedChar hP (h c hc) d hd
  · exact hP.fixed (by decide)

theorem uses_escaped (hP : Common P) {s : String} (h : Uses P s) : Uses P (escaped s) := by
  refine Uses.ofList fun d hd => ?_
  obtain ⟨c, hc, hd⟩ := List.mem_flatMap.mp hd
  exact forall_escapedChar hP (h c hc) d hd

end Text

namespace Resolved

/-! ## Texts -/

def ValueType.texts : ValueType → List String
  | .text => []
  | .declared name => [name]

def Bound.texts : Bound → List String
  | .count _ => []
  | .code expr => [expr]

def ClassTest.texts : ClassTest → List String
  | .set chars => [chars]
  | .range bottom top => [String.ofList [bottom], String.ofList [top]]

def ActionCall.texts (call : ActionCall) : List String :=
  call.function :: call.args

def AltResult.texts : AltResult → List String
  | .consumed => []
  | .capture var => [var]
  | .concat vars => vars
  | .action call => call.texts

mutual

/-- The texts that a matcher is printed with. -/
def Matcher.texts : Matcher → List String
  | .literal value => [value]
  | .class tests => tests.flatMap ClassTest.texts
  | .anyChar | .endOfInput => []
  | .call call => [call.rule]
  | .choice choice => choice.texts
  | .repeat body min max separator =>
    body.texts ++ (min.texts ++ ((max.map Bound.texts).getD [] ++ separatorTexts separator))
  | .lookahead _ body => body.texts
  | .predicate _ call => call.texts

def separatorTexts : Option Matcher → List String
  | none => []
  | some m => m.texts

/-- The texts that a choice is printed with. -/
def Choice.texts : Choice → List String
  | ⟨alternatives, _⟩ => alternativesTexts alternatives

def alternativesTexts : List Alternative → List String
  | [] => []
  | a :: rest => a.texts ++ alternativesTexts rest

/-- The texts that a row is printed with. -/
def Alternative.texts : Alternative → List String
  | ⟨elements, result, _⟩ => elementsTexts elements ++ result.texts

def elementsTexts : List Element → List String
  | [] => []
  | e :: rest => e.texts ++ elementsTexts rest

/-- The texts that an element is printed with. -/
def Element.texts : Element → List String
  | ⟨matcher, capture⟩ => (capture.map fun c => c.var).toList ++ matcher.texts

end

def Rule.texts (r : Rule) : List String :=
  r.id :: r.function :: (r.resultType.texts ++ r.body.texts)

def Param.texts (p : Param) : List String :=
  p.name :: p.type.texts

def Action.texts (a : Action) : List String :=
  a.function :: a.code :: (a.resultType.texts ++ a.params.flatMap Param.texts)

/-- The texts that a parser is printed with. -/
def Parser.texts (p : Parser) : List String :=
  p.rules.flatMap Rule.texts ++ p.actions.flatMap Action.texts

section
variable {P : Char → Prop}

/-! ## Parts of rows -/

theorem uses_bound (hP : Common P) {b : Bound} (h : ∀ s ∈ b.texts, Uses P s) : Uses P b.shown := by
  cases b with
  | count n => exact .digits hP n
  | code expr =>
    exact ((Uses.fixed hP (by decide)).append (List.forall_mem_singleton.mp h)).append
      (.fixed hP (by decide))

theorem uses_classTest (hP : Common P) {t : ClassTest} (h : ∀ s ∈ t.texts, Uses P s) :
    Uses P t.shown := by
  cases t with
  | set chars => exact Text.uses_escaped hP (List.forall_mem_singleton.mp h)
  | range bottom top =>
    obtain ⟨hbottom, htop⟩ := List.forall_mem_cons.mp h
    exact ((Text.uses_escaped hP hbottom).append (.fixed hP (by decide))).append
      (Text.uses_escaped hP (List.forall_mem_singleton.mp htop))

theorem written_actionCall (hP : Common P) {call : ActionCall} (h : ∀ s ∈ call.texts, Uses P s) :
    call.doc.Written P := by
  obtain ⟨hfunction, hargs⟩ := List.forall_mem_cons.mp h
  refine .append (.text hfunction) (.parens hP (.join ?_ ?_))
  · exact .append (.fixed hP (by decide)) (.space hP)
  · exact List.forall_mem_map.mpr fun s hs => .text (hargs s hs)

theorem written_altResult (hP : Common P) {r : AltResult} (h : ∀ s ∈ r.texts, Uses P s) :
    r.doc.Written P := by
  cases r with
  | consumed => exact .fixed hP (by decide)
  | capture var => exact .text (h var (List.mem_singleton_self _))
  | concat vars =>
    refine .join (.spaced hP (.append (.fixed hP (by decide)) (.space hP))) ?_
    exact List.forall_mem_map.mpr fun s hs => .text (h s hs)
  | action call => exact written_actionCall hP h

theorem written_repeatSuffix (hP : Common P) {min : Bound} {max : Option Bound}
    {separator : Option Doc} (hmin : ∀ s ∈ min.texts, Uses P s)
    (hmax : ∀ s ∈ (max.map Bound.texts).getD [], Uses P s)
    (hseparator : ∀ d ∈ separator, d.Written P) :
    (repeatSuffix min max separator).Written P := by
  have hbar : (Doc.text "|").Written P := .fixed hP (by decide)
  have hlower : (Doc.text min.shown).Written P := .text (uses_bound hP hmin)
  have hupper : (Doc.text ((max.map Bound.shown).getD "")).Written P := by
    cases max with
    | none => exact .fixed hP (by decide)
    | some max => exact .text (uses_bound hP hmax)
  cases separator with
  | some separator =>
    refine .append hbar (.append hlower (.append (.fixed hP (by decide)) (.spaced hP ?_)))
    exact .append (hseparator _ rfl) hbar
  | none =>
    -- signs for the common bounds, one bound, or both
    unfold repeatSuffix
    dsimp only
    split
    · exact .fixed hP (by decide)
    split
    · exact .fixed hP (by decide)
    split
    · exact .fixed hP (by decide)
    split
    · exact .append hbar (.append hlower hbar)
    · exact .append hbar (.append hlower (.append (.fixed hP (by decide)) (.append hupper hbar)))

theorem written_lookaheadSign (hP : Common P) (negated : Bool) :
    (lookaheadSign negated).Written P := by
  cases negated with
  | true => exact .fixed hP (by decide)
  | false => exact .fixed hP (by decide)

theorem written_rowDoc (hP : Common P) {elements : List Doc}
    (helements : ∀ d ∈ elements, d.Written P) {result : AltResult}
    (hresult : ∀ s ∈ result.texts, Uses P s) : (rowDoc elements result).Written P := by
  have hrow : (if elements.isEmpty then .text "()" else Doc.join Doc.space elements).Written P := by
    split
    · exact .fixed hP (by decide)
    · exact .join (.space hP) helements
  have hvalue : result.doc.Written P := written_altResult hP hresult
  cases result with
  | consumed => exact hrow
  | _ =>
    refine .append hrow (.spaced hP (.append (.fixed hP (by decide)) (.spaced hP ?_)))
    exact hvalue

theorem written_choiceDoc (hP : Common P) {alternatives : List Doc}
    (h : ∀ d ∈ alternatives, d.Written P) : (choiceDoc alternatives).Written P :=
  .parens hP (.join (.spaced hP (.append (.fixed hP (by decide)) (.space hP))) h)

theorem written_capturedDoc (hP : Common P) {capture : Option Capture} {matcher : Doc}
    (hcapture : ∀ s ∈ (capture.map fun c => c.var).toList, Uses P s) (h : matcher.Written P) :
    (capturedDoc capture matcher).Written P := by
  cases capture with
  | none => exact h
  | some capture =>
    exact .append (.text (hcapture capture.var (List.mem_singleton_self _)))
      (.append (.fixed hP (by decide)) h)

/-! ## Matchers -/

mutual

theorem written_matcher (hP : Common P) : ∀ (m : Matcher), (∀ s ∈ m.texts, Uses P s) →
    m.doc.Written P
  | .literal value, h => by
    rw [Matcher.doc]
    exact .mark .literal (Text.uses_quoted hP (h value (List.mem_singleton_self _)))
  | .class tests, h => by
    have hjoin : Uses P (String.join (tests.map ClassTest.shown)) := by
      intro c hc
      rw [String.toList_join, List.flatMap_map] at hc
      obtain ⟨t, ht, hc⟩ := List.mem_flatMap.mp hc
      exact uses_classTest hP (fun s hs => h s (List.mem_flatMap.mpr ⟨t, ht, hs⟩)) c hc
    rw [Matcher.doc]
    exact .mark .literal (((Uses.fixed hP (by decide)).append hjoin).append
      (.fixed hP (by decide)))
  | .anyChar, _ => by
    rw [Matcher.doc]
    exact .fixed hP (by decide)
  | .endOfInput, _ => by
    rw [Matcher.doc]
    exact .append (.fixed hP (by decide)) (.fixed hP (by decide))
  | .call call, h => by
    rw [Matcher.doc]
    exact .mark .rule (h call.rule (List.mem_singleton_self _))
  | .choice choice, h => by
    rw [Matcher.doc]
    exact written_choice hP choice h
  | .repeat body min max separator, h => by
    obtain ⟨hbody, h⟩ := List.forall_mem_append.mp h
    obtain ⟨hmin, h⟩ := List.forall_mem_append.mp h
    obtain ⟨hmax, hseparator⟩ := List.forall_mem_append.mp h
    have hdoc : body.doc.Written P := written_matcher hP body hbody
    have hfront : (if body.isCompound then body.doc.parens else body.doc).Written P := by
      split
      · exact hdoc.parens hP
      · exact hdoc
    rw [Matcher.doc]
    refine .append hfront (written_repeatSuffix hP hmin hmax ?_)
    exact written_separator hP separator hseparator
  | .lookahead negated body, h => by
    rw [Matcher.doc]
    exact .append (written_lookaheadSign hP negated) (written_matcher hP body h)
  | .predicate negated call, h => by
    rw [Matcher.doc]
    exact .append (written_lookaheadSign hP negated) ((written_actionCall hP h).braces hP)

theorem written_separator (hP : Common P) : ∀ (separator : Option Matcher),
    (∀ s ∈ separatorTexts separator, Uses P s) → ∀ d ∈ separatorDoc separator, d.Written P
  | none, _ => by
    rw [separatorDoc]
    exact fun _ h => nomatch h
  | some m, h => by
    rw [separatorDoc]
    rintro _ ⟨⟩
    exact written_matcher hP m h

theorem written_choice (hP : Common P) : ∀ (c : Choice), (∀ s ∈ c.texts, Uses P s) →
    c.doc.Written P
  | ⟨alternatives, _⟩, h => by
    rw [Choice.doc]
    exact written_choiceDoc hP (written_alternatives hP alternatives h)

theorem written_alternatives (hP : Common P) : ∀ (as : List Alternative),
    (∀ s ∈ alternativesTexts as, Uses P s) → ∀ d ∈ alternativeDocs as, d.Written P
  | [], _ => by
    rw [alternativeDocs]
    exact List.forall_mem_nil _
  | a :: rest, h => by
    obtain ⟨ha, hrest⟩ := List.forall_mem_append.mp h
    rw [alternativeDocs]
    exact List.forall_mem_cons.mpr ⟨written_alternative hP a ha, written_alternatives hP rest hrest⟩

theorem written_alternative (hP : Common P) : ∀ (a : Alternative), (∀ s ∈ a.texts, Uses P s) →
    a.doc.Written P
  | ⟨elements, result, _⟩, h => by
    obtain ⟨helements, hresult⟩ := List.forall_mem_append.mp h
    rw [Alternative.doc]
    exact written_rowDoc hP (written_elements hP elements helements) hresult

theorem written_elements (hP : Common P) : ∀ (es : List Element),
    (∀ s ∈ elementsTexts es, Uses P s) → ∀ d ∈ elementDocs es, d.Written P
  | [], _ => by
    rw [elementDocs]
    exact List.forall_mem_nil _
  | e :: rest, h => by
    obtain ⟨he, hrest⟩ := List.forall_mem_append.mp h
    rw [elementDocs]
    exact List.forall_mem_cons.mpr ⟨written_element hP e he, written_elements hP rest hrest⟩

theorem written_element (hP : Common P) : ∀ (e : Element), (∀ s ∈ e.texts, Uses P s) →
    e.doc.Written P
  | ⟨matcher, capture⟩, h => by
    obtain ⟨hcapture, hmatcher⟩ := List.forall_mem_append.mp h
    rw [Element.doc]
    exact written_capturedDoc hP hcapture (written_matcher hP matcher hmatcher)

end

/-! ## Rules and parsers -/

theorem written_typedDoc (hP : Common P) {type : ValueType} (h : ∀ s ∈ type.texts, Uses P s) :
    (typedDoc type).Written P := by
  have hspec : Uses P type.spec := by
    cases type with
    | text => exact .fixed hP (by decide)
    | declared name => exact List.forall_mem_singleton.mp h
  exact .spaced hP (.append (.fixed hP (by decide)) (.spaced hP (.mark .type hspec)))

theorem alternative_texts {a : Alternative} {c : Choice} (ha : a ∈ c.alternatives) :
    a.texts ⊆ c.texts := by
  obtain ⟨alternatives, result⟩ := c
  show a.texts ⊆ alternativesTexts alternatives
  induction alternatives with
  | nil => exact nomatch ha
  | cons b rest ih =>
    rw [alternativesTexts]
    rcases List.mem_cons.mp ha with rfl | ha
    · exact List.subset_append_left _ _
    · exact List.subset_append_of_subset_right _ (ih ha)

theorem written_rule (hP : Common P) {page : Page} {r : Rule} (h : ∀ s ∈ r.texts, Uses P s) :
    (r.doc page).Written P := by
  obtain ⟨hid, h⟩ := List.forall_mem_cons.mp h
  obtain ⟨hfunction, h⟩ := List.forall_mem_cons.mp h
  obtain ⟨htype, hbody⟩ := List.forall_mem_append.mp h
  have hrow : ∀ (op : String), (Doc.text op).Written P → ∀ a ∈ r.body.alternatives,
      (Doc.text op ++ (Doc.space ++ a.doc)).Written P := fun op hop a ha =>
    .append hop (.spaced hP (written_alternative hP a fun s hs =>
      hbody s (alternative_texts ha hs)))
  have hhead : (if r.start then Doc.keyword "start" ++ Doc.space else .nil).Written P := by
    split
    · exact .append (.keyword hP (by decide)) (.space hP)
    · exact .nil
  refine .append hhead (.append (.mark .rule hid) (.spaced hP (.append
    (.parens hP (.mark .comment hfunction)) (.append (written_typedDoc hP htype)
      (.nest _ (.append .line (.lines ?_)))))))
  split
  · exact List.forall_mem_nil _
  · next a rest has =>
    rw [has] at hrow
    refine List.forall_mem_cons.mpr ⟨hrow "<-" (.fixed hP (by decide)) a List.mem_cons_self, ?_⟩
    exact List.forall_mem_map.mpr fun b hb =>
      hrow "/" (.fixed hP (by decide)) b (List.mem_cons_of_mem _ hb)

theorem written_action (hP : Common P) {page : Page} {a : Action} (h : ∀ s ∈ a.texts, Uses P s) :
    (a.doc page).Written P := by
  obtain ⟨hfunction, h⟩ := List.forall_mem_cons.mp h
  obtain ⟨hcode, h⟩ := List.forall_mem_cons.mp h
  obtain ⟨htype, hparams⟩ := List.forall_mem_append.mp h
  have hparam : ∀ p ∈ a.params, (Doc.text p.name ++ typedDoc p.type).Written P := by
    intro p hp
    obtain ⟨hname, hptype⟩ := List.forall_mem_cons.mp fun s hs =>
      hparams s (List.mem_flatMap.mpr ⟨p, hp, hs⟩)
    exact .append (.text hname) (written_typedDoc hP hptype)
  have hlines : ∀ line ∈ Text.lines (Text.trim a.code.toList),
      (Doc.text (String.ofList (Text.trimEnd line))).Written P := by
    intro line hmem
    refine .text (.ofList fun c hc => hcode c ?_)
    exact Text.trim_subset _ (Text.subset_of_mem_lines hmem (Text.trimEnd_subset _ hc))
  refine .append ?_ (.spaced hP (.append (.text hfunction) (.append (.parens hP (.join ?_ ?_))
    (.append (written_typedDoc hP htype) (.spaced hP (.append (.fixed hP (by decide))
      (.append (.nest _ (.append .line (.lines ?_))) (.append .line (.fixed hP (by decide))))))))))
  · cases a.kind with
    | action => exact .keyword hP (by decide)
    | predicate => exact .keyword hP (by decide)
  · exact .append (.fixed hP (by decide)) (.space hP)
  · exact List.forall_mem_map.mpr hparam
  · exact List.forall_mem_map.mpr hlines

theorem written_parserDoc (hP : Common P) {page : Page} {p : Parser} (h : ∀ s ∈ p.texts, Uses P s) :
    (p.doc page).Written P := by
  obtain ⟨hrules, hactions⟩ := List.forall_mem_append.mp h
  refine .append (.join (.append .line .line) (List.forall_mem_append.mpr ⟨?_, ?_⟩)) .line
  · exact List.forall_mem_map.mpr fun r hr => written_rule hP fun s hs =>
      hrules s (List.mem_flatMap.mpr ⟨r, hr, hs⟩)
  · exact List.forall_mem_map.mpr fun a ha => written_action hP fun s hs =>
      hactions s (List.mem_flatMap.mpr ⟨a, ha, hs⟩)

end

end Resolved

end PegCompiler
