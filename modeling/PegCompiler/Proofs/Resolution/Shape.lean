import PegCompiler.Proofs.Lowering.Identifiers
import PegCompiler.Proofs.Resolved.Readable
/-
  How resolved matchers are formed. Groups have alternatives, and what is repeated or stands
  between turns comes from an expression, so it is an atom or the end of the input; counted
  turns have something between them. Names of captures and of extracted functions are words,
  and a captured matcher tells by its kind where its value comes from.
-/

namespace PegCompiler

namespace Resolved

/-- A group has alternatives; what is repeated or stands between turns is an atom or the end of
the input, and turns with something between them are counted. -/
def Matcher.Formed : Matcher → Prop
  | .choice c => c.alternatives ≠ []
  | .repeat body min max separator => body.isUnit = true ∧
      ∀ s, separator = some s → s.isUnit = true ∧ max = some min
  | _ => True

/-- The rows of a group and the condition of a predicate can be read. -/
def Matcher.Named : Matcher → Prop
  | .choice c => ∀ a ∈ c.alternatives, a.Readable
  | .predicate _ condition => condition.Readable
  | _ => True

/-- No matcher of a list is formed otherwise. -/
def AllFormed (ms : List Matcher) : Prop :=
  ∀ m ∈ ms, m.Formed

theorem AllFormed.single {m : Matcher} (h : m.Formed) : AllFormed [m] :=
  List.forall_mem_singleton.mpr h

/-! ## Names of a well-typed parser -/

/-- Lower-case letters, digits and underscores are no characters of the notation. -/
theorem isSign_of_isSmall {c : Char} (h : Naming.isSmall c = true) : isSign c = false := by
  have hnone : signs.all (fun d => !Naming.isSmall d) = true := by decide
  refine Bool.eq_false_iff.mpr fun hsign => ?_
  have hsmall := List.all_eq_true.mp hnone c (List.contains_iff_mem.mp hsign)
  rw [h] at hsmall
  exact absurd hsmall (by decide)

/-- What is spelled as an identifier is a word. -/
theorem isWord_of_spelled {name : String} (h : Naming.Spelled name) : IsWord name := by
  obtain ⟨⟨n, hsmall⟩, c, cs, hname, -⟩ := h
  refine ⟨?_, fun d hd => isSign_of_isSmall (hsmall.chars d hd)⟩
  rw [hname]
  exact List.cons_ne_nil c cs

/-- Captures are kept in variables that are words. -/
def Worded (captures : List Capture) : Prop :=
  ∀ c ∈ captures, IsWord c.var

theorem Worded.holds {captures : List Capture} (h : Worded captures) {var : String}
    {type : ValueType} (hvar : Holds captures var type) : IsWord var := by
  obtain ⟨c, hc, rfl, -⟩ := hvar
  exact h c hc

/-- Where a captured matcher gets its value from can be seen from the matcher. -/
theorem source_of_gives {m : Matcher} {c : Capture} (h : m.Gives c) : c.source = m.source := by
  cases m with
  | choice choice =>
    obtain ⟨as, result⟩ := choice
    exact h.1
  | _ => exact h.1

section
variable {p : Parser}

theorem readable_elements : ∀ {es : List Element} {earlier : List Capture},
    elementsTyped p earlier es → ∀ e ∈ es, e.Readable
  | [], _, _, _, he => nomatch he
  | e :: rest, earlier, h, e', he => by
    obtain ⟨-, hcapture, hrest⟩ := elementsTyped_cons.mp h
    rcases List.mem_cons.mp he with rfl | he
    · constructor
      · intro c hc
        obtain ⟨-, i, q, hvar⟩ := hcapture c hc
        exact hvar ▸ isWord_of_spelled (Naming.spelled_captureVar i q)
      · exact fun c hc => source_of_gives (hcapture c hc).1
    · exact readable_elements hrest e' he

theorem worded_captures {es : List Element} (h : ∀ e ∈ es, e.Readable) :
    Worded (es.filterMap fun e => e.capture) := by
  intro c hc
  obtain ⟨e, he, hcapture⟩ := List.mem_filterMap.mp hc
  exact (h e he).var c hcapture

/-- Extracted functions have words as names. -/
def Parser.Worded (p : Parser) : Prop :=
  ∀ f ∈ p.actions, IsWord f.function

section
variable (hp : p.Worded)
include hp

theorem readable_call {call : ActionCall} {kind : ActionKind} {captures : List Capture}
    {type : ValueType} (h : call.Typed p kind captures type) (hcaptures : Worded captures) :
    call.Readable := by
  obtain ⟨f, hf, -, -, hargs⟩ := h
  constructor
  · rw [← beq_iff_eq.mp hf.holds]
    exact hp f hf.mem
  · intro arg harg
    obtain ⟨param, -, hholds⟩ := exists_right hargs harg
    exact hcaptures.holds hholds

theorem readable_result {result : AltResult} {captures : List Capture} {type : ValueType}
    (h : result.Typed p captures type) (hcaptures : Worded captures) : result.Readable := by
  cases result with
  | consumed => exact trivial
  | capture var => exact hcaptures.holds h
  | concat vars => exact ⟨h.2.1, fun var hvar => hcaptures.holds (h.2.2 var hvar)⟩
  | action call => exact readable_call hp h hcaptures

theorem readable_alternative {a : Alternative} (h : a.Typed p) : a.Readable := by
  obtain ⟨es, result, type⟩ := a
  rw [Alternative.Typed] at h
  obtain ⟨helements, -, hresult⟩ := h
  have hes := readable_elements helements
  exact ⟨readable_result hp hresult (worded_captures hes), hes⟩

theorem readable_alternatives : ∀ {as : List Alternative}, alternativesTyped p as →
    ∀ a ∈ as, a.Readable
  | [], _, _, ha => nomatch ha
  | b :: rest, h, a, ha => by
    obtain ⟨hb, hrest⟩ := h
    rcases List.mem_cons.mp ha with rfl | ha
    · exact readable_alternative hp hb
    · exact readable_alternatives hrest a ha

end

mutual

/-- The names in a well-typed matcher can be read. -/
theorem named_matcher (hp : p.Worded) : ∀ (m : Matcher) {earlier : List Capture},
    m.Typed p earlier → Worded earlier → ∀ inner ∈ m.matchers, inner.Named
  | .choice c, _, h, _ => by
    rw [Matcher.Typed] at h
    rw [Matcher.matchers]
    refine List.forall_mem_cons.mpr ⟨?_, named_choice hp c h⟩
    obtain ⟨as, result⟩ := c
    rw [Choice.Typed] at h
    exact readable_alternatives hp h.1
  | .repeat body min max separator, _, h, hearlier => by
    rw [Matcher.Typed] at h
    rw [Matcher.matchers]
    exact List.forall_mem_cons.mpr ⟨trivial, List.forall_mem_append.mpr
      ⟨named_matcher hp body h.1 hearlier, named_separator hp separator h.2 hearlier⟩⟩
  | .lookahead negated body, _, h, hearlier => by
    rw [Matcher.Typed] at h
    rw [Matcher.matchers]
    exact List.forall_mem_cons.mpr ⟨trivial, named_matcher hp body h hearlier⟩
  | .predicate negated call, _, h, hearlier => by
    rw [Matcher.Typed] at h
    rw [Matcher.matchers]
    exact List.forall_mem_singleton.mpr (readable_call hp h hearlier)
  | .literal _, _, _, _ | .class _, _, _, _ | .anyChar, _, _, _ | .endOfInput, _, _, _
  | .call _, _, _, _ => by
    rw [Matcher.matchers]
    exact List.forall_mem_singleton.mpr trivial

theorem named_separator (hp : p.Worded) : ∀ (separator : Option Matcher) {earlier : List Capture},
    separatorTyped p earlier separator → Worded earlier →
      ∀ inner ∈ separatorMatchers separator, inner.Named
  | none, _, _, _ => by
    rw [separatorMatchers]
    exact List.forall_mem_nil _
  | some m, _, h, hearlier => by
    rw [separatorTyped] at h
    rw [separatorMatchers]
    exact named_matcher hp m h hearlier

theorem named_choice (hp : p.Worded) : ∀ c : Choice, c.Typed p →
    ∀ inner ∈ c.matchers, inner.Named
  | ⟨as, _⟩, h => by
    rw [Choice.Typed] at h
    rw [Choice.matchers]
    exact named_alternatives hp as h.1

theorem named_alternatives (hp : p.Worded) : ∀ as : List Alternative,
    alternativesTyped p as → ∀ inner ∈ alternativesMatchers as, inner.Named
  | [], _ => by
    rw [alternativesMatchers]
    exact List.forall_mem_nil _
  | a :: rest, h => by
    rw [alternativesTyped] at h
    rw [alternativesMatchers]
    exact List.forall_mem_append.mpr ⟨named_alternative hp a h.1, named_alternatives hp rest h.2⟩

theorem named_alternative (hp : p.Worded) : ∀ a : Alternative, a.Typed p →
    ∀ inner ∈ a.matchers, inner.Named
  | ⟨es, _, _⟩, h => by
    rw [Alternative.Typed] at h
    rw [Alternative.matchers]
    exact named_elements hp es h.1 (fun _ hc => nomatch hc)

theorem named_elements (hp : p.Worded) : ∀ (es : List Element) {earlier : List Capture},
    elementsTyped p earlier es → Worded earlier → ∀ inner ∈ elementsMatchers es, inner.Named
  | [], _, _, _ => by
    rw [elementsMatchers]
    exact List.forall_mem_nil _
  | ⟨matcher, capture⟩ :: rest, earlier, h, hearlier => by
    rw [elementsTyped] at h
    obtain ⟨hm, hcapture, hrest⟩ := h
    have hlater : Worded (earlier ++ capture.toList) := by
      refine List.forall_mem_append.mpr ⟨hearlier, fun c hc => ?_⟩
      obtain ⟨-, i, q, hvar⟩ := hcapture c (Option.mem_toList.mp hc)
      exact hvar ▸ isWord_of_spelled (Naming.spelled_captureVar i q)
    rw [elementsMatchers]
    exact List.forall_mem_append.mpr
      ⟨named_matcher hp matcher hm hearlier, named_elements hp rest hrest hlater⟩

end

end

end Resolved

namespace Resolution

open Resolved (AllFormed Matcher alternativesMatchers elementsMatchers)

/-! ## What resolution forms -/

/-- Whatever is made is formed; an expression becomes an atom or the end of the input. -/
def forming : Relations where
  alternatives _ _ _ as rs _ := (as ≠ [] → rs ≠ []) ∧ AllFormed (alternativesMatchers rs)
  alternative _ _ _ r _ := AllFormed r.matchers
  elements _ _ _ _ _ rs _ _ := AllFormed (elementsMatchers rs)
  element _ _ _ r _ := AllFormed r.element.matcher.matchers
  quantified _ _ _ m _ := AllFormed m.matchers
  expr _ _ _ m _ := AllFormed m.matchers ∧ m.isUnit = true

theorem formed_choice {rs : List Resolved.Alternative} (result : Option String) (hne : rs ≠ [])
    (h : AllFormed (alternativesMatchers rs)) :
    AllFormed (Matcher.choice ⟨rs, result⟩).matchers := by
  rw [Matcher.matchers, Resolved.Choice.matchers]
  exact List.forall_mem_cons.mpr ⟨hne, h⟩

theorem forming_closed (env : Env) : forming.Closed env where
  noAlternatives := ⟨fun h => absurd rfl h, fun _ hm => nomatch hm⟩
  moreAlternatives {ctx i out a rest r rs mid out'} ha hrest := by
    refine ⟨fun _ => List.cons_ne_nil r rs, ?_⟩
    rw [alternativesMatchers]
    exact List.forall_mem_append.mpr ⟨ha, hrest.2⟩
  row {ctx out elements action es row mid result type out'} hes _ := by
    show AllFormed (Resolved.Alternative.mk es result type).matchers
    rw [Resolved.Alternative.matchers]
    exact hes
  noElements := fun _ hm => nomatch hm
  moreElements {ctx position row out e rest r rs row' mid out'} he hrest := by
    obtain ⟨⟨matcher, capture⟩, label, rule, plucked⟩ := r
    show AllFormed (elementsMatchers (⟨matcher, capture⟩ :: rs))
    rw [elementsMatchers]
    exact List.forall_mem_append.mpr ⟨he, hrest⟩
  predicate {ctx out negated p call out'} _ := by
    show AllFormed (Matcher.predicate negated call).matchers
    rw [Matcher.matchers]
    exact .single trivial
  lookahead {ctx out negated body m out'} h := by
    show AllFormed (Matcher.lookahead negated m).matchers
    rw [Matcher.matchers]
    exact List.forall_mem_cons.mpr ⟨trivial, h⟩
  reference _ _ := by
    show AllFormed _
    rw [matcher_keptIf, Matcher.matchers]
    exact .single trivial
  group _ hne h _ := by
    show AllFormed _
    rw [matcher_keptIf]
    exact formed_choice _ (h.1 hne) h.2
  item _ _ h := by
    show AllFormed _
    rw [matcher_keptIf]
    exact h
  once h := h.1
  repeated {ctx out expr quantifier min max m out'} h _ := by
    show AllFormed (Matcher.repeat m min max none).matchers
    rw [Matcher.matchers, Resolved.separatorMatchers, List.append_nil]
    exact List.forall_mem_cons.mpr ⟨⟨h.2, fun _ hs => nomatch hs⟩, h.1⟩
  separated {ctx out expr separator m s mid out' count} h _ hs := by
    show AllFormed (Matcher.repeat m _ _ (some s)).matchers
    rw [Matcher.matchers, Resolved.separatorMatchers]
    refine List.forall_mem_cons.mpr ⟨⟨h.2, ?_⟩, List.forall_mem_append.mpr ⟨h.1, hs.1⟩⟩
    rintro _ ⟨⟩
    exact ⟨hs.2, rfl⟩
  literal := ⟨by rw [Matcher.matchers]; exact .single trivial, rfl⟩
  charClass _ := ⟨by rw [Matcher.matchers]; exact .single trivial, rfl⟩
  ruleRef _ := ⟨by rw [Matcher.matchers]; exact .single trivial, rfl⟩
  anyChar := ⟨by rw [Matcher.matchers]; exact .single trivial, rfl⟩
  endOfInput := ⟨by rw [Matcher.matchers]; exact .single trivial, rfl⟩
  nested hne h := ⟨formed_choice none (h.1 hne) h.2, rfl⟩

section
variable {g : Grammar} {types : ActionTypes} {p : Resolved.Parser}

/-- The matchers of a rule are formed, and their names can be read. -/
theorem formed_of_resolve (h : resolve g types = .ok p) {rule : Resolved.Rule}
    (hrule : rule ∈ p.rules) : ∀ m ∈ rule.body.matchers, m.Formed ∧ m.Named := by
  obtain ⟨-, out, hrules, -⟩ := of_resolve h
  have hall : List.Forall₂ (fun _ r => AllFormed r.body.matchers) g.rules p.rules := by
    refine forall₂_of_rules (fun hstep _ => ?_) hrules
    obtain ⟨-, rs, hrs, -, rfl⟩ := of_resolveRule hstep
    show AllFormed (Resolved.Choice.mk rs _).matchers
    rw [Resolved.Choice.matchers]
    exact ((forming_closed _).alternatives _ hrs).2
  have hfunctions : p.Worded := fun f hf =>
    Resolved.isWord_of_spelled (Lowering.spelled_functionNames h f.function
      (List.mem_append_right _ (List.mem_map_of_mem hf)))
  have hnamed : ∀ m ∈ rule.body.matchers, m.Named := by
    have htyped := ((typed_of_resolve h).rules rule hrule).rows
    obtain ⟨id, function, start, type, ⟨as, result⟩⟩ := rule
    rw [Resolved.Choice.matchers]
    exact Resolved.named_alternatives hfunctions as htyped
  obtain ⟨_, _, hformed⟩ := exists_left hall hrule
  exact fun m hm => ⟨hformed m hm, hnamed m hm⟩

end

end Resolution

end PegCompiler
