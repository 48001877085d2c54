import PegCompiler.Proofs.Lowering.Legible
import PegCompiler.Proofs.Resolution.Meaning
import PegCompiler.Proofs.Resolution.Shape
import PegCompiler.Proofs.Resolved.Agreement
import PegCompiler.Proofs.Resolved.ReadBack
/-
  When PEG notation tells matchers apart. What resolution makes is formed and named so that
  its text can be read back, if no bound is code, ids are free of the characters of the
  notation, and two things are avoided that are written like others (`Matcher.Clear`):

  1. the end of the input is written as a lookahead without brackets around it, so a
     repetition of it looks like a lookahead of a repetition (`doc_repeatedEnd`), which
     matches nowhere when the repetition matches everywhere (`run_repeatedEnd`);
  2. a hyphen between two characters of a class is written like the one between the ends of
     a range (`shown_hyphen`), and a bracket in it like the one that closes the class.

  Matchers that are not of these kinds and are written alike match alike, also where the
  parsers around them differ by them (`matches_of_plain`).
-/

namespace PegCompiler

namespace Resolved

open Semantics (Outcome consumed repetition slice stopEnd turn turns)

/-! ## Bounds -/

mutual

/-- The code of bounds in a matcher is in what is around it. -/
theorem boundCodes_matcher : ∀ m : Matcher, ∀ inner ∈ m.matchers, inner.boundCodes ⊆ m.boundCodes
  | .choice c => by
    rw [Matcher.matchers]
    refine List.forall_mem_cons.mpr ⟨List.Subset.refl _, ?_⟩
    rw [Matcher.boundCodes]
    exact boundCodes_choice c
  | .repeat body min max separator => by
    rw [Matcher.matchers]
    refine List.forall_mem_cons.mpr ⟨List.Subset.refl _, ?_⟩
    rw [Matcher.boundCodes]
    refine List.forall_mem_append.mpr ⟨fun inner hinner => ?_, fun inner hinner => ?_⟩
    · exact List.subset_append_of_subset_right _ (List.subset_append_of_subset_right _
        (boundCodes_matcher body inner hinner))
    · exact List.subset_append_of_subset_right _ (List.subset_append_of_subset_left _
        (boundCodes_separator separator inner hinner))
  | .lookahead negated body => by
    rw [Matcher.matchers]
    refine List.forall_mem_cons.mpr ⟨List.Subset.refl _, ?_⟩
    rw [Matcher.boundCodes]
    exact boundCodes_matcher body
  | .literal _ | .class _ | .anyChar | .endOfInput | .call _ | .predicate _ _ => by
    rw [Matcher.matchers]
    exact List.forall_mem_singleton.mpr (List.Subset.refl _)

theorem boundCodes_separator : ∀ separator : Option Matcher,
    ∀ inner ∈ separatorMatchers separator, inner.boundCodes ⊆ separatorBoundCodes separator
  | none => by
    rw [separatorMatchers]
    exact List.forall_mem_nil _
  | some m => by
    rw [separatorMatchers, separatorBoundCodes]
    exact boundCodes_matcher m

theorem boundCodes_choice : ∀ c : Choice, ∀ inner ∈ c.matchers, inner.boundCodes ⊆ c.boundCodes
  | ⟨as, _⟩ => by
    rw [Choice.matchers, Choice.boundCodes]
    exact boundCodes_alternatives as

theorem boundCodes_alternatives : ∀ as : List Alternative,
    ∀ inner ∈ alternativesMatchers as, inner.boundCodes ⊆ alternativesBoundCodes as
  | [] => by
    rw [alternativesMatchers]
    exact List.forall_mem_nil _
  | a :: rest => by
    rw [alternativesMatchers, alternativesBoundCodes]
    exact List.forall_mem_append.mpr
      ⟨fun inner hinner => List.subset_append_of_subset_left _
        (boundCodes_alternative a inner hinner),
      fun inner hinner => List.subset_append_of_subset_right _
        (boundCodes_alternatives rest inner hinner)⟩

theorem boundCodes_alternative : ∀ a : Alternative,
    ∀ inner ∈ a.matchers, inner.boundCodes ⊆ a.boundCodes
  | ⟨es, _, _⟩ => by
    rw [Alternative.matchers, Alternative.boundCodes]
    exact boundCodes_elements es

theorem boundCodes_elements : ∀ es : List Element,
    ∀ inner ∈ elementsMatchers es, inner.boundCodes ⊆ elementsBoundCodes es
  | [] => by
    rw [elementsMatchers]
    exact List.forall_mem_nil _
  | ⟨matcher, capture⟩ :: rest => by
    rw [elementsMatchers, elementsBoundCodes, Element.boundCodes]
    exact List.forall_mem_append.mpr
      ⟨fun inner hinner => List.subset_append_of_subset_left _
        (boundCodes_matcher matcher inner hinner),
      fun inner hinner => List.subset_append_of_subset_right _
        (boundCodes_elements rest inner hinner)⟩

end

theorem isCount_of_codes {b : Bound} (h : b.codes = []) : b.isCount = true := by
  cases b with
  | count n => rfl
  | code expr => exact nomatch h

/-- Where no bound is code, bounds are numbers. -/
theorem isCount_of_boundCodes {body : Matcher} {min : Bound} {max : Option Bound}
    {separator : Option Matcher} (h : (Matcher.repeat body min max separator).boundCodes = []) :
    min.isCount = true ∧ ∀ b, max = some b → b.isCount = true := by
  rw [Matcher.boundCodes] at h
  have hcodes := List.flatMap_eq_nil_iff.mp (List.append_eq_nil_iff.mp h).1
  refine ⟨isCount_of_codes (hcodes min List.mem_cons_self), ?_⟩
  rintro b rfl
  exact isCount_of_codes (hcodes b (List.mem_cons_of_mem _ (Option.mem_toList.mpr rfl)))

/-! ## Clear notation -/

/-- Whether a matcher is the end of the input. -/
def Matcher.isEnd : Matcher → Bool
  | .endOfInput => true
  | _ => false

/-- A matcher is not written like another one: classes are clear, ids have no characters of the
notation, and the end of the input is not repeated. -/
def Matcher.Clear : Matcher → Prop
  | .class tests => ClearClass tests
  | .call target => IsWord target.rule
  | .repeat body _ _ _ => body.isEnd = false
  | _ => True

theorem isAtom_of_isUnit {m : Matcher} (h : m.isUnit = true) (hend : m.isEnd = false) :
    m.isAtom = true := by
  cases m with
  | endOfInput => exact nomatch hend
  | _ => exact h

theorem readable_of_clear {m : Matcher} (hformed : m.Formed) (hnamed : m.Named)
    (hbounds : m.boundCodes = []) (hclear : m.Clear) : m.Readable := by
  cases m with
  | choice c => exact ⟨hformed, hnamed⟩
  | «repeat» body min max separator =>
    obtain ⟨hmin, hmax⟩ := isCount_of_boundCodes hbounds
    exact ⟨isAtom_of_isUnit hformed.1 hclear, hmin, hmax, hformed.2⟩
  | «class» tests => exact hclear
  | call target => exact hclear
  | predicate negated call => exact hnamed
  | _ => exact trivial

/-! ## Notation that is not clear -/

/-- A repetition of the end of the input is written like a lookahead. -/
theorem doc_repeatedEnd (min : Bound) (max : Option Bound) (separator : Option Matcher) :
    (Matcher.repeat .endOfInput min max separator).doc.chars =
      (Matcher.lookahead true (.repeat .anyChar min max separator)).doc.chars := by
  rw [chars_lookahead, Matcher.doc, Matcher.doc, Matcher.doc, Matcher.doc]
  rfl

/-- A hyphen between characters of a class is written like that of a range. -/
theorem shown_hyphen (bottom top : Char) :
    (ClassTest.set (String.ofList [bottom, '-', top])).shown =
      (ClassTest.range bottom top).shown := by
  rw [← String.toList_inj, toList_shown, toList_shown, ClassTest.letters, ClassTest.letters,
    String.toList_ofList]

section
variable {V : Type} (M : Machine V) (env : Captured V) (pos : Nat)

/-- With nothing in between, a turn is a match. -/
theorem turn_alone (m : Matcher) (first : Bool) (q : Nat) :
    turn (runSeparator M env none) (m.run M env) first q =
      (m.run M env q).map Outcome.stop? := by
  cases first with
  | true => rfl
  | false =>
    unfold turn
    rw [runSeparator]
    rfl

/-- Turns come to an end if each of them does. -/
theorem exists_turns {bounded : Bool} {one : Bool → Nat → Option (Option Nat)}
    (h : ∀ first q, (one first q).isSome) : ∀ left count q : Nat,
      ∃ count' stop, turns bounded one left count q = some (count', stop)
  | 0, count, q => ⟨count, q, rfl⟩
  | left + 1, count, q => by
    obtain ⟨stop, hstop⟩ := Option.isSome_iff_exists.mp (h (count == 0) q)
    rw [turns, hstop]
    cases stop with
    | none => exact ⟨count, q, rfl⟩
    | some stop =>
      dsimp only [Option.bind_eq_bind, Option.bind_some]
      split
      · exact ⟨count + 1, stop, rfl⟩
      · exact exists_turns h left (count + 1) stop

/-- Without bounds, a repetition matches up to where its turns come. -/
theorem run_unbounded {body : Matcher} {count stop : Nat}
    (h : turns false (turn (runSeparator M env none) (body.run M env)) (M.input.length - pos + 1)
      0 pos = some (count, stop)) :
    (Matcher.repeat body (.count 0) none none).run M env pos =
      some (.matched stop (M.host.ofText (slice M.input pos stop))) := by
  have hmin : ¬ ((count : Int) < Bound.value M.host pos (.count 0)) := by simp [Bound.value]
  rw [Matcher.run, repetition]
  show (turns false _ (M.input.length - pos + 1) 0 pos).bind _ = _
  rw [h]
  show some (consumed _ _ _ (if (count : Int) < _ then none else some stop)) = _
  rw [if_neg hmin, consumed]

/-- Repeated as often as it matches, the end of the input matches everywhere, and what is
written like it nowhere. -/
theorem run_repeatedEnd :
    (Matcher.repeat .endOfInput (.count 0) none none).run M env pos =
        some (.matched pos (M.host.ofText (slice M.input pos pos))) ∧
      (Matcher.lookahead true (.repeat .anyChar (.count 0) none none)).run M env pos =
        some .failed := by
  constructor
  · have hend : turn (runSeparator M env none) (Matcher.endOfInput.run M env) true pos =
        some (stopEnd M.input pos) := by
      rw [turn_alone, Matcher.run]
      cases stopEnd M.input pos <;> rfl
    -- at the end there is a turn that consumes nothing, in front of it there is none
    have hturns : ∃ count, turns false (turn (runSeparator M env none)
        (Matcher.endOfInput.run M env)) (M.input.length - pos + 1) 0 pos = some (count, pos) := by
      rw [turns]
      show ∃ count, Option.bind (turn _ _ true pos) _ = some (count, pos)
      rw [hend, stopEnd]
      split
      · exact ⟨1, by simp⟩
      · exact ⟨0, rfl⟩
    obtain ⟨count, hturns⟩ := hturns
    exact run_unbounded M env pos hturns
  · have hturn : ∀ first q,
        (turn (runSeparator M env none) (Matcher.anyChar.run M env) first q).isSome := by
      intro first q
      rw [turn_alone, Matcher.run]
      rfl
    obtain ⟨count, stop, hturns⟩ := exists_turns hturn (M.input.length - pos + 1) 0 pos
    have hrepeat := run_unbounded M env pos hturns
    rw [Matcher.run, hrepeat]
    rfl

end

end Resolved

namespace Resolution

open Resolved (AllReadable Captured Matcher Parser)
open Semantics (Host)

section
variable {g g' : Grammar} {types types' : ActionTypes} {p p' : Parser} {m m' : Matcher}

/-- At the place where two parsers differ, the text of a clear matcher can be read. -/
theorem readable_of_resolve (h : resolve g types = .ok p) (hbounds : p.boundCodes = [])
    (hagree : Parser.AgreeBut m m' p p') (hclear : ∀ inner ∈ m.matchers, inner.Clear) :
    AllReadable m.matchers := by
  obtain ⟨rule, hrule, hsubset⟩ := hagree.left
  have hcodes : rule.body.boundCodes = [] := List.flatMap_eq_nil_iff.mp hbounds rule hrule
  intro inner hinner
  obtain ⟨hformed, hnamed⟩ := formed_of_resolve h hrule inner (hsubset hinner)
  have hnone : inner.boundCodes = [] := List.subset_nil.mp
    (hcodes ▸ Resolved.boundCodes_choice rule.body inner (hsubset hinner))
  exact Resolved.readable_of_clear hformed hnamed hnone (hclear inner hinner)

/-- **Clear notation is unambiguous.** Two parsers without code in bounds agree except for the
matcher of one uncaptured element, and the two matchers are clear; if they are written alike,
they match alike. -/
theorem matches_of_plain (h : resolve g types = .ok p) (h' : resolve g' types' = .ok p')
    (hbounds : p.boundCodes = []) (hbounds' : p'.boundCodes = [])
    (hagree : Parser.AgreeBut m m' p p') (hclear : ∀ inner ∈ m.matchers, inner.Clear)
    (hclear' : ∀ inner ∈ m'.matchers, inner.Clear) {width : Nat}
    (htext : m.doc.plain width = m'.doc.plain width) {V : Type} (H : Host V) (input : List Char)
    (depth : Nat) (env : Captured V) (pos : Nat) :
    m.run (p.machine H input depth) env pos = m'.run (p'.machine H input depth) env pos := by
  have hgist : m.gist = m'.gist :=
    Resolved.gist_of_plain (readable_of_resolve h hbounds hagree hclear)
      (readable_of_resolve h' hbounds' hagree.symm hclear') htext
  have hrun : ∀ (M : Resolved.Machine V) env, m.run M env = m'.run M env :=
    fun _ => Resolved.run_of_gist hgist
  rw [← hagree.machine H input hrun depth, hrun]

end

/-- A letter in a group, and an element that says what comes behind it. -/
def followed (last : Grammar.Element) : Grammar where
  rules := [⟨"s", true, [⟨[.item false none ⟨.group [⟨[.item false none ⟨.literal "a", .one⟩, last],
    none⟩], .one⟩], none⟩]⟩]

def followedParser (last : Matcher) : Parser where
  rules := [⟨"s", "peg_s", true, .text, ⟨[⟨[⟨.choice ⟨[⟨[⟨.literal "a", none⟩, ⟨last, none⟩],
    .consumed, .text⟩], none⟩, none⟩], .consumed, .text⟩], some "res"⟩⟩]
  actions := []

/-- The end of the input, and that no character follows, are both written as `!.`. -/
theorem followed_alike :
    resolve (followed (.item false none ⟨.endOfInput, .one⟩)) {} =
        .ok (followedParser .endOfInput) ∧
      resolve (followed (.check true (.lookahead ⟨.anyChar, .one⟩))) {} =
        .ok (followedParser (.lookahead true .anyChar)) ∧
      Matcher.endOfInput.doc.plain 80 = (Matcher.lookahead true .anyChar).doc.plain 80 ∧
      Matcher.endOfInput.run ((followedParser .endOfInput).machine texts "a".toList 2) [] 1 =
        (Matcher.lookahead true .anyChar).run
          ((followedParser (.lookahead true .anyChar)).machine texts "a".toList 2) [] 1 ∧
      Matcher.endOfInput.run ((followedParser .endOfInput).machine texts "a".toList 2) [] 1 =
        some (.matched 1 []) := by
  have hend : resolve (followed (.item false none ⟨.endOfInput, .one⟩)) {} =
      .ok (followedParser .endOfInput) := by cbv
  have hnone : resolve (followed (.check true (.lookahead ⟨.anyChar, .one⟩))) {} =
      .ok (followedParser (.lookahead true .anyChar)) := by cbv
  have hagree : Parser.AgreeBut .endOfInput (.lookahead true .anyChar)
      (followedParser .endOfInput) (followedParser (.lookahead true .anyChar)) :=
    .rule none none [] [] [] _ (.row (.element (.within (.choice (.row
      (.element .here [⟨.literal "a", none⟩] [] .consumed .text) [] [] none)) none) [] []
      .consumed .text) [] [] (some "res"))
  have htext : Matcher.endOfInput.doc.plain 80 = (Matcher.lookahead true .anyChar).doc.plain 80 :=
    by cbv
  have hclear : ∀ inner ∈ Matcher.endOfInput.matchers, inner.Clear := by
    simp [Matcher.matchers, Matcher.Clear]
  have hclear' : ∀ inner ∈ (Matcher.lookahead true .anyChar).matchers, inner.Clear := by
    simp [Matcher.matchers, Matcher.Clear]
  refine ⟨hend, hnone, htext, ?_, ?_⟩
  · exact matches_of_plain hend hnone (by cbv) (by cbv) hagree hclear hclear' htext texts _ _ _ _
  · cbv

end Resolution

end PegCompiler
