import PegCompiler.Proofs.Semantics.Resolved
/-
  What is essential about a matcher. Types, the functions of called rules and the variables
  of choices play no part in matching; characters of a class may be tested one by one; and
  the end of the input is where no character can be matched. The gist of a matcher is what
  remains without such differences, and it matches what the matcher does (`run_gist`).
-/

namespace PegCompiler

namespace Resolved

open Semantics (checked consumed stopChar stopEnd)

/-- The tests of single characters and ranges that a test stands for. -/
def ClassTest.singles : ClassTest → List ClassTest
  | .set chars => chars.toList.map fun c => .set (String.ofList [c])
  | .range bottom top => [.range bottom top]

/-- A capture without its type. -/
def Capture.gist (c : Capture) : Capture :=
  { c with type := .text }

mutual

/-- What is essential about a matcher. -/
def Matcher.gist : Matcher → Matcher
  | .literal value => .literal value
  | .class tests => .class (tests.flatMap ClassTest.singles)
  | .anyChar => .anyChar
  | .endOfInput => .lookahead true .anyChar
  | .call call => .call ⟨call.rule, "", .text⟩
  | .choice c => .choice c.gist
  | .repeat body min max separator => .repeat body.gist min max (separatorGist separator)
  | .lookahead negated body => .lookahead negated body.gist
  | .predicate negated call => .predicate negated call

/-- That of a separator, if there is one. -/
def separatorGist : Option Matcher → Option Matcher
  | none => none
  | some m => some m.gist

/-- That of a choice. -/
def Choice.gist : Choice → Choice
  | ⟨alternatives, _⟩ => ⟨alternativesGist alternatives, none⟩

/-- That of alternatives. -/
def alternativesGist : List Alternative → List Alternative
  | [] => []
  | a :: rest => a.gist :: alternativesGist rest

/-- That of a row. -/
def Alternative.gist : Alternative → Alternative
  | ⟨elements, result, _⟩ => ⟨elementsGist elements, result, .text⟩

/-- That of elements. -/
def elementsGist : List Element → List Element
  | [] => []
  | ⟨matcher, capture⟩ :: rest => ⟨matcher.gist, capture.map Capture.gist⟩ :: elementsGist rest

end

section
variable {V : Type} {M : Machine V}

/-- The end of the input is where no character matches. -/
theorem stopEnd_eq (input : List Char) (pos : Nat) :
    stopEnd input pos = if (stopChar input (fun _ => true) pos).isNone then some pos else none := by
  unfold stopEnd stopChar
  by_cases h : input.length ≤ pos
  · rw [List.getElem?_eq_none h]
    exact if_pos h
  · rw [List.getElem?_eq_getElem (Nat.lt_of_not_le h)]
    exact if_neg h

theorem any_singles (c : Char) (t : ClassTest) :
    t.singles.any (ClassTest.holds c) = t.holds c := by
  cases t with
  | set chars =>
    rw [ClassTest.singles, List.any_map, ClassTest.holds, List.contains_eq_any_beq]
    refine congrArg (chars.toList.any ·) (funext fun d => ?_)
    show (String.ofList [d]).toList.contains c = (c == d)
    rw [String.toList_ofList, List.contains_cons, List.contains_nil, Bool.or_false]
  | range bottom top => exact Bool.or_false _

theorem any_flatMap_singles (c : Char) (tests : List ClassTest) :
    (tests.flatMap ClassTest.singles).any (ClassTest.holds c) = tests.any (ClassTest.holds c) := by
  rw [List.any_flatMap]
  exact congrArg (tests.any ·) (funext fun t => any_singles c t)

theorem keep_gist (env : Captured V) (start stop : Nat) (value : V) (capture : Option Capture) :
    Capture.keep M env start stop value (capture.map Capture.gist) =
      Capture.keep M env start stop value capture := by
  rcases capture with _ | ⟨var, type, _ | _⟩ <;> rfl

mutual

/-- A matcher and its gist match alike. -/
theorem run_gist (env : Captured V) : ∀ m : Matcher, m.gist.run M env = m.run M env
  | .literal _ => by
    rw [Matcher.gist]
  | .class tests => by
    funext pos
    simp only [Matcher.gist, Matcher.run, any_flatMap_singles]
  | .anyChar => by
    rw [Matcher.gist]
  | .endOfInput => by
    funext pos
    rw [Matcher.gist, Matcher.run, Matcher.run, Matcher.run, stopEnd_eq, Option.map_some, checked]
    cases stopChar M.input (fun _ => true) pos <;> rfl
  | .call _ => by
    funext pos
    rw [Matcher.gist, Matcher.run, Matcher.run]
  | .choice c => by
    rw [Matcher.gist, Matcher.run_choice, Matcher.run_choice, run_choiceGist c]
  | .repeat body _ _ separator => by
    rw [Matcher.gist, Matcher.run_repeat, Matcher.run_repeat, run_gist env body,
      run_separatorGist env separator]
  | .lookahead _ body => by
    rw [Matcher.gist, Matcher.run_lookahead, Matcher.run_lookahead, run_gist env body]
  | .predicate _ _ => by
    rw [Matcher.gist]

theorem run_separatorGist (env : Captured V) : ∀ separator : Option Matcher,
    runSeparator M env (separatorGist separator) = runSeparator M env separator
  | none => by
    rw [separatorGist]
  | some m => by
    funext pos
    rw [separatorGist, runSeparator, runSeparator, run_gist env m]

theorem run_choiceGist : ∀ c : Choice, c.gist.run M = c.run M
  | ⟨alternatives, _⟩ => by
    rw [Choice.gist, Choice.run_eq, Choice.run_eq]
    exact run_alternativesGist alternatives

theorem run_alternativesGist : ∀ as : List Alternative,
    runAlternatives M (alternativesGist as) = runAlternatives M as
  | [] => by
    rw [alternativesGist]
  | a :: rest => by
    funext pos
    rw [alternativesGist, runAlternatives, runAlternatives, run_alternativeGist a,
      run_alternativesGist rest]

theorem run_alternativeGist : ∀ a : Alternative, a.gist.run M = a.run M
  | ⟨elements, _, _⟩ => by
    funext pos
    rw [Alternative.gist, Alternative.run, Alternative.run, run_elementsGist [] elements]

theorem run_elementsGist (env : Captured V) : ∀ es : List Element,
    runElements M env (elementsGist es) = runElements M env es
  | [] => by
    rw [elementsGist]
  | ⟨matcher, capture⟩ :: rest => by
    funext pos
    have hrest (env : Captured V) := run_elementsGist env rest
    simp only [elementsGist, runElements, run_gist env matcher, keep_gist, hrest]

end

/-- Matchers of one gist match alike. -/
theorem run_of_gist {m m' : Matcher} (h : m.gist = m'.gist) (env : Captured V) :
    m.run M env = m'.run M env := by
  rw [← run_gist, h, run_gist]

end

end Resolved

end PegCompiler
