import PegCompiler.Resolved.Syntax
/-
  The matchers in a matcher. They are listed from the outside in, with the matcher itself in
  front, so that a property of every part of a rule is one of the members of a list.
-/

namespace PegCompiler.Resolved

mutual

/-- A matcher and all matchers in it. -/
def Matcher.matchers : Matcher → List Matcher
  | .choice c => .choice c :: c.matchers
  | .repeat body min max separator =>
    .repeat body min max separator :: (body.matchers ++ separatorMatchers separator)
  | .lookahead negated body => .lookahead negated body :: body.matchers
  | .literal value => [.literal value]
  | .class tests => [.class tests]
  | .anyChar => [.anyChar]
  | .endOfInput => [.endOfInput]
  | .call call => [.call call]
  | .predicate negated call => [.predicate negated call]

/-- Those in a separator, if there is one. -/
def separatorMatchers : Option Matcher → List Matcher
  | none => []
  | some m => m.matchers

/-- All matchers in a choice. -/
def Choice.matchers : Choice → List Matcher
  | ⟨alternatives, _⟩ => alternativesMatchers alternatives

/-- Those in alternatives. -/
def alternativesMatchers : List Alternative → List Matcher
  | [] => []
  | a :: rest => a.matchers ++ alternativesMatchers rest

/-- Those in a row. -/
def Alternative.matchers : Alternative → List Matcher
  | ⟨elements, _, _⟩ => elementsMatchers elements

/-- Those in elements. -/
def elementsMatchers : List Element → List Matcher
  | [] => []
  | ⟨matcher, _⟩ :: rest => matcher.matchers ++ elementsMatchers rest

end

theorem alternativesMatchers_append : ∀ as bs : List Alternative,
    alternativesMatchers (as ++ bs) = alternativesMatchers as ++ alternativesMatchers bs
  | [], _ => by rw [alternativesMatchers]; rfl
  | a :: as, bs => by
    rw [List.cons_append, alternativesMatchers, alternativesMatchers_append as bs,
      alternativesMatchers, List.append_assoc]

theorem elementsMatchers_append : ∀ es fs : List Element,
    elementsMatchers (es ++ fs) = elementsMatchers es ++ elementsMatchers fs
  | [], _ => by rw [elementsMatchers]; rfl
  | ⟨matcher, capture⟩ :: es, fs => by
    rw [List.cons_append, elementsMatchers, elementsMatchers_append es fs, elementsMatchers,
      List.append_assoc]

end PegCompiler.Resolved
