import PegCompiler.Proofs.Layout.Inline
import PegCompiler.Resolved.Printer
/-
  Matchers stand on one line. Only rules and extracted functions are broken into lines, so
  what a matcher is printed as does not depend on the width of the page
  (`plain_matcher`).
-/

namespace PegCompiler

namespace Resolved

open Layout (Doc)

theorem inline_actionCall (call : ActionCall) : call.doc.Inline :=
  .append (.text _) (.parens (.join (.append (.text _) .space)
    (List.forall_mem_map.mpr fun s _ => .text s)))

theorem inline_altResult (r : AltResult) : r.doc.Inline := by
  cases r with
  | consumed => exact .text _
  | capture var => exact .text var
  | concat vars =>
    exact .join (.append .space (.append (.text _) .space))
      (List.forall_mem_map.mpr fun s _ => .text s)
  | action call => exact inline_actionCall call

theorem inline_repeatSuffix (min : Bound) (max : Option Bound) {separator : Option Doc}
    (h : ∀ d ∈ separator, d.Inline) : (repeatSuffix min max separator).Inline := by
  cases separator with
  | some separator =>
    exact .append (.text _) (.append (.text _) (.append (.text _)
      (.append .space (.append (h _ rfl) (.text _)))))
  | none =>
    unfold repeatSuffix
    dsimp only
    split
    · exact .text _
    split
    · exact .text _
    split
    · exact .text _
    split
    · exact .append (.text _) (.append (.text _) (.text _))
    · exact .append (.text _) (.append (.text _) (.append (.text _)
        (.append (.text _) (.text _))))

theorem inline_rowDoc {elements : List Doc} (h : ∀ d ∈ elements, d.Inline) (result : AltResult) :
    (rowDoc elements result).Inline := by
  have hrow : (if elements.isEmpty then .text "()" else Doc.join Doc.space elements).Inline := by
    split
    · exact .text _
    · exact .join .space h
  cases result with
  | consumed => exact hrow
  | _ => exact .append hrow (.append .space (.append (.text _) (.append .space (inline_altResult _))))

mutual

theorem inline_matcher : ∀ m : Matcher, m.doc.Inline
  | .literal _ => by
    rw [Matcher.doc]
    exact .mark _ _
  | .class _ => by
    rw [Matcher.doc]
    exact .mark _ _
  | .anyChar => by
    rw [Matcher.doc]
    exact .text _
  | .endOfInput => by
    rw [Matcher.doc]
    exact .append (.text _) (.text _)
  | .call _ => by
    rw [Matcher.doc]
    exact .mark _ _
  | .choice choice => by
    rw [Matcher.doc]
    exact inline_choice choice
  | .repeat body min max separator => by
    have hbody : body.doc.Inline := inline_matcher body
    have hfront : (if body.isCompound then body.doc.parens else body.doc).Inline := by
      split
      · exact hbody.parens
      · exact hbody
    rw [Matcher.doc]
    exact .append hfront (inline_repeatSuffix min max (inline_separator separator))
  | .lookahead negated body => by
    rw [Matcher.doc]
    exact .append (.text _) (inline_matcher body)
  | .predicate negated call => by
    rw [Matcher.doc]
    exact .append (.text _) (inline_actionCall call).braces

theorem inline_separator : ∀ separator : Option Matcher, ∀ d ∈ separatorDoc separator, d.Inline
  | none => by
    rw [separatorDoc]
    exact fun _ h => nomatch h
  | some m => by
    rw [separatorDoc]
    rintro _ ⟨⟩
    exact inline_matcher m

theorem inline_choice : ∀ c : Choice, c.doc.Inline
  | ⟨alternatives, _⟩ => by
    rw [Choice.doc]
    exact .parens (.join (.append .space (.append (.text _) .space))
      (inline_alternatives alternatives))

theorem inline_alternatives : ∀ as : List Alternative, ∀ d ∈ alternativeDocs as, d.Inline
  | [] => by
    rw [alternativeDocs]
    exact List.forall_mem_nil _
  | a :: rest => by
    rw [alternativeDocs]
    exact List.forall_mem_cons.mpr ⟨inline_alternative a, inline_alternatives rest⟩

theorem inline_alternative : ∀ a : Alternative, a.doc.Inline
  | ⟨elements, result, _⟩ => by
    rw [Alternative.doc]
    exact inline_rowDoc (inline_elements elements) result

theorem inline_elements : ∀ es : List Element, ∀ d ∈ elementDocs es, d.Inline
  | [] => by
    rw [elementDocs]
    exact List.forall_mem_nil _
  | ⟨matcher, capture⟩ :: rest => by
    have he : (Element.mk matcher capture).doc.Inline := by
      rw [Element.doc]
      cases capture with
      | none => exact inline_matcher matcher
      | some c => exact .append (.text _) (.append (.text _) (inline_matcher matcher))
    rw [elementDocs]
    exact List.forall_mem_cons.mpr ⟨he, inline_elements rest⟩

end

/-- A matcher is printed as the texts of its parts, one after another. -/
theorem plain_matcher (m : Matcher) (width : Nat) : (m.doc.plain width).toList = m.doc.chars :=
  (inline_matcher m).plain width

end Resolved

end PegCompiler
