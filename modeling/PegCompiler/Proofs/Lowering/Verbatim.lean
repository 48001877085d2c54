import PegCompiler.Compiler
import PegCompiler.Proofs.Lowering.Legible
import PegCompiler.Proofs.Lowering.Modules
import PegCompiler.Proofs.Target.Verbatim
/-
  Code of the author in the generated document. The functions of actions and predicates come
  last in a module and each of them is printed around its code, so that each is found in the
  text as the rows of its head and declarations, the rows of the code and its end.
-/

namespace PegCompiler.Lowering

open Resolved (isIdentifier)
open Text (Dedents dedent dedents_dedent)

theorem wraps_lowerAction {a : Resolved.Action} (h : isIdentifier a.function = true) :
    (lowerAction a).Wraps a.code where
  recursive := rfl
  body := rfl
  decls := by
    refine List.forall_mem_append.mpr ⟨List.forall_mem_map.mpr fun p _ => ⟨p.name, rfl⟩, ?_⟩
    exact List.forall_mem_singleton.mpr ⟨Resolved.resultVar, rfl⟩
  named := isName_of_isIdentifier h

/-- A document is the tidied text of a module, and has the functions that were extracted. -/
theorem of_compile {g : Grammar} {types : ActionTypes} {o : Options} {c : Compiled}
    (h : compile g types o = .ok c) : ∃ p m, Resolution.resolve g types = .ok p ∧
      lower p o = .ok m ∧ c = ⟨Text.tidy ((m.doc o.page).plain o.page.width), p.actions⟩ := by
  unfold compile writeParser at h
  cases hp : Resolution.resolve g types with
  | error failure => simp [hp] at h
  | ok p =>
    cases hm : lower p o with
    | error failure => simp [hp, hm, Except.map] at h
    | ok m =>
      simp only [hp, hm, Except.map, Except.ok.injEq] at h
      exact ⟨p, m, rfl, hm, h.symm⟩

/-- Lines of a document have the functions of extracted code in them, in their order and each
behind an empty line. -/
def Embeds (indent : Nat) (actions : List Resolved.Action) (document : List (List Char)) : Prop :=
  ∃ front rows back, document = front ++ rows.flatMap (fun row => [] :: row) ++ back ∧
    List.Forall₂ (fun a row => ∃ broken, row = (lowerAction a).rows indent broken a.code)
      actions rows

/-- The functions of extracted code in a module that is laid out in any way. -/
theorem embeds_layout {p : Resolved.Parser} {o : Options} {m : Target.Module}
    (hm : lower p o = .ok m) (hindent : 0 ≤ o.page.indent) (layout : (m.doc o.page).Arrangement 0 false) :
    Embeds o.page.indent.toNat p.actions (Text.lines (Text.tidy layout.plain).toList) := by
  obtain ⟨fs, hlowered⟩ := lowered_of_lower hm
  have hwraps : ∀ a ∈ p.actions, (lowerAction a).Wraps a.code := fun a ha =>
    wraps_lowerAction (hlowered.identifiers _ (List.mem_append_right _ (List.mem_map_of_mem ha)))
  obtain ⟨front, rows, back, hrows, hlines⟩ :=
    Target.lines_module hindent hwraps hlowered.functions_eq layout
  exact ⟨front, rows, back, hlines, hrows⟩

/-- **User code is kept.** The rows that are made of code do not depend on its format, are
code without indentation again, and stand in the order and with the relative indentation of
its lines; and the text of a module, however it is laid out, has for every extracted function
its head, its declarations, these rows at two levels of indentation and its end, with nothing
between them. So has the document of a grammar. -/
theorem userCode_kept : (∀ code, Dedents code (dedent code)) ∧
    (∀ {p : Resolved.Parser} {o : Options} {m : Target.Module}, lower p o = .ok m →
      0 ≤ o.page.indent → ∀ layout : (m.doc o.page).Arrangement 0 false,
        Embeds o.page.indent.toNat p.actions (Text.lines (Text.tidy layout.plain).toList)) ∧
    ∀ {g : Grammar} {types : ActionTypes} {o : Options} {c : Compiled},
      compile g types o = .ok c → 0 ≤ o.page.indent →
        Embeds o.page.indent.toNat c.actions (Text.lines c.source.toList) := by
  refine ⟨dedents_dedent, fun hm hindent => embeds_layout hm hindent, fun {g types o c} h hindent => ?_⟩
  obtain ⟨p, m, -, hm, rfl⟩ := of_compile h
  exact embeds_layout hm hindent ((m.doc o.page).fitted o.page.width)

/-- Code of several lines with tabs, line ends of both kinds, blanks behind a line and blank
lines. -/
def looseCode : String := "\r\n    if (x > 0) then  \r\n\t\n      res = x\n    end if\n  "

/-- A grammar with a predicate and an action in such code. -/
def loose : Grammar where
  rules := [⟨"s", true, [⟨[
    .item false (some "x") ⟨.class [.range '0' '9'], .one⟩,
    .check true (.predicate ⟨[⟨"x", "x"⟩], "logical", "  res = x == '0'"⟩)], some looseCode⟩]⟩]

theorem loose_kept : ∃ c, compile loose {} {} = .ok c ∧ 0 ≤ ({} : Options).page.indent ∧
    (c.actions.map fun a => a.code) = ["  res = x == '0'", looseCode] ∧
    Embeds 4 c.actions (Text.lines c.source.toList) := by
  have hcompiled : ((compile loose {} {}).map fun c => c.actions.map fun a => a.code).toOption =
      some ["  res = x == '0'", looseCode] := by
    decide +kernel
  obtain ⟨c, h, hcodes⟩ := exists_ok_of_map hcompiled
  have hindent : 0 ≤ ({} : Options).page.indent := by decide
  have hembeds := userCode_kept.2.2 h hindent
  have hfour : ({} : Options).page.indent.toNat = 4 := by decide
  rw [hfour] at hembeds
  exact ⟨c, h, hindent, hcodes, hembeds⟩

/-- The function of the action: blank rows at either end and the common indentation are gone. -/
example :
    (lowerAction ⟨.action, "action_s_0", [⟨"x", .text⟩], .text, looseCode⟩).rows 4 false looseCode =
      ["    function action_s_0(x) result(res)",
        "        character(len=*), intent(in) :: x",
        "        character(len=:), allocatable :: res",
        "        if (x > 0) then",
        "",
        "          res = x",
        "        end if",
        "    end function action_s_0"].map String.toList := by
  decide +kernel

end PegCompiler.Lowering
