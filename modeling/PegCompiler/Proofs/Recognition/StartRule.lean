import PegCompiler.Proofs.Lowering.Refinement
import PegCompiler.Proofs.Recognition.Reading
/-
  What the function of the start rule accepts. It tests for the end of the input behind
  the body of its rule, whoever called it: the text that it accepts is that of the
  parsing expressions in which the start rule matches only up to the end of the input,
  also where the grammar refers to it.
-/

namespace PegCompiler.Grammar

open Lowering (documented faithful_documented functions lowerRule refines rules_ok)
open Peg (Derives)
open Resolution (resolve texts)
open Resolved (Parser)
open Semantics (Host Outcome stopChar)
open Target (Function Returns Runtime)

/-! ## The end of the input -/

theorem derives_atEnd {rules : String → Option Peg} {input : List Char} {pos q : Nat}
    (h : Derives rules input Peg.atEnd pos (some q)) : q = pos ∧ input.length ≤ pos := by
  unfold Peg.atEnd at h
  cases h with
  | not h =>
    refine ⟨rfl, Nat.le_of_not_lt fun hlt => ?_⟩
    have hany : Derives rules input (.char fun _ => true) pos (some (pos + 1)) := by
      have hchar : Derives rules input (.char fun _ => true) pos (stopChar input _ pos) := .char
      unfold stopChar at hchar
      rwa [List.getElem?_eq_getElem hlt] at hchar
    cases h.unique hany

theorem atEnd_derives {rules : String → Option Peg} {input : List Char} :
    Derives rules input Peg.atEnd input.length (some input.length) := by
  refine .not ?_
  have hchar : Derives rules input (.char fun _ => true) input.length
      (stopChar input _ input.length) := .char
  unfold stopChar at hchar
  rwa [List.getElem?_eq_none (Nat.le_refl _)] at hchar

section
variable {g : Grammar} {types : ActionTypes} {p : Parser}

/-- The start rule of a grammar and of its parser. -/
theorem exists_start (h : resolve g types = .ok p) : ∃ start rule, g.startRule = some start ∧
    p.startRule = some rule ∧ rule ∈ p.rules ∧ start.start = true ∧ rule.id = start.id ∧
    g.rule start.id = some start := by
  obtain ⟨rule, hrule⟩ := (Resolution.typed_of_resolve h).start
  have hfind := rel_find? (fun r => r.start) (fun r => r.start)
    (fun _ _ hk => hk.start.symm) (Resolution.rules_kept h)
  have hids : (g.rules.map fun r => r.id).Nodup := by
    rw [← Resolution.ids_kept h]
    exact (Resolution.typed_of_resolve h).ids
  rw [hrule.find?] at hfind
  unfold startRule Grammar.rule
  generalize hstart : g.rules.find? (fun r => r.start) = x at hfind
  cases hfind with
  | @some start _ hk =>
    have hmem := List.mem_of_find?_eq_some hstart
    exact ⟨start, rule, rfl, hrule.find?, hrule.mem, List.find?_some hstart, hk.id,
      (onlyOne_of_nodup hids hmem).find?⟩

variable {V : Type} {H : Host V} {input : List Char}

/-- The start rule matches from the beginning where its body consumes the whole input. -/
theorem matches_start_iff (h : resolve g types = .ok p) (hg : g.Plain) {start : Rule}
    (hrule : g.rule start.id = some start) (hstart : start.start = true) :
    (∃ stop v, p.Matches H input start.id 0 stop v) ↔
      Derives g.closedBodies input (alternativesPeg start.alternatives) 0 (some input.length) := by
  have hclosed : g.closedBodies start.id =
      some (.seq (alternativesPeg start.alternatives) Peg.atEnd) := by
    unfold closedBodies
    rw [hrule, Option.map_some, if_pos hstart]
  have hcalls (depth stop : Nat) : Peg.call g.closedBodies input depth start.id 0 = some (some stop) ↔
      ∃ v, p.call H input depth start.id 0 = some (.matched stop v) := by
    rw [← call_stops hg types H, Resolution.call_eq h]
    rcases g.call types H input depth start.id 0 with _ | _ | ⟨_, v⟩
    · simp
    · simp [Outcome.stop?]
    · simp [Outcome.stop?]
  constructor
  · rintro ⟨stop, v, depth, hmatch⟩
    have hderives := Peg.derives_of_call depth _ _ _ ((hcalls depth stop).mpr ⟨v, hmatch⟩)
    cases hderives with
    | ref hbody hderives =>
      obtain rfl := Option.some.inj (hclosed.symm.trans hbody)
      cases hderives with
      | @seq _ _ _ middle _ hbody hend =>
        obtain ⟨rfl, hlen⟩ := derives_atEnd hend
        have hle := hbody.stopsFrom stop rfl
        obtain rfl : stop = input.length := by omega
        exact hbody
  · intro hbody
    obtain ⟨depth, hcall⟩ := Peg.derives_ref_iff.mp (.ref hclosed (.seq hbody atEnd_derives))
    obtain ⟨v, hmatch⟩ := (hcalls depth _).mp hcall
    exact ⟨_, v, depth, hmatch⟩

/-- The function of the start rule accepts where its body consumes the whole input. -/
theorem accepts_start_iff (h : resolve g types = .ok p) (hg : g.Plain) {fs : List Function}
    (hfs : List.Forall₂ (fun rule f => lowerRule rule = .ok f) p.rules fs) {R : Runtime}
    (hR : R.Faithful input) {start : Rule} (hrule : g.rule start.id = some start)
    (hstart : start.start = true) {rule : Resolved.Rule} (hmem : rule ∈ p.rules)
    (hid : rule.id = start.id) :
    (∃ c value, Returns (functions p fs) H R input rule.function 1 ⟨true, c, value⟩) ↔
      Derives g.closedBodies input (alternativesPeg start.alternatives) 0 (some input.length) := by
  have haccepts := (refines (Resolution.typed_of_resolve h) hfs H hR).accepts rule hmem 0
    (Nat.zero_le _)
  rw [← matches_start_iff h hg hrule hstart, ← hid]
  constructor
  · rintro ⟨c, value, hreturn⟩
    obtain ⟨stop, v, -, -, hmatch⟩ := (haccepts c value).mp hreturn
    exact ⟨stop, v, hmatch⟩
  · rintro ⟨stop, v, hmatch⟩
    exact ⟨_, _, (haccepts _ _).mpr ⟨stop, v, rfl, rfl, hmatch⟩⟩

end

/-- **The function of the start rule recognises the grammar.** Called at the beginning of
the input, it accepts if and only if the body of the start rule consumes the whole input,
where a reference to another rule matches the body of that rule, and a reference to the
start rule matches its body only up to the end of the input. -/
theorem start_recognises {g : Grammar} {types : ActionTypes} {p : Parser}
    (h : resolve g types = .ok p) (hg : g.Plain) :
    ∃ fs start rule, p.rules.mapM lowerRule = .ok fs ∧ g.startRule = some start ∧
      p.startRule = some rule ∧
      ∀ {V : Type} (H : Host V) (R : Runtime) (input : List Char), R.Faithful input →
        ((∃ c value, Returns (functions p fs) H R input rule.function 1 ⟨true, c, value⟩) ↔
          Derives g.closedBodies input (alternativesPeg start.alternatives) 0
            (some input.length)) := by
  obtain ⟨fs, hok, hfs⟩ := rules_ok (Resolution.typed_of_resolve h)
  obtain ⟨start, rule, hg', hp, hmem, hstart, hid, hrule⟩ := exists_start h
  exact ⟨fs, start, rule, hok, hg', hp, fun H R input hR =>
    accepts_start_iff h hg hfs hR hrule hstart hmem hid⟩

/-! ## A start rule that refers to itself -/

/-- `S <- "a" S "b" / "x"`. -/
def nestedRule : Rule where
  id := "S"
  start := true
  alternatives := [
    ⟨[.item false none ⟨.literal "a", .one⟩, .item false none ⟨.ruleRef "S", .one⟩,
      .item false none ⟨.literal "b", .one⟩], none⟩,
    ⟨[.item false none ⟨.literal "x", .one⟩], none⟩]

def nested : Grammar where
  rules := [nestedRule]

def nestedParser : Parser where
  rules := [{
    id := "S"
    function := "peg_s"
    start := true
    resultType := .text
    body := {
      result := some "res"
      alternatives := [
        { elements := [⟨.literal "a", none⟩, ⟨.call ⟨"S", "peg_s", .text⟩, none⟩,
            ⟨.literal "b", none⟩]
          result := .consumed
          resultType := .text },
        { elements := [⟨.literal "x", none⟩]
          result := .consumed
          resultType := .text }] } }]
  actions := []

theorem nested_resolves : resolve nested {} = .ok nestedParser := by
  cbv

theorem nested_plain : nested.Plain := by
  intro rule hrule
  obtain rfl := List.mem_singleton.mp hrule
  cbv

theorem nested_recognises : resolve nested {} = .ok nestedParser ∧ nested.Plain ∧
    ∃ fs, nestedParser.rules.mapM lowerRule = .ok fs ∧
      (∃ c value, Returns (functions nestedParser fs) texts documented "x".toList "peg_s" 1
        ⟨true, c, value⟩) ∧
      ¬ ∃ c value, Returns (functions nestedParser fs) texts documented "xx".toList "peg_s" 1
        ⟨true, c, value⟩ := by
  obtain ⟨fs, start, rule, hok, hstart, hrule, hrecognises⟩ := start_recognises nested_resolves nested_plain
  obtain rfl : nestedRule = start := Option.some.inj hstart
  obtain rfl : nestedParser.rules.head (by decide) = rule := Option.some.inj hrule
  have hderives (input : List Char) (stop : Option Nat)
      (hrun : (alternativesPeg nestedRule.alternatives).run input
        (Peg.call nested.closedBodies input 3) 0 = some stop) :
      Derives nested.closedBodies input (alternativesPeg nestedRule.alternatives) 0 stop :=
    Peg.derives_of_run (Peg.derives_of_call 3) _ hrun
  refine ⟨nested_resolves, nested_plain, fs, hok, ?_, fun haccepts => ?_⟩
  · exact (hrecognises texts documented _ (faithful_documented _)).mpr (hderives _ _ (by cbv))
  · have hwhole := (hrecognises texts documented _ (faithful_documented _)).mp haccepts
    have hfirst := hderives "xx".toList (some 1) (by cbv)
    cases hwhole.unique hfirst

/-- The end of the input is also wanted of the inner match: in front of the last
character, the inner call of the start rule's function fails. Read as a reference to the
body alone, the text belongs to the grammar. -/
theorem nested_rejected : resolve nested {} = .ok nestedParser ∧ nested.Plain ∧
    ∃ fs, nestedParser.rules.mapM lowerRule = .ok fs ∧
      (¬ ∃ c value, Returns (functions nestedParser fs) texts documented "axb".toList "peg_s" 1
        ⟨true, c, value⟩) ∧
      Derives nested.bodies "axb".toList (alternativesPeg nestedRule.alternatives) 0
        (some "axb".toList.length) := by
  obtain ⟨fs, hok, hfs⟩ := rules_ok (Resolution.typed_of_resolve nested_resolves)
  have hrule : nested.rule nestedRule.id = some nestedRule := rfl
  refine ⟨nested_resolves, nested_plain, fs, hok, fun haccepts => ?_, ?_⟩
  · have hwhole := (accepts_start_iff nested_resolves nested_plain hfs (faithful_documented _)
      hrule rfl (List.mem_cons_self ..) rfl).mp haccepts
    have hfails : Derives nested.closedBodies "axb".toList
        (alternativesPeg nestedRule.alternatives) 0 none :=
      Peg.derives_of_run (Peg.derives_of_call 3) _ (by cbv)
    cases hwhole.unique hfails
  · exact Peg.derives_of_run (Peg.derives_of_call 3) _ (by cbv)

end PegCompiler.Grammar
