import PegCompiler.Proofs.Lowering.Functions
import PegCompiler.Proofs.Resolution.Meaning
/-
  Lowering preserves meaning. The functions of a parser and its rules nest calls to the
  same depth, so at every depth the functions answer as the rules do (`linked`); what is
  left is to say it for calls of any depth.
-/

namespace PegCompiler.Lowering

open Naming (word)
open Resolved (Bound Captured Matcher Parser Rule resultVar)
open Semantics (Host Outcome stopChar stopEnd stopText)
open Target (Expr Function Machine Return Returns Runtime Signal State Stmt callFunction moved
  runStmts)

/-! ## All functions -/

section
variable {p : Parser} {fs : List Function}

/-- Every rule of a well-typed parser has a function. -/
theorem rules_ok (hp : p.Typed) : ∃ fs, p.rules.mapM lowerRule = .ok fs ∧
    List.Forall₂ (fun rule f => lowerRule rule = .ok f) p.rules fs := by
  obtain ⟨fs, hfs⟩ := exists_forall₂ p.rules (P := fun rule f => lowerRule rule = .ok f)
    fun rule hrule => by
      obtain ⟨_, _, f, -, hf, -⟩ := lowerRule_ok hp (hp.rules rule hrule)
      exact ⟨f, hf⟩
  exact ⟨fs, mapM_eq_ok hfs, hfs⟩

/-- The functions of the module of a parser: those of its rules, then the extracted
ones. -/
def functions (p : Parser) (fs : List Function) : List Function :=
  fs ++ p.actions.map lowerAction

theorem name_lowerRule {rule : Rule} {f : Function} (h : lowerRule rule = .ok f) :
    f.name = rule.function := by
  unfold lowerRule at h
  split at h
  · cases h
  · obtain rfl := Except.ok.inj h
    rfl

theorem names_functions
    (hfs : List.Forall₂ (fun rule f => lowerRule rule = .ok f) p.rules fs) :
    (functions p fs).map (fun f => f.name) = functionNames p := by
  have hrules : fs.map (fun f => f.name) = p.rules.map (fun r => r.function) :=
    map_eq_map (hfs.flip.imp fun _ _ hf => name_lowerRule hf)
  unfold functions functionNames
  rw [List.map_append, hrules, List.map_map]
  rfl

variable (hp : p.Typed) (hfs : List.Forall₂ (fun rule f => lowerRule rule = .ok f) p.rules fs)
include hp hfs

theorem find_function {f : Function} (hf : f ∈ functions p fs) :
    (functions p fs).find? (fun g => g.name == f.name) = some f := by
  have hnodup : ((functions p fs).map fun f => f.name).Nodup := by
    rw [names_functions hfs]
    exact hp.functions
  exact (onlyOne_of_nodup hnodup hf).find?

theorem find_rule {rule : Rule} (hrule : rule ∈ p.rules) : ∃ f, lowerRule rule = .ok f ∧
    (functions p fs).find? (fun g => g.name == rule.function) = some f := by
  obtain ⟨f, hmem, hf⟩ := exists_right hfs hrule
  obtain ⟨_, _, g, -, hg, hname, -⟩ := lowerRule_ok hp (hp.rules rule hrule)
  obtain rfl := Except.ok.inj (hf.symm.trans hg)
  exact ⟨f, hf, hname ▸ find_function hp hfs (List.mem_append_left _ hmem)⟩

/-- No function has the name of a primitive match. -/
theorem find_primitive {name : String}
    (hname : name ∈ [acceptString, acceptSet, acceptRange, acceptAny, acceptEnd]) :
    (functions p fs).find? (fun f => f.name == name) = none := by
  have hword : word name ≠ "peg".toList ∧ word name ≠ "action".toList ∧
      word name ≠ "pred".toList :=
    (by decide : ∀ name ∈ [acceptString, acceptSet, acceptRange, acceptAny, acceptEnd],
      word name ≠ "peg".toList ∧ word name ≠ "action".toList ∧ word name ≠ "pred".toList) name hname
  rw [List.find?_eq_none]
  intro f hf he
  obtain rfl : f.name = name := by simpa using he
  have hmem := List.mem_map_of_mem (f := fun f : Function => f.name) hf
  rw [names_functions hfs] at hmem
  rcases List.mem_append.mp hmem with h | h
  · obtain ⟨rule, hrule, hfunction⟩ := List.mem_map.mp h
    obtain ⟨base, hbase⟩ := hp.ruleNames rule hrule
    refine hword.1 ?_
    rw [← hfunction, hbase, Naming.word_ruleFunction]
  · obtain ⟨action, haction, hfunction⟩ := List.mem_map.mp h
    obtain ⟨base, k, hbase | hbase⟩ := hp.actionNames action haction
    · refine hword.2.2 ?_
      rw [← hfunction, hbase, Naming.word_predicateFunction]
    · refine hword.2.1 ?_
      rw [← hfunction, hbase, Naming.word_actionFunction]

/-! ## The same depth of calls -/

variable {V : Type} {R : Runtime} {input : List Char} (hR : R.Faithful input) (H : Host V)

/-- Generated code with calls nested as deep as `depth`. -/
noncomputable def machine (p : Parser) (fs : List Function) (H : Host V) (R : Runtime) (input : List Char)
    (depth : Nat) : Machine V :=
  ⟨H, R, input, functions p fs, callFunction (functions p fs) H R input depth⟩

include hR

theorem linked_of_answers {depth : Nat}
    (hanswers : ∀ rule ∈ p.rules, ∀ pos ≤ input.length,
      Answers pos (p.call H input depth rule.id pos)
        (callFunction (functions p fs) H R input depth rule.function (pos + 1))) :
    Linked p (machine p fs H R input depth) (p.call H input depth) where
  faithful := hR
  primitive _ hname := find_primitive hp hfs hname
  rule rule hrule := by
    obtain ⟨f, hf, hfind⟩ := find_rule hp hfs hrule
    obtain ⟨_, _, g, -, hg, -, -, -, hbody, -⟩ := lowerRule_ok hp (hp.rules rule hrule)
    obtain rfl := Except.ok.inj (hf.symm.trans hg)
    exact ⟨f, _, hfind, hbody⟩
  action _ haction :=
    find_function hp hfs (List.mem_append_right _ (List.mem_map_of_mem haction))
  answers := hanswers
  within id pos hpos := p.call_within H input depth id pos hpos

/-- At every depth, the functions answer as the rules do. -/
theorem answers_call : ∀ (depth : Nat), ∀ rule ∈ p.rules, ∀ pos ≤ input.length,
    Answers pos (p.call H input depth rule.id pos)
      (callFunction (functions p fs) H R input depth rule.function (pos + 1))
  | 0, _, _, _, _ => .unknown
  | depth + 1, rule, hrule, pos, hpos => by
    obtain ⟨f, hf, hfind⟩ := find_rule hp hfs hrule
    have hid : p.rule rule.id = some rule := (onlyOne_of_nodup hp.ids hrule).find?
    rw [callFunction, Parser.call, hfind, hid]
    exact answers_rule hp (linked_of_answers hp hfs hR H (answers_call depth))
      (hp.rules rule hrule) hf hpos

theorem linked (depth : Nat) : Linked p (machine p fs H R input depth) (p.call H input depth) :=
  linked_of_answers hp hfs hR H (answers_call hp hfs hR H depth)

end

/-- What generated functions have in common with the rules that they are made from: they
accept where the rules match, with the place behind the match and its value; they reject
where the rules fail, with the cursor back where it was; and their loops end. -/
structure Refines {V : Type} (p : Parser) (fs : List Function) (H : Host V) (R : Runtime)
    (input : List Char) : Prop where
  accepts : ∀ rule ∈ p.rules, ∀ pos ≤ input.length, ∀ c value,
    Returns (functions p fs) H R input rule.function (pos + 1) ⟨true, c, value⟩ ↔
      ∃ (stop : Nat) (v : V), c = stop + 1 ∧ value = some v ∧ p.Matches H input rule.id pos stop v
  rejects : ∀ rule ∈ p.rules, ∀ pos ≤ input.length, ∀ c,
    (∃ value, Returns (functions p fs) H R input rule.function (pos + 1) ⟨false, c, value⟩) ↔
      c = pos + 1 ∧ p.Fails H input rule.id pos
  repetitions : ∀ depth, RepetitionsEnd p (machine p fs H R input depth) (p.call H input depth)

theorem refines {p : Parser} {fs : List Function} (hp : p.Typed)
    (hfs : List.Forall₂ (fun rule f => lowerRule rule = .ok f) p.rules fs) {V : Type} (H : Host V)
    {R : Runtime} {input : List Char} (hR : R.Faithful input) : Refines p fs H R input where
  accepts rule hrule pos hpos c value := by
    -- a run of the function and one of the rule nest calls equally deep
    have hanswers (depth : Nat) := answers_call hp hfs hR H depth rule hrule pos hpos
    constructor
    · rintro ⟨depth, h⟩
      have hcall := hanswers depth
      rw [h] at hcall
      cases hx : p.call H input depth rule.id pos with
      | none => rw [hx] at hcall; cases hcall
      | some outcome =>
        rw [hx] at hcall
        cases hcall with
        | matched stop v => exact ⟨stop, v, rfl, rfl, depth, hx⟩
    · rintro ⟨stop, v, rfl, rfl, depth, h⟩
      have hcall := hanswers depth
      rw [h] at hcall
      generalize hy : callFunction _ H R input depth rule.function (pos + 1) = y at hcall
      cases hcall with
      | matched => exact ⟨depth, hy⟩
  rejects rule hrule pos hpos c := by
    have hanswers (depth : Nat) := answers_call hp hfs hR H depth rule hrule pos hpos
    constructor
    · rintro ⟨value, depth, h⟩
      have hcall := hanswers depth
      rw [h] at hcall
      cases hx : p.call H input depth rule.id pos with
      | none => rw [hx] at hcall; cases hcall
      | some outcome =>
        rw [hx] at hcall
        cases hcall with
        | failed => exact ⟨rfl, depth, hx⟩
    · rintro ⟨rfl, depth, h⟩
      have hcall := hanswers depth
      rw [h] at hcall
      generalize hy : callFunction _ H R input depth rule.function (pos + 1) = y at hcall
      cases hcall with
      | failed value => exact ⟨value, depth, hy⟩
  repetitions depth := repetitionsEnd hp (linked hp hfs hR H depth)

/-- **Lowering preserves meaning.** Every rule of a parser that resolution returns has a
function, and with a runtime module that does what it documents these functions refine
the rules, for every input, at every place in it. The integers of a run are unbounded
here: no counter and no place in the input is beyond the range of the language. -/
theorem lower_meaning {g : Grammar} {types : ActionTypes} {p : Parser}
    (h : Resolution.resolve g types = .ok p) :
    ∃ fs, p.rules.mapM lowerRule = .ok fs ∧
      (∀ o m, lower p o = .ok m → m.functions = functions p fs) ∧
      ∀ {V : Type} (H : Host V) (R : Runtime) (input : List Char), R.Faithful input →
        Refines p fs H R input := by
  have hp := Resolution.typed_of_resolve h
  obtain ⟨fs, hok, hfs⟩ := rules_ok hp
  refine ⟨fs, hok, fun o m hm => ?_, fun H R input hR => refines hp hfs H hR⟩
  unfold lower at hm
  split at hm
  · cases hm
  · rw [hok] at hm
    obtain rfl := Except.ok.inj hm
    rfl

/-- Primitive matches that do what the runtime module documents. -/
def documented : Runtime where
  acceptString input text c := moved (c - 1).toNat (stopText input text (c - 1).toNat)
  acceptSet input chars c :=
    moved (c - 1).toNat (stopChar input (fun x => chars.contains x) (c - 1).toNat)
  acceptRange input bottom top c := match bottom, top with
    | [bottom], [top] =>
      moved (c - 1).toNat (stopChar input (fun x => bottom ≤ x && x ≤ top) (c - 1).toNat)
    | _, _ => (false, c)
  acceptAny input c := moved (c - 1).toNat (stopChar input (fun _ => true) (c - 1).toNat)
  acceptEnd input c := moved (c - 1).toNat (stopEnd input (c - 1).toNat)

theorem faithful_documented (input : List Char) : documented.Faithful input := by
  have hplace (pos : Nat) : ((pos : Int) + 1 - 1).toNat = pos := by omega
  refine ⟨fun text pos _ => ?_, fun chars pos _ => ?_, fun bottom top pos _ => ?_, fun pos _ => ?_,
    fun pos _ => ?_⟩
  all_goals
    dsimp only [documented]
    rw [hplace]

theorem number_lowers : Resolution.resolve Resolution.number {} = .ok Resolution.numberParser ∧
    ∃ fs, Resolution.numberParser.rules.mapM lowerRule = .ok fs ∧
      Returns (functions Resolution.numberParser fs) Resolution.texts documented "12".toList
        "peg_number" 1 ⟨true, 3, some "12".toList⟩ ∧
      ∃ value, Returns (functions Resolution.numberParser fs) Resolution.texts documented
        "12345".toList "peg_number" 1 ⟨false, 1, value⟩ := by
  have h := Resolution.resolve_number
  obtain ⟨fs, hok, -, hrefines⟩ := lower_meaning h
  refine ⟨h, fs, hok, ?_, ?_⟩
  · exact ((hrefines Resolution.texts documented _ (faithful_documented _)).accepts _
      (List.mem_cons_self ..) 0 (Nat.zero_le _) 3 _).mpr ⟨2, _, rfl, rfl, 2, by cbv⟩
  · exact ((hrefines Resolution.texts documented _ (faithful_documented _)).rejects _
      (List.mem_cons_self ..) 0 (Nat.zero_le _) 1).mpr ⟨rfl, 2, by cbv⟩

end PegCompiler.Lowering
