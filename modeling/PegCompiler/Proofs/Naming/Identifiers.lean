import Mathlib
import PegCompiler.Proofs.Naming.Bases
import PegCompiler.Proofs.Naming.Distinct
/-
  Generated names are identifiers. A name of some parts has at most as many characters
  as its parts have, and the characters of all parts are lower-case letters, digits and
  underscores; so names are equal if they are equal but for case. The longest names are
  those of actions: with numbers of seven digits they have just the 63 characters that
  an identifier may have. Names of variables are spelled in the same way, but the one of
  a group has two more parts for each group around it.
-/

namespace PegCompiler.Naming

open Resolved

/-- A lower-case letter, a digit or an underscore. -/
def isSmall (c : Char) : Bool :=
  c.isLower || c.isDigit || c == '_'

theorem toLower_of_not_isUpper {c : Char} (h : c.isUpper = false) : c.toLower = c := by
  have hout : ¬ (c.val ≥ 'A'.val ∧ c.val ≤ 'Z'.val) := by simpa [Char.isUpper] using h
  rw [Char.toLower, dif_neg hout]

theorem isLower_toLower {c : Char} (h : c.isUpper = true) : c.toLower.isLower = true := by
  simp only [Char.isUpper, Char.isLower, Char.toLower, ge_iff_le, decide_eq_true_eq,
    Bool.and_eq_true] at h ⊢
  rw [dif_pos h]
  grind

theorem not_isUpper_of_isSmall {c : Char} (h : isSmall c = true) : c.isUpper = false := by
  simp only [isSmall, Bool.or_eq_true, beq_iff_eq] at h
  rcases h with (h | h) | rfl
  · simp only [Char.isLower, Char.isUpper, ge_iff_le, Bool.and_eq_true, decide_eq_true_eq,
      decide_eq_false_iff_not] at h ⊢
    grind
  · simp only [Char.isDigit, Char.isUpper, ge_iff_le, Bool.and_eq_true, decide_eq_true_eq,
      decide_eq_false_iff_not] at h ⊢
    grind
  · decide

/-- A name of small characters, at most as many as a number says. -/
structure Small (size : Nat) (name : String) : Prop where
  chars : ∀ c ∈ name.toList, isSmall c = true
  length : name.toList.length ≤ size

/-- A given name, all characters of which can be looked at. -/
theorem Small.of_all {n : Nat} {name : String} (hchars : name.toList.all isSmall = true)
    (hlength : name.toList.length ≤ n) : Small n name :=
  ⟨List.all_eq_true.mp hchars, hlength⟩

theorem Small.append {m n : Nat} {a b : String} (ha : Small m a) (hb : Small n b) :
    Small (m + n) (a ++ b) := by
  constructor
  · intro c hc
    rw [String.toList_append, List.mem_append] at hc
    exact hc.elim (ha.chars c) (hb.chars c)
  · have hm := ha.length
    have hn := hb.length
    rw [String.toList_append, List.length_append]
    omega

theorem Small.mono {m n : Nat} {name : String} (h : Small m name) (hmn : m ≤ n) : Small n name :=
  ⟨h.chars, Nat.le_trans h.length hmn⟩

/-! ## Numbers and ids -/

theorem small_number {k digits : Nat} (hdigits : 0 < digits) (h : k < 10 ^ digits) :
    Small digits (toString k) := by
  constructor
  · intro c hc
    rw [toList_toString] at hc
    have hdigit := Nat.isDigit_of_mem_toDigits (by decide) (by decide) hc
    simp [isSmall, hdigit]
  · rw [toList_toString]
    exact (Nat.length_toDigits_le_iff (by decide) hdigits).mpr h

theorem isSmall_toLower {c : Char} (h : c.isAlphanum = true) : isSmall c.toLower = true := by
  by_cases hupper : c.isUpper = true
  · have hlower := isLower_toLower hupper
    simp [isSmall, hlower]
  · have hsmall : isSmall c = true := by
      simp only [Char.isAlphanum, Char.isAlpha, Bool.or_eq_true] at h
      rcases h with (h | h) | h
      · exact absurd h hupper
      · simp [isSmall, h]
      · simp [isSmall, h]
    rwa [toLower_of_not_isUpper (not_isUpper_of_isSmall hsmall)]

theorem small_sanitize (id : String) : Small 40 (sanitize id) := by
  unfold sanitize
  split
  next => exact .of_all (by decide) (by decide)
  next =>
    constructor
    · intro c hc
      rw [String.toList_ofList] at hc
      obtain ⟨d, -, rfl⟩ := List.mem_map.mp hc
      split
      next h => exact isSmall_toLower h
      next => rfl
    · rw [String.toList_ofList, List.length_map, List.length_take]
      omega

/-! ## Bases -/

/-- The base of an id, with a number that is not above another. -/
structure NumberedUpTo (n : Nat) (b : BaseName) : Prop where
  name : ∃ id, b.name = sanitize id
  number : ∀ k, b.number = some k → k ≤ n

theorem numberedUpTo_among (taken : List String) (id : String) :
    NumberedUpTo (taken.length + 1) (.among taken (sanitize id)) := by
  unfold BaseName.among
  split
  next =>
    refine ⟨⟨id, rfl⟩, fun k hk => ?_⟩
    have hmem := List.mem_of_find?_eq_some hk
    rw [List.mem_range'] at hmem
    omega
  next => exact ⟨⟨id, rfl⟩, fun k hk => nomatch hk⟩

/-- Among the bases of as many rules as a number says, no number is above it. -/
theorem numberedUpTo_foldl {n : Nat} : ∀ (ids : List String) {names : RuleNames},
    (∀ e ∈ names.bases, NumberedUpTo n e.2) → names.bases.length + ids.length ≤ n →
    ∀ e ∈ (ids.foldl RuleNames.add names).bases, NumberedUpTo n e.2
  | [], _, h, _ => h
  | id :: ids, names, h, hn => by
    rw [List.length_cons] at hn
    -- an id adds one base at most, and the base's number is at most how many there are then
    have hlength : (names.add id).bases.length ≤ names.bases.length + 1 := by
      unfold RuleNames.add
      split
      next => omega
      next => simp
    refine numberedUpTo_foldl ids (fun e he => ?_) (by omega)
    unfold RuleNames.add at he
    split at he
    next => exact h e he
    next =>
      rcases List.mem_append.mp he with he | he
      · exact h e he
      · rw [List.mem_singleton.mp he]
        obtain ⟨hname, hnumber⟩ := numberedUpTo_among
          (names.bases.map (fun entry => entry.2.shown)) id
        refine ⟨hname, fun k hk => ?_⟩
        calc k
          _ ≤ (names.bases.map (fun entry => entry.2.shown)).length + 1 := hnumber k hk
          _ = names.bases.length + 1 := by rw [List.length_map]
          _ ≤ n := by omega

theorem numberedUpTo_ofIds {ids : List String} {id : String} {b : BaseName}
    (h : (RuleNames.ofIds ids).base id = some b) : NumberedUpTo ids.length b := by
  have hnone : ∀ e ∈ ({} : RuleNames).bases, NumberedUpTo ids.length e.2 := by simp
  exact numberedUpTo_foldl ids hnone (by simp) _ (mem_of_base h)

/-- A base with a number of at most seven digits has at most 48 characters. -/
theorem small_shown {n : Nat} {b : BaseName} (h : NumberedUpTo n b) (hn : n < 10 ^ 7) :
    Small 48 b.shown := by
  obtain ⟨⟨id, hname⟩, hnumber⟩ := h
  unfold BaseName.shown
  cases hb : b.number with
  | none =>
    rw [hname]
    exact (small_sanitize id).mono (by decide)
  | some k =>
    have hk : k < 10 ^ 7 := Nat.lt_of_le_of_lt (hnumber k hb) hn
    have hmark : Small 1 "_" := .of_all (by decide) (by decide)
    rw [hname]
    exact ((small_sanitize id).append hmark).append (small_number (by decide) hk)

/-! ## Identifiers -/

/-- A name starts with a letter. -/
def StartsWithLetter (name : String) : Prop :=
  ∃ c cs, name.toList = c :: cs ∧ c.isAlpha = true

theorem StartsWithLetter.append {a : String} (h : StartsWithLetter a) (b : String) :
    StartsWithLetter (a ++ b) := by
  obtain ⟨c, cs, ha, hc⟩ := h
  refine ⟨c, cs ++ b.toList, ?_, hc⟩
  rw [String.toList_append, ha, List.cons_append]

/-- A small name that starts with a letter is an identifier. -/
theorem isIdentifier_of_small {name : String} (h : Small 63 name) (hletter : StartsWithLetter name) :
    isIdentifier name = true := by
  obtain ⟨hchars, hlength⟩ := h
  obtain ⟨c, cs, hname, hc⟩ := hletter
  rw [hname] at hchars hlength
  have hrest : cs.all (fun d => d.isAlphanum || d == '_') = true := by
    rw [List.all_eq_true]
    intro d hd
    have hsmall := hchars d (List.mem_cons_of_mem c hd)
    simp only [isSmall, Bool.or_eq_true] at hsmall
    rcases hsmall with (h | h) | h
    · simp [Char.isAlphanum, Char.isAlpha, h]
    · simp [Char.isAlphanum, h]
    · simp [h]
  have hshort : cs.length < 63 := by
    rw [List.length_cons] at hlength
    omega
  unfold isIdentifier
  rw [hname]
  simp only [hc, hrest, hshort, decide_true, Bool.and_true]

theorem toLower_of_small {n : Nat} {name : String} (h : Small n name) : name.toLower = name := by
  have hchars : ∀ c ∈ name.toList, c.toLower = c := fun c hc =>
    toLower_of_not_isUpper (not_isUpper_of_isSmall (h.chars c hc))
  rw [← String.toList_inj, String.toLower, String.toList_map]
  exact (List.map_congr_left hchars).trans (List.map_id' _)

/-- Small names that are equal but for case are equal. -/
theorem sameName_of_small {m n : Nat} {a b : String} (ha : Small m a) (hb : Small n b) :
    sameName a b = (a == b) := by
  rw [sameName, toLower_of_small ha, toLower_of_small hb]

/-- Small names that differ do so also when case is ignored. -/
theorem pairwise_of_small {names : List String} (hsmall : ∀ name ∈ names, ∃ n, Small n name)
    (hnodup : names.Nodup) : names.Pairwise (fun a b => sameName a b = false) := by
  refine hnodup.imp_of_mem fun {a b} ha hb hne => ?_
  obtain ⟨m, hm⟩ := hsmall a ha
  obtain ⟨n, hn⟩ := hsmall b hb
  rw [sameName_of_small hm hn]
  exact beq_false_of_ne hne

/-! ## Names of any length -/

theorem exists_small_number (k : Nat) : ∃ n, Small n (toString k) := by
  have hk : k < 10 ^ (k + 1) := Nat.lt_trans k.lt_succ_self (Nat.lt_pow_self (by decide))
  exact ⟨k + 1, small_number k.succ_pos hk⟩

/-- A small name with a number behind it. -/
theorem exists_small_concat {name : String} (h : ∃ n, Small n name) (k : Nat) :
    ∃ n, Small n (name ++ "_" ++ toString k) := by
  obtain ⟨m, hm⟩ := h
  obtain ⟨n, hn⟩ := exists_small_number k
  have hmark : Small 1 "_" := .of_all (by decide) (by decide)
  exact ⟨m + 1 + n, (hm.append hmark).append hn⟩

/-- A name is spelled as an identifier is: it can only be too long. -/
structure Spelled (name : String) : Prop where
  small : ∃ n, Small n name
  letter : StartsWithLetter name

theorem length_of_isIdentifier {name : String} (h : isIdentifier name = true) : name.length ≤ 63 := by
  rw [← String.length_toList]
  unfold isIdentifier at h
  split at h
  next => cases h
  next c cs hname =>
    simp only [Bool.and_eq_true, decide_eq_true_eq] at h
    rw [hname, List.length_cons]
    omega

namespace Spelled

variable {name : String}

theorem isIdentifier (h : Spelled name) (hlength : name.length ≤ 63) : isIdentifier name = true := by
  obtain ⟨⟨n, hsmall⟩, hletter⟩ := h
  rw [← String.length_toList] at hlength
  exact isIdentifier_of_small ⟨hsmall.chars, hlength⟩ hletter

theorem append {rest : String} (h : Spelled name) (hrest : ∃ n, Small n rest) :
    Spelled (name ++ rest) := by
  obtain ⟨m, hm⟩ := h.small
  obtain ⟨n, hn⟩ := hrest
  exact ⟨⟨m + n, hm.append hn⟩, h.letter.append rest⟩

theorem concat (h : Spelled name) (k : Nat) : Spelled (name ++ "_" ++ toString k) :=
  (h.append ⟨1, .of_all (by decide) (by decide)⟩).append (exists_small_number k)

end Spelled

theorem spelled_captureVar (i q : Nat) : Spelled (captureVar i q) := by
  have hword : Spelled "capture_" := ⟨⟨8, .of_all (by decide) (by decide)⟩, ⟨'c', _, rfl, rfl⟩⟩
  exact (hword.append (exists_small_number i)).concat q

/-- The name of a capture with numbers of at most twenty digits. -/
theorem small_captureVar {i q : Nat} (hi : i < 10 ^ 20) (hq : q < 10 ^ 20) :
    Small 49 (captureVar i q) := by
  have hword : Small 8 "capture_" := .of_all (by decide) (by decide)
  have hmark : Small 1 "_" := .of_all (by decide) (by decide)
  exact ((hword.append (small_number (by decide) hi)).append hmark).append
    (small_number (by decide) hq)

theorem spelled_groupVar (path : List (Nat × Nat)) : Spelled (groupVar path) := by
  induction path using List.reverseRecOn with
  | nil => exact ⟨⟨5, .of_all (by decide) (by decide)⟩, ⟨'g', _, rfl, rfl⟩⟩
  | append_singleton path place ih =>
    rw [groupVar_concat]
    exact (ih.concat place.1).concat place.2

/-! ## Functions -/

/-- An identifier that is equal to another one of its kind only if they are the same. -/
structure FunctionName (name : String) : Prop where
  small : Small 63 name
  letter : StartsWithLetter name

section
variable {n : Nat} {b : BaseName} (h : NumberedUpTo n b) (hn : n < 10 ^ 7)
include h hn

theorem functionName_rule : FunctionName (ruleFunction b) := by
  have hword : Small 4 "peg_" := .of_all (by decide) (by decide)
  have hletter : StartsWithLetter "peg_" := ⟨'p', _, rfl, rfl⟩
  exact ⟨(hword.append (small_shown h hn)).mono (by decide), hletter.append _⟩

theorem functionName_action {k : Nat} (hk : k < 10 ^ 7) : FunctionName (actionFunction b k) := by
  have hword : Small 7 "action_" := .of_all (by decide) (by decide)
  have hmark : Small 1 "_" := .of_all (by decide) (by decide)
  have hletter : StartsWithLetter "action_" := ⟨'a', _, rfl, rfl⟩
  exact ⟨((hword.append (small_shown h hn)).append hmark).append (small_number (by decide) hk),
    ((hletter.append _).append _).append _⟩

theorem functionName_predicate {k : Nat} (hk : k < 10 ^ 7) :
    FunctionName (predicateFunction b k) := by
  have hword : Small 5 "pred_" := .of_all (by decide) (by decide)
  have hmark : Small 1 "_" := .of_all (by decide) (by decide)
  have hletter : StartsWithLetter "pred_" := ⟨'p', _, rfl, rfl⟩
  exact ⟨(((hword.append (small_shown h hn)).append hmark).append
    (small_number (by decide) hk)).mono (by decide), ((hletter.append _).append _).append _⟩

end

/-- The functions of a rule are spelled as identifiers, whatever numbers they have. -/
theorem spelled_functions {n : Nat} {b : BaseName} (h : NumberedUpTo n b) (k : Nat) :
    Spelled (ruleFunction b) ∧ Spelled (actionFunction b k) ∧ Spelled (predicateFunction b k) := by
  have hshown : ∃ n, Small n b.shown := by
    obtain ⟨id, hname⟩ := h.name
    unfold BaseName.shown
    rw [hname]
    cases b.number with
    | none => exact ⟨40, small_sanitize id⟩
    | some j => exact exists_small_concat ⟨40, small_sanitize id⟩ j
  have hrule : Spelled "peg_" := ⟨⟨4, .of_all (by decide) (by decide)⟩, ⟨'p', _, rfl, rfl⟩⟩
  have haction : Spelled "action_" := ⟨⟨7, .of_all (by decide) (by decide)⟩, ⟨'a', _, rfl, rfl⟩⟩
  have hpredicate : Spelled "pred_" := ⟨⟨5, .of_all (by decide) (by decide)⟩, ⟨'p', _, rfl, rfl⟩⟩
  exact ⟨hrule.append hshown, (haction.append hshown).concat k, (hpredicate.append hshown).concat k⟩

end PegCompiler.Naming
