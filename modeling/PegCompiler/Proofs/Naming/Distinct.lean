import Mathlib.Data.List.Induction
import PegCompiler.Lowering.Scope
import PegCompiler.Resolved.Names
/-
  When two generated names are equal. A name is made of a word, which has no
  underscore, and of numbers or a base behind underscores. Names of different kinds
  differ in their word (`word_append`), and names of one kind are equal only for
  equal parts, because a number has no underscore either.
-/

namespace PegCompiler.Naming

open Resolved
open Lowering (numbered)

/-! ## Words and numbers -/

/-- The part of a name in front of its first underscore. -/
def word (name : String) : List Char :=
  name.toList.takeWhile (fun c => c != '_')

theorem takeWhile_append_cons {p : Char → Bool} {c : Char} : ∀ {xs : List Char} {ys : List Char},
    (∀ x ∈ xs, p x = true) → p c = false → (xs ++ c :: ys).takeWhile p = xs
  | [], _, _, hc => by simp [hc]
  | x :: xs, ys, h, hc => by
    rw [List.cons_append, List.takeWhile_cons, if_pos (h x (by simp)),
      takeWhile_append_cons (fun y hy => h y (by simp [hy])) hc]

/-- A name of several parts has its first part for its word. -/
theorem word_append {w : String} (rest : String) (h : '_' ∉ w.toList) :
    word (w ++ "_" ++ rest) = w.toList := by
  unfold word
  rw [String.toList_append, String.toList_append, List.append_assoc]
  exact takeWhile_append_cons (fun c hc => bne_iff_ne.mpr fun (e : c = '_') => h (e ▸ hc)) rfl

theorem toList_toString (n : Nat) : (toString n).toList = Nat.toDigits 10 n := by
  rw [Nat.toString_eq_ofList_toDigits, String.toList_ofList]

theorem underscore_not_mem (n : Nat) : '_' ∉ (toString n).toList := by
  rw [toList_toString]
  exact Nat.underscore_not_in_toDigits

theorem toString_inj {m n : Nat} (h : toString m = toString n) : m = n := by
  have hd : Nat.toDigits 10 m = Nat.toDigits 10 n := by
    rw [← toList_toString, ← toList_toString, h]
  rw [← Nat.ofDigitChars_ten_toDigits (n := m), hd, Nat.ofDigitChars_ten_toDigits]

/-- What stands behind the last underscore determines where it is. -/
theorem split_last {xs ys ds es : List Char} (hd : '_' ∉ ds) (he : '_' ∉ es)
    (h : xs ++ '_' :: ds = ys ++ '_' :: es) : xs = ys ∧ ds = es := by
  have hrev := congrArg List.reverse h
  simp only [List.reverse_append, List.reverse_cons, List.append_assoc, List.cons_append,
    List.nil_append] at hrev
  have hnot : ∀ {zs : List Char}, '_' ∉ zs → ∀ c ∈ zs.reverse, (c != '_') = true :=
    fun hz c hc => bne_iff_ne.mpr fun (e : c = '_') => hz (e ▸ List.mem_reverse.mp hc)
  have hde : ds.reverse = es.reverse := by
    have := congrArg (List.takeWhile (fun c => c != '_')) hrev
    rwa [takeWhile_append_cons (hnot hd) rfl, takeWhile_append_cons (hnot he) rfl] at this
  have : ds = es := List.reverse_inj.mp hde
  subst this
  exact ⟨List.append_cancel_right h, rfl⟩

/-- A part and a number behind it can be told apart. -/
theorem append_number_inj {a b : String} {m n : Nat}
    (h : a ++ "_" ++ toString m = b ++ "_" ++ toString n) : a = b ∧ m = n := by
  have hl := congrArg String.toList h
  simp only [String.toList_append, List.append_assoc] at hl
  obtain ⟨hab, hmn⟩ := split_last (underscore_not_mem m) (underscore_not_mem n) hl
  exact ⟨String.toList_inj.mp hab, toString_inj (String.toList_inj.mp hmn)⟩

theorem append_left_inj {a b c : String} (h : a ++ b = a ++ c) : b = c := by
  have hl := congrArg String.toList h
  simp only [String.toList_append] at hl
  exact String.toList_inj.mp (List.append_cancel_left hl)

/-! ## Variables -/

@[simp] theorem numbered_inj {w : String} {j k : Nat} : numbered w j = numbered w k ↔ j = k :=
  ⟨fun h => (append_number_inj h).2, fun h => h ▸ rfl⟩

theorem word_numbered {w : String} (k : Nat) (h : '_' ∉ w.toList) :
    word (numbered w k) = w.toList :=
  word_append _ h

theorem captureVar_inj {a b p q : Nat} : captureVar a p = captureVar b q ↔ a = b ∧ p = q := by
  refine ⟨fun h => ?_, fun ⟨ha, hp⟩ => ha ▸ hp ▸ rfl⟩
  obtain ⟨hab, hpq⟩ := append_number_inj h
  exact ⟨toString_inj (append_left_inj hab), hpq⟩

theorem word_captureVar (a p : Nat) : word (captureVar a p) = "capture".toList := by
  have : captureVar a p = "capture" ++ "_" ++ (toString a ++ "_" ++ toString p) := by
    simp only [captureVar, ← String.append_assoc]
    rfl
  rw [this]
  exact word_append _ (by decide)

theorem groupVar_eq (path : List (Nat × Nat)) : ∃ rest, groupVar path = "group" ++ rest ∧
    (rest = "" ∨ ∃ more, rest = "_" ++ more) := by
  have hfold : ∀ (path : List (Nat × Nat)) (start : String),
      (start = "" ∨ ∃ more, start = "_" ++ more) →
      ∃ rest, path.foldl (fun s p => s ++ "_" ++ toString p.1 ++ "_" ++ toString p.2)
        ("group" ++ start) = "group" ++ rest ∧ (rest = "" ∨ ∃ more, rest = "_" ++ more) := by
    intro path
    induction path with
    | nil => exact fun start h => ⟨start, rfl, h⟩
    | cons p path ih =>
      intro start h
      have hstart : "group" ++ start ++ "_" ++ toString p.1 ++ "_" ++ toString p.2 =
          "group" ++ (start ++ ("_" ++ (toString p.1 ++ "_" ++ toString p.2))) := by
        simp only [String.append_assoc]
      rw [List.foldl_cons, hstart]
      refine ih _ (.inr ?_)
      rcases h with rfl | ⟨more, rfl⟩
      · exact ⟨_, String.empty_append⟩
      · exact ⟨_, String.append_assoc⟩
  exact hfold path "" (.inl rfl)

theorem word_groupVar (path : List (Nat × Nat)) : word (groupVar path) = "group".toList := by
  obtain ⟨rest, h, rfl | ⟨more, rfl⟩⟩ := groupVar_eq path
  · rw [h]
    decide
  · rw [h, ← String.append_assoc]
    exact word_append _ (by decide)

theorem groupVar_concat (path : List (Nat × Nat)) (place : Nat × Nat) :
    groupVar (path ++ [place]) =
      groupVar path ++ "_" ++ toString place.1 ++ "_" ++ toString place.2 := by
  unfold groupVar
  rw [List.foldl_append]
  rfl

/-- A variable of a group names the whole path of the group. -/
theorem groupVar_inj {path other : List (Nat × Nat)} (h : groupVar path = groupVar other) :
    path = other := by
  have hroot (path : List (Nat × Nat)) (place : Nat × Nat) :
      groupVar (path ++ [place]) ≠ groupVar [] := by
    rw [groupVar_concat]
    intro h
    have hmark : '_' ∈ (groupVar []).toList := by simp [← h]
    exact absurd hmark (by decide)
  induction path using List.reverseRecOn generalizing other with
  | nil =>
    induction other using List.reverseRecOn with
    | nil => rfl
    | append_singleton other place _ => exact absurd h.symm (hroot other place)
  | append_singleton path place ih =>
    induction other using List.reverseRecOn with
    | nil => exact absurd h (hroot path place)
    | append_singleton other place' _ =>
      rw [groupVar_concat, groupVar_concat] at h
      obtain ⟨h, hposition⟩ := append_number_inj h
      obtain ⟨h, halternative⟩ := append_number_inj h
      rw [ih h, Prod.ext halternative hposition]

/-! ## Functions -/

theorem ruleFunction_inj {b c : BaseName} (h : ruleFunction b = ruleFunction c) :
    b.shown = c.shown :=
  append_left_inj h

theorem actionFunction_inj {b c : BaseName} {i j : Nat}
    (h : actionFunction b i = actionFunction c j) : b.shown = c.shown ∧ i = j := by
  obtain ⟨hbc, hij⟩ := append_number_inj h
  exact ⟨append_left_inj hbc, hij⟩

theorem predicateFunction_inj {b c : BaseName} {i j : Nat}
    (h : predicateFunction b i = predicateFunction c j) : b.shown = c.shown ∧ i = j := by
  obtain ⟨hbc, hij⟩ := append_number_inj h
  exact ⟨append_left_inj hbc, hij⟩

theorem word_ruleFunction (b : BaseName) : word (ruleFunction b) = "peg".toList :=
  word_append (w := "peg") b.shown (by decide)

theorem word_actionFunction (b : BaseName) (i : Nat) :
    word (actionFunction b i) = "action".toList := by
  have : actionFunction b i = "action" ++ "_" ++ (b.shown ++ "_" ++ toString i) := by
    simp only [actionFunction, ← String.append_assoc]
    rfl
  rw [this]
  exact word_append _ (by decide)

theorem word_predicateFunction (b : BaseName) (i : Nat) :
    word (predicateFunction b i) = "pred".toList := by
  have : predicateFunction b i = "pred" ++ "_" ++ (b.shown ++ "_" ++ toString i) := by
    simp only [predicateFunction, ← String.append_assoc]
    rfl
  rw [this]
  exact word_append _ (by decide)

/-- Names with different words differ. -/
theorem ne_of_word {a b : String} (h : word a ≠ word b) : a ≠ b :=
  fun e => h (e ▸ rfl)

end PegCompiler.Naming
