import PegCompiler.Proofs.Lowering.Scopes
import PegCompiler.Proofs.Naming.Identifiers
/-
  No name is twice among the locals of a function (`Tidy`). A construct draws a new
  number and uses every word at most once with it (`Drawn`); the variable of a group is
  declared only where it is not there yet, and its word is that of no other variable.
-/

namespace PegCompiler.Lowering

open Naming (Small word)
open Resolved (Bound ValueType groupVar)

/-- The words of numbered variables. -/
def numberedWords : List String := "scratch" :: ownWords

/-- A name of a local, with a number up to `n` if it has one. -/
inductive Made (n : Nat) (name : String) : Prop where
  | numbered {w : String} (hw : w ∈ numberedWords) {k : Nat} (hk : k ≤ n) (h : name = numbered w k)
  | group {path : List (Nat × Nat)} (h : name = groupVar path)

theorem Made.mono {m n : Nat} {name : String} (h : Made m name) (hmn : m ≤ n) : Made n name := by
  cases h with
  | numbered hw hk h => exact .numbered hw (Nat.le_trans hk hmn) h
  | group h => exact .group h

theorem word_numberedWords {w : String} (hw : w ∈ numberedWords) (k : Nat) :
    word (numbered w k) = w.toList :=
  Naming.word_numbered k ((by decide : ∀ w ∈ numberedWords, '_' ∉ w.toList) w hw)

/-- No local has a word of another kind of variables. -/
theorem Made.word_ne {n : Nat} {name : String} (h : Made n name) {w : String}
    (hw : w ∉ "group" :: numberedWords) : word name ≠ w.toList := by
  intro he
  rw [List.mem_cons, not_or] at hw
  cases h with
  | numbered hw' hk h =>
    rw [h, word_numberedWords hw'] at he
    exact hw.2 (String.toList_inj.mp he ▸ hw')
  | group h =>
    rw [h, Naming.word_groupVar] at he
    exact hw.1 (String.toList_inj.mp he).symm

theorem Made.small {n : Nat} {name : String} (h : Made n name) : ∃ m, Small m name := by
  cases h with
  | @numbered w hw k hk h =>
    rw [h]
    refine Naming.exists_small_concat ⟨7, ?_⟩ k
    have hsmall : ∀ w ∈ numberedWords, w.toList.all Naming.isSmall = true ∧
        w.toList.length ≤ 7 := by decide
    exact .of_all (hsmall w hw).1 (hsmall w hw).2
  | group h =>
    rw [h]
    exact (Naming.spelled_groupVar _).small

/-- The names of a scope are made by lowering, and none is there twice. -/
structure Tidy (sc : Scope) : Prop where
  made : ∀ name ∈ sc.names, Made sc.counter name
  nodup : sc.names.Nodup
  groups : ∀ name ∈ sc.integers ++ sc.logicals, word name ≠ "group".toList

theorem Tidy.empty : Tidy {} :=
  ⟨fun _ h => (nomatch h), .nil, fun _ h => (nomatch h)⟩

/-- One more name. -/
theorem Tidy.add {s t : Scope} (h : Tidy s) {name : String} (hname : Made t.counter name)
    (hcounter : s.counter ≤ t.counter) (hnew : name ∉ s.names)
    (hnames : t.names.Perm (name :: s.names))
    (hgroups : ∀ other ∈ t.integers ++ t.logicals, word other ≠ "group".toList) : Tidy t where
  groups := hgroups
  made other hother := by
    rcases List.mem_cons.mp (hnames.mem_iff.mp hother) with rfl | hother
    · exact hname
    · exact (h.made other hother).mono hcounter
  nodup := hnames.nodup_iff.mpr (List.nodup_cons.mpr ⟨hnew, h.nodup⟩)

theorem names_integer (s : Scope) (w : String) (k : Nat) :
    (s.integer w k).2.names.Perm (numbered w k :: s.names) := by
  simp only [Scope.names, Scope.integer, List.append_assoc, List.singleton_append]
  exact List.perm_middle

theorem names_logical (s : Scope) (w : String) (k : Nat) :
    (s.logical w k).2.names.Perm (numbered w k :: s.names) := by
  simp only [Scope.names, Scope.logical, List.append_assoc, List.singleton_append]
  rw [← List.append_assoc, ← List.append_assoc]
  exact List.perm_middle

/-- The names of a scope with one more variable that has a type of its own. -/
theorem names_other (s : Scope) (v : String × ValueType) {t : Scope}
    (hints : t.integers = s.integers) (hlogicals : t.logicals = s.logicals)
    (hothers : t.others = s.others ++ [v]) : t.names.Perm (v.1 :: s.names) := by
  simp only [Scope.names, hints, hlogicals, hothers, List.map_append, List.map_cons, List.map_nil,
    ← List.append_assoc]
  exact List.perm_append_singleton _ _

/-! ## Words of the last number -/

/-- A tidy scope whose last number stands behind the words `ws` only. -/
structure Drawn (ws : List String) (sc : Scope) : Prop where
  tidy : Tidy sc
  words : ∀ w ∈ numberedWords, numbered w sc.counter ∈ sc.names → w ∈ ws

theorem word_ne_group {w : String} (hw : w ∈ numberedWords) (k : Nat) :
    word (numbered w k) ≠ "group".toList := by
  rw [word_numberedWords hw]
  exact (by decide : ∀ w ∈ numberedWords, w.toList ≠ "group".toList) w hw

namespace Drawn

variable {ws : List String} {sc : Scope}

/-- Nothing stands before a new number. -/
theorem fresh (h : Tidy sc) : Drawn [] sc.fresh.2 where
  tidy := ⟨fun name hname => (h.made name hname).mono (Nat.le_succ _), h.nodup, h.groups⟩
  words w hw hmem := by
    exfalso
    -- what is there already has a lower number, or none
    have hmade : Made sc.counter (numbered w (sc.counter + 1)) := h.made _ hmem
    cases hmade with
    | numbered hw' hk he =>
      have hnumber := (Naming.append_number_inj he).2
      omega
    | group he =>
      apply word_ne_group hw (sc.counter + 1)
      rw [he, Naming.word_groupVar]

theorem mono {more : List String} (h : Drawn ws sc) (hsub : ws ⊆ more) : Drawn more sc :=
  ⟨h.tidy, fun w hw hmem => hsub (h.words w hw hmem)⟩

/-- A word that is new to the number. -/
theorem add {w : String} (h : Drawn ws sc) (hw : w ∈ numberedWords) (hnew : w ∉ ws) {t : Scope}
    (hcounter : t.counter = sc.counter)
    (hnames : t.names.Perm (numbered w sc.counter :: sc.names))
    (hgroups : ∀ other ∈ t.integers ++ t.logicals, word other ≠ "group".toList) :
    Drawn (w :: ws) t where
  tidy := h.tidy.add (.numbered hw (Nat.le_refl _) (by rw [hcounter])) (Nat.le_of_eq hcounter.symm)
    (fun hmem => hnew (h.words w hw hmem)) hnames hgroups
  words other hother hmem := by
    rw [hcounter] at hmem
    rcases List.mem_cons.mp (hnames.mem_iff.mp hmem) with he | hmem
    · exact (Naming.append_number_inj he).1 ▸ List.mem_cons_self ..
    · exact List.mem_cons_of_mem w (h.words other hother hmem)

theorem integer {w : String} (h : Drawn ws sc) (hw : w ∈ numberedWords) (hnew : w ∉ ws) :
    Drawn (w :: ws) (sc.integer w sc.counter).2 := by
  refine h.add hw hnew rfl (names_integer sc w sc.counter) fun other hother => ?_
  simp only [Scope.integer, List.mem_append, List.mem_singleton] at hother
  rcases hother with (hother | rfl) | hother
  · exact h.tidy.groups other (List.mem_append_left _ hother)
  · exact word_ne_group hw sc.counter
  · exact h.tidy.groups other (List.mem_append_right _ hother)

theorem logical {w : String} (h : Drawn ws sc) (hw : w ∈ numberedWords) (hnew : w ∉ ws) :
    Drawn (w :: ws) (sc.logical w sc.counter).2 := by
  refine h.add hw hnew rfl (names_logical sc w sc.counter) fun other hother => ?_
  simp only [Scope.logical, List.mem_append, List.mem_singleton] at hother
  rcases hother with hother | hother | rfl
  · exact h.tidy.groups other (List.mem_append_left _ hother)
  · exact h.tidy.groups other (List.mem_append_right _ hother)
  · exact word_ne_group hw sc.counter

/-- The variable of a group has no number of its own. -/
theorem declare (h : Drawn ws sc) (path : List (Nat × Nat)) (type : ValueType) :
    Drawn ws (sc.declare (groupVar path) type) := by
  unfold Scope.declare
  split
  next => exact h
  next hnone =>
    let t : Scope := { sc with others := sc.others ++ [(groupVar path, type)] }
    have hperm : t.names.Perm (groupVar path :: sc.names) :=
      names_other sc (groupVar path, type) (t := t) rfl rfl rfl
    constructor
    · refine h.tidy.add (.group rfl) (Nat.le_refl _) (fun hmem => ?_) hperm h.tidy.groups
      -- only the variables with types of their own were looked at, and no other is a group's
      rcases List.mem_append.mp hmem with hmem | hmem
      · exact h.tidy.groups _ hmem (Naming.word_groupVar path)
      · obtain ⟨v, hv, hname⟩ := List.mem_map.mp hmem
        exact hnone (List.any_eq_true.mpr ⟨v, hv, beq_iff_eq.mpr hname⟩)
    · intro w hw hmem
      rcases List.mem_cons.mp (hperm.mem_iff.mp hmem) with he | hmem
      · exact absurd ((congrArg word he).trans (Naming.word_groupVar path)) (word_ne_group hw _)
      · exact h.words w hw hmem

end Drawn

/-- The variable for values that nobody reads is there, or gets a number of its own. -/
theorem Tidy.scratch {sc : Scope} (h : Tidy sc) (type : ValueType) : Tidy (sc.scratch type).2 := by
  unfold Scope.scratch
  split
  next => exact h
  next =>
    let v := (numbered "scratch" sc.fresh.2.counter, type)
    let t : Scope := { sc.fresh.2 with others := sc.fresh.2.others ++ [v] }
    have hperm : t.names.Perm (v.1 :: sc.fresh.2.names) := names_other _ v rfl rfl rfl
    have hdrawn : Drawn ["scratch"] t :=
      (Drawn.fresh h).add (by decide) (by decide) rfl hperm h.groups
    exact hdrawn.tidy

end PegCompiler.Lowering
