import Mathlib.Data.List.DropRight
import PegCompiler.Text.Indentation
/-
  Trimmed texts and lines. Trimming, splitting and taking indentation away only leave
  characters out; a text is trimmed to nothing if it is blank.
-/

namespace PegCompiler.Text

/-! ## Trimmed texts -/

theorem trimEnd_subset (cs : List Char) : trimEnd cs ⊆ cs :=
  (List.rdropWhile_prefix isBlank cs).subset

theorem trim_subset (cs : List Char) : trim cs ⊆ cs :=
  List.Subset.trans (trimEnd_subset _) (List.dropWhile_sublist isBlank).subset

theorem trim_eq_nil {cs : List Char} : trim cs = [] ↔ cs.all isBlank = true := by
  change (cs.dropWhile isBlank).rdropWhile isBlank = [] ↔ _
  rw [List.rdropWhile_eq_nil_iff, List.all_eq_true]
  constructor
  · intro h
    -- what is left begins with a character that is not blank, so nothing is left
    have hnil : cs.dropWhile isBlank = [] := by
      by_contra hne
      have hkept := List.head_dropWhile_not isBlank hne
      rw [h _ (List.head_mem hne)] at hkept
      exact Bool.noConfusion hkept
    exact List.dropWhile_eq_nil_iff.mp hnil
  · intro h c hc
    exact h c ((List.dropWhile_sublist isBlank).subset hc)

theorem trimmed_eq_empty {s : String} : trimmed s = "" ↔ isBlankText s = true := by
  rw [trimmed, isBlankText, ← trim_eq_nil, ← String.toList_inj, String.toList_ofList]
  rfl

/-! ## Lines -/

/-- One more character in front goes into one line at most, or begins a line of its own. -/
theorem mem_lines_cons {c : Char} {split : LineSplit} {line : List Char}
    (h : line ∈ (split.cons c).lines) : ∃ old ∈ [] :: split.lines, line ⊆ c :: old := by
  unfold LineSplit.cons at h
  split at h
  · exact ⟨line, h, List.subset_cons_self _ _⟩
  · split at h
    · exact ⟨line, List.mem_cons_of_mem _ h, List.subset_cons_self _ _⟩
    · split at h
      · obtain rfl := List.mem_singleton.mp h
        exact ⟨[], List.mem_cons_self, List.Subset.refl _⟩
      · next first rest hlines =>
        rw [hlines]
        rcases List.mem_cons.mp h with rfl | h
        · exact ⟨first, List.mem_cons_of_mem _ List.mem_cons_self, List.Subset.refl _⟩
        · exact ⟨line, List.mem_cons_of_mem _ (List.mem_cons_of_mem _ h),
            List.subset_cons_self _ _⟩

theorem subset_of_mem_lines {cs line : List Char} (h : line ∈ lines cs) : line ⊆ cs := by
  unfold lines at h
  induction cs generalizing line with
  | nil => exact nomatch h
  | cons c cs ih =>
    obtain ⟨old, hold, hline⟩ := mem_lines_cons h
    refine List.Subset.trans hline (List.cons_subset_cons c ?_)
    rcases List.mem_cons.mp hold with rfl | hold
    · exact List.nil_subset cs
    · exact ih hold

theorem subset_of_mem_dedent {code line : List Char} (h : line ∈ dedent code) : line ⊆ code := by
  unfold dedent at h
  obtain ⟨kept, hkept, rfl⟩ := List.mem_map.mp h
  have hmem : kept ∈ (lines code).map trimEnd := by
    have hends := List.mem_reverse.mp hkept
    have hfront := List.mem_reverse.mp ((List.dropWhile_sublist _).subset hends)
    exact (List.dropWhile_sublist _).subset hfront
  obtain ⟨whole, hwhole, rfl⟩ := List.mem_map.mp hmem
  exact List.Subset.trans (List.drop_subset _ _)
    (List.Subset.trans (trimEnd_subset whole) (subset_of_mem_lines hwhole))

end PegCompiler.Text
