import PegCompiler.Proofs.Naming.Identifiers
/-
  The base of an id is the first free one. An id has its name alone unless an earlier id
  shows that name, and else the name with the least number that no earlier id shows it with
  (`leastFree_among`). What comes behind an id in a list does not change its base, and an
  id that comes again changes nothing; so the base of an id depends on the different ids
  in front of it only.
-/

namespace PegCompiler.Naming

open Resolved

/-! ## The first free base -/

/-- A base is the name itself if that is not taken, and else the name with the least number
that is not. -/
structure LeastFree (taken : String → Prop) (b : BaseName) : Prop where
  alone : b.number = none ↔ ¬ taken b.name
  least : ∀ n, b.number = some n → 1 ≤ n ∧ ¬ taken (b.name ++ "_" ++ toString n) ∧
    ∀ m, 1 ≤ m → m < n → taken (b.name ++ "_" ++ toString m)

theorem name_among (taken : List String) (name : String) :
    (BaseName.among taken name).name = name := by
  unfold BaseName.among
  split <;> rfl

theorem leastFree_among (taken : List String) (name : String) :
    LeastFree (· ∈ taken) (BaseName.among taken name) := by
  by_cases htaken : name ∈ taken
  · -- of one more numbers than there are taken names one is free, so the search finds one
    obtain ⟨k, hk, hfree⟩ := exists_free_number taken name
    have hsome : ((List.range' 1 (taken.length + 1)).find?
        fun n => !taken.contains (BaseName.mk name (some n)).shown).isSome := by
      rw [List.find?_isSome]
      exact ⟨k, hk, by simpa using hfree⟩
    obtain ⟨n, hn⟩ := Option.isSome_iff_exists.mp hsome
    have hamong : BaseName.among taken name = ⟨name, some n⟩ := by
      rw [BaseName.among, if_pos (List.contains_iff_mem.mpr htaken), hn]
    obtain ⟨hnot, hrange, hbefore⟩ := List.find?_range'_eq_some.mp hn
    rw [hamong]
    refine ⟨by simpa using htaken, fun m hm => ?_⟩
    obtain rfl := Option.some.inj hm
    refine ⟨(List.mem_range'_1.mp hrange).1, ?_, fun m hpos hlt => ?_⟩
    · simpa [BaseName.shown] using hnot
    · simpa [BaseName.shown] using hbefore m hpos hlt
  · have hamong : BaseName.among taken name = ⟨name, none⟩ := by
      rw [BaseName.among, if_neg (by simpa using htaken)]
    rw [hamong]
    refine ⟨by simpa using htaken, fun m hm => ?_⟩
    cases hm

theorem LeastFree.congr {taken taken' : String → Prop} {b : BaseName} (h : LeastFree taken b)
    (hsame : ∀ name, taken name ↔ taken' name) : LeastFree taken' b := by
  have heq : taken = taken' := funext fun name => propext (hsame name)
  exact heq ▸ h

/-! ## Bases along a list -/

/-- The base of an id in a list is shown as a name. -/
def Shows (ids : List String) (id name : String) : Prop :=
  ∃ b, (RuleNames.ofIds ids).base id = some b ∧ b.shown = name

theorem ofIds_append (ids rest : List String) :
    RuleNames.ofIds (ids ++ rest) = rest.foldl RuleNames.add (RuleNames.ofIds ids) := by
  rw [RuleNames.ofIds, List.foldl_append, RuleNames.ofIds]

/-- What comes behind an id does not change its base. -/
theorem base_ofIds_append {ids : List String} {id : String} (h : id ∈ ids) (rest : List String) :
    (RuleNames.ofIds (ids ++ rest)).base id = (RuleNames.ofIds ids).base id := by
  obtain ⟨b, hb⟩ := exists_base h
  rw [hb, ofIds_append]
  exact base_foldl_of_some rest hb

theorem shows_append {ids : List String} {id name : String} (h : id ∈ ids) (rest : List String) :
    Shows (ids ++ rest) id name ↔ Shows ids id name := by
  rw [Shows, base_ofIds_append h, Shows]

/-- An id that comes again changes nothing. -/
theorem ofIds_repeated {ids : List String} {id : String} (h : id ∈ ids) (rest : List String) :
    RuleNames.ofIds (ids ++ id :: rest) = RuleNames.ofIds (ids ++ rest) := by
  obtain ⟨b, hb⟩ := exists_base h
  rw [ofIds_append, ofIds_append, List.foldl_cons, RuleNames.add, if_pos (by rw [hb]; rfl)]

theorem base_of_mem {names : RuleNames} (h : Distinct names) {id : String} {b : BaseName}
    (hmem : (id, b) ∈ names.bases) : names.base id = some b := by
  have hsome : (names.base id).isSome := List.lookup_isSome_iff.mpr ⟨_, hmem, beq_self_eq_true _⟩
  obtain ⟨c, hc⟩ := Option.isSome_iff_exists.mp hsome
  have heq : (id, c) = (id, b) := List.inj_on_of_nodup_map h.ids (mem_of_base hc) hmem rfl
  exact hc.trans (congrArg (fun entry => some entry.2) heq)

/-- The names that are taken behind a list are those that its ids show. -/
theorem mem_shown_iff {ids : List String} {name : String} :
    name ∈ (RuleNames.ofIds ids).bases.map (fun entry => entry.2.shown) ↔
      ∃ id ∈ ids, Shows ids id name := by
  rw [List.mem_map]
  constructor
  · rintro ⟨⟨id, b⟩, hmem, hshown⟩
    have hb := base_of_mem (distinct_ofIds ids) hmem
    exact ⟨id, mem_ids_of_base hb, b, hb, hshown⟩
  · rintro ⟨id, -, b, hb, hshown⟩
    exact ⟨(id, b), mem_of_base hb, hshown⟩

/-- The base of an id that comes for the first time. -/
theorem base_first {ids : List String} {id : String} (h : id ∉ ids) (rest : List String) :
    (RuleNames.ofIds (ids ++ id :: rest)).base id =
      some (.among ((RuleNames.ofIds ids).bases.map fun entry => entry.2.shown) (sanitize id)) := by
  have hnone : (RuleNames.ofIds ids).base id = none := by
    cases hb : (RuleNames.ofIds ids).base id with
    | none => rfl
    | some b => exact absurd (mem_ids_of_base hb) h
  rw [ofIds_append, List.foldl_cons]
  refine base_foldl_of_some rest ?_
  rw [RuleNames.add, hnone, Option.isSome_none, if_neg Bool.false_ne_true, RuleNames.base,
    List.lookup_append]
  simp only [RuleNames.base] at hnone
  simp [hnone]

/-- The name of a base is that of its id. -/
theorem name_of_base {ids : List String} {id : String} {b : BaseName}
    (h : (RuleNames.ofIds ids).base id = some b) : b.name = sanitize id := by
  obtain ⟨front, rest, rfl, hnew⟩ := List.eq_append_cons_of_mem (mem_ids_of_base h)
  rw [base_first hnew rest] at h
  obtain rfl := Option.some.inj h
  exact name_among _ _

/-! ## Shown bases -/

theorem sanitize_ne_empty (id : String) : sanitize id ≠ "" := by
  unfold sanitize
  split
  next => decide
  next hne =>
    intro hempty
    have hnil := congrArg String.toList hempty
    rw [String.toList_ofList] at hnil
    exact hne hnil

theorem shown_ne_empty {b : BaseName} (h : b.name ≠ "") : b.shown ≠ "" := by
  unfold BaseName.shown
  split
  next => exact h
  next => simp [h]

theorem exists_small_shown {b : BaseName} (h : ∃ n, Small n b.name) : ∃ n, Small n b.shown := by
  unfold BaseName.shown
  split
  next => exact h
  next k _ => exact exists_small_concat h k

/-- **Bases are different, minimal and stable.** Every id of a list has a base, which is made
of its name, and no two ids show the same. Where an id comes for the first time it gets the
first base that no id in front of it shows; where it comes again nothing changes; and
further ids change no base. -/
theorem bases_leastFree (ids : List String) :
    (∀ id, (∃ b, (RuleNames.ofIds ids).base id = some b) ↔ id ∈ ids) ∧
    (∀ i j name, Shows ids i name → Shows ids j name → i = j) ∧
    (∀ id b, (RuleNames.ofIds ids).base id = some b →
      b.name = sanitize id ∧ b.name.toList.length ≤ 40 ∧ b.shown ≠ "" ∧
        ∀ c ∈ b.shown.toList, isSmall c = true) ∧
    (∀ front id rest, ids = front ++ id :: rest → id ∉ front →
      ∃ b, (RuleNames.ofIds ids).base id = some b ∧
        LeastFree (fun name => ∃ earlier ∈ front, Shows ids earlier name) b) ∧
    (∀ front id rest, ids = front ++ id :: rest → id ∈ front →
      RuleNames.ofIds ids = RuleNames.ofIds (front ++ rest)) ∧
    ∀ rest id, id ∈ ids →
      (RuleNames.ofIds (ids ++ rest)).base id = (RuleNames.ofIds ids).base id := by
  refine ⟨fun id => ⟨fun ⟨_, hb⟩ => mem_ids_of_base hb, exists_base⟩, ?_, ?_, ?_, ?_,
    fun rest id h => base_ofIds_append h rest⟩
  · rintro i j name ⟨b, hb, rfl⟩ ⟨c, hc, hshown⟩
    exact base_inj hb hc hshown.symm
  · intro id b hb
    have hname := name_of_base hb
    rw [hname]
    have hsmall := small_sanitize id
    obtain ⟨n, hshown⟩ := exists_small_shown (b := b) ⟨40, hname ▸ hsmall⟩
    exact ⟨rfl, hsmall.length, shown_ne_empty (hname ▸ sanitize_ne_empty id), hshown.chars⟩
  · rintro front id rest rfl hnew
    refine ⟨_, base_first hnew rest, (leastFree_among _ _).congr fun name => ?_⟩
    rw [mem_shown_iff]
    refine exists_congr fun earlier => and_congr_right fun hmem => ?_
    rw [shows_append hmem]
  · rintro front id rest rfl hmem
    exact ofIds_repeated hmem rest

/-- Ids that have one name, one of them with the number that another one gets. -/
def alikeIds : List String := ["a_1", "A", "a", "A", "a-1", "Ä"]

theorem alikeIds_leastFree :
    "a" ∉ ["a_1", "A"] ∧ Shows alikeIds "a" "a_2" ∧
    ∃ b, (RuleNames.ofIds alikeIds).base "a" = some b ∧
      LeastFree (fun name => ∃ earlier ∈ ["a_1", "A"], Shows alikeIds earlier name) b := by
  have hnew : "a" ∉ ["a_1", "A"] := by decide
  refine ⟨hnew, ⟨⟨"a", some 2⟩, by decide +kernel, by decide +kernel⟩, ?_⟩
  exact (bases_leastFree alikeIds).2.2.2.1 ["a_1", "A"] "a" ["A", "a-1", "Ä"] rfl hnew

end PegCompiler.Naming
