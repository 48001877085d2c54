import Mathlib.Data.List.Forall2
/-
  Lists whose items are of a kind, or related one by one to those of another list.
-/

namespace PegCompiler

/-- Exactly one item of a list is of a kind. -/
def OnlyOne {α : Type} (xs : List α) (kind : α → Bool) (x : α) : Prop :=
  xs.filter kind = [x]

theorem onlyOne_of_nodup {α β : Type} [DecidableEq β] {xs : List α} {x : α} {f : α → β}
    (h : (xs.map f).Nodup) (hx : x ∈ xs) : OnlyOne xs (fun y => f y == f x) x := by
  induction xs with
  | nil => simp at hx
  | cons y xs ih =>
    rw [List.map_cons, List.nodup_cons] at h
    unfold OnlyOne at ih ⊢
    rcases List.mem_cons.mp hx with rfl | hx
    · have hrest : xs.filter (fun y => f y == f x) = [] := by
        rw [List.filter_eq_nil_iff]
        exact fun y hy he => h.1 (List.mem_map.mpr ⟨y, hy, by simpa using he⟩)
      rw [List.filter_cons_of_pos (by simp), hrest]
    · have hne : f y ≠ f x := fun he => h.1 (he ▸ List.mem_map_of_mem hx)
      rw [List.filter_cons_of_neg (by simpa using hne)]
      exact ih h.2 hx

namespace OnlyOne

variable {α : Type} {xs : List α} {kind : α → Bool} {x : α}

theorem mem (h : OnlyOne xs kind x) : x ∈ xs :=
  (List.mem_filter.mp (h ▸ List.mem_singleton_self x)).1

theorem holds (h : OnlyOne xs kind x) : kind x = true :=
  (List.mem_filter.mp (h ▸ List.mem_singleton_self x)).2

/-- What is the only item of its kind is the first one found. -/
theorem find? (h : OnlyOne xs kind x) : xs.find? kind = some x := by
  rw [← List.head?_filter, h]
  rfl

end OnlyOne

/-! ## Lists related item by item -/

theorem exists_left {α β : Type} {P : α → β → Prop} {b : β} : ∀ {as : List α} {bs : List β},
    List.Forall₂ P as bs → b ∈ bs → ∃ a ∈ as, P a b
  | _, _, .cons h hrest, hb => by
    rcases List.mem_cons.mp hb with rfl | hb
    · exact ⟨_, List.mem_cons_self .., h⟩
    · obtain ⟨a, ha, hP⟩ := exists_left hrest hb
      exact ⟨a, List.mem_cons_of_mem _ ha, hP⟩

theorem map_eq_map {α β γ : Type} {f : α → γ} {g : β → γ} {as : List α} {bs : List β}
    (h : List.Forall₂ (fun a b => f a = g b) as bs) : as.map f = bs.map g := by
  rw [← List.forall₂_eq_eq_eq, List.forall₂_map_left_iff, List.forall₂_map_right_iff]
  exact h

theorem exists_right {α β : Type} {P : α → β → Prop} {as : List α} {bs : List β} {a : α}
    (h : List.Forall₂ P as bs) (ha : a ∈ as) : ∃ b ∈ bs, P a b :=
  exists_left h.flip ha

theorem exists_forall₂ {α β : Type} {P : α → β → Prop} : ∀ (as : List α),
    (∀ a ∈ as, ∃ b, P a b) → ∃ bs, List.Forall₂ P as bs
  | [], _ => ⟨[], .nil⟩
  | a :: as, h => by
    obtain ⟨b, hb⟩ := h a (List.mem_cons_self ..)
    obtain ⟨bs, hbs⟩ := exists_forall₂ as fun a' ha' => h a' (List.mem_cons_of_mem a ha')
    exact ⟨b :: bs, .cons hb hbs⟩

theorem forall₂_zip_map {α β γ : Type} {P : α → β → Prop} {f : α → γ} : ∀ {as : List α}
    {bs : List β}, List.Forall₂ P as bs →
    List.Forall₂ (fun a e => e.1 = f a ∧ P a e.2) as ((as.map f).zip bs)
  | _, _, .nil => .nil
  | _, _, .cons h hrest => .cons ⟨rfl, h⟩ (forall₂_zip_map hrest)

/-- The first items of a kind in two related lists are related. -/
theorem rel_find? {α β : Type} {P : α → β → Prop} (kind : α → Bool) (kind' : β → Bool)
    (hkind : ∀ a b, P a b → kind a = kind' b) : ∀ {as : List α} {bs : List β},
    List.Forall₂ P as bs → Option.Rel P (as.find? kind) (bs.find? kind')
  | _, _, .nil => .none
  | a :: _, b :: _, .cons h hrest => by
    rw [List.find?_cons, List.find?_cons, hkind a b h]
    cases kind' b with
    | true => exact .some h
    | false => exact rel_find? kind kind' hkind hrest

theorem rel_imp {α β : Type} {P Q : α → β → Prop} (h : ∀ a b, P a b → Q a b) :
    ∀ {x : Option α} {y : Option β}, Option.Rel P x y → Option.Rel Q x y
  | _, _, .none => .none
  | _, _, .some hab => .some (h _ _ hab)

theorem mapM_eq_some {α β : Type} {f : α → Option β} : ∀ {as : List α} {bs : List β},
    List.Forall₂ (fun a b => f a = some b) as bs → as.mapM f = some bs
  | _, _, .nil => rfl
  | _, _, .cons h hrest => by
    rw [List.mapM_cons, h, mapM_eq_some hrest]
    rfl

theorem mapM_eq_ok {ε α β : Type} {f : α → Except ε β} : ∀ {as : List α} {bs : List β},
    List.Forall₂ (fun a b => f a = .ok b) as bs → as.mapM f = .ok bs
  | _, _, .nil => rfl
  | _, _, .cons h hrest => by
    rw [List.mapM_cons, h, mapM_eq_ok hrest]
    rfl

theorem forall₂_of_mapM_ok {ε α β : Type} {f : α → Except ε β} : ∀ {as : List α} {bs : List β},
    as.mapM f = .ok bs → List.Forall₂ (fun a b => f a = .ok b) as bs
  | [], bs, h => by
    obtain rfl : [] = bs := Except.ok.inj h
    exact .nil
  | a :: as, bs, h => by
    rw [List.mapM_cons] at h
    cases ha : f a with
    | error e =>
      rw [ha] at h
      nomatch h
    | ok b =>
      rw [ha] at h
      cases hrest : as.mapM f with
      | error e =>
        rw [hrest] at h
        nomatch h
      | ok rest =>
        rw [hrest] at h
        obtain rfl : b :: rest = bs := Except.ok.inj h
        exact .cons ha (forall₂_of_mapM_ok hrest)

/-- A result of which something is known is there. -/
theorem exists_ok_of_map {ε α β : Type} {x : Except ε α} {f : α → β} {b : β}
    (h : (x.map f).toOption = some b) : ∃ a, x = .ok a ∧ f a = b := by
  cases x with
  | error e => nomatch h
  | ok a => exact ⟨a, rfl, Option.some.inj h⟩

end PegCompiler
