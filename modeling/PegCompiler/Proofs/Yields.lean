/-
  Runs of computations that keep a state and may fail. `Yields x s a t` says that
  `x`, started in state `s`, ends with the value `a` in state `t`; each lemma below
  takes one step of a computation apart.
-/

namespace PegCompiler

/-- A run that does not fail. -/
def Yields {ε σ α : Type} (x : ExceptT ε (StateM σ) α) (s : σ) (a : α) (t : σ) : Prop :=
  x.run.run s = (.ok a, t)

namespace Yields

variable {ε σ α β : Type} {s t : σ}

@[simp] theorem pure_iff {a b : α} :
    Yields (pure b : ExceptT ε (StateM σ) α) s a t ↔ b = a ∧ s = t := by
  show ((.ok b, s) : Except ε α × σ) = (.ok a, t) ↔ _
  simp

/-- What follows a computation runs where that has ended, unless it has failed. -/
theorem run_bind (x : ExceptT ε (StateM σ) α) (f : α → ExceptT ε (StateM σ) β) (s : σ) :
    (x >>= f).run.run s = match x.run.run s with
      | (.ok a, u) => (f a).run.run u
      | (.error e, u) => (.error e, u) := by
  show (match x.run.run s with
    | (r, u) => ExceptT.bindCont f r u) = _
  rcases x.run.run s with ⟨_ | a, u⟩ <;> rfl

/-- What follows a computation need only be the same for the values that it gives. -/
theorem bind_congr {x : ExceptT ε (StateM σ) α} {f g : α → ExceptT ε (StateM σ) β}
    (h : ∀ s a t, Yields x s a t → f a = g a) : (x >>= f) = (x >>= g) := by
  funext s
  show (x >>= f).run.run s = (x >>= g).run.run s
  rw [run_bind, run_bind]
  rcases hx : x.run.run s with ⟨_ | a, t⟩
  · rfl
  · dsimp only
    rw [h s a t hx]

@[simp] theorem bind_iff {x : ExceptT ε (StateM σ) α} {f : α → ExceptT ε (StateM σ) β} {b : β} :
    Yields (x >>= f) s b t ↔ ∃ a u, Yields x s a u ∧ Yields (f a) u b t := by
  unfold Yields
  rw [run_bind]
  rcases x.run.run s with ⟨_ | a, u⟩
  · exact ⟨fun h => (nomatch h), fun ⟨_, _, h, _⟩ => (nomatch h)⟩
  · exact ⟨fun h => ⟨a, u, rfl, h⟩, fun ⟨_, _, h, hf⟩ => by cases h; exact hf⟩

@[simp] theorem throw_iff {e : ε} {a : α} :
    Yields (throw e : ExceptT ε (StateM σ) α) s a t ↔ False := by
  show ((.error e, s) : Except ε α × σ) = (.ok a, t) ↔ _
  simp

@[simp] theorem modify_iff {f : σ → σ} {u : PUnit} :
    Yields (modify f : ExceptT ε (StateM σ) PUnit) s u t ↔ f s = t := by
  show ((.ok ⟨⟩, f s) : Except ε PUnit × σ) = (.ok u, t) ↔ _
  simp

@[simp] theorem modifyGet_iff {f : σ → α × σ} {a : α} :
    Yields (modifyGet f : ExceptT ε (StateM σ) α) s a t ↔ f s = (a, t) := by
  show ((.ok (f s).1, (f s).2) : Except ε α × σ) = (.ok a, t) ↔ _
  simp [Prod.ext_iff]

@[simp] theorem get_iff {a : σ} :
    Yields (get : ExceptT ε (StateM σ) σ) s a t ↔ s = a ∧ s = t := by
  show ((.ok s, s) : Except ε σ × σ) = (.ok a, t) ↔ _
  simp

@[simp] theorem map_iff {x : ExceptT ε (StateM σ) α} {f : α → β} {b : β} :
    Yields (f <$> x) s b t ↔ ∃ a, Yields x s a t ∧ f a = b := by
  rw [map_eq_pure_bind, bind_iff]
  simp

@[simp] theorem lift_iff {x : Except ε α} {a : α} :
    Yields (liftM x : ExceptT ε (StateM σ) α) s a t ↔ x = .ok a ∧ s = t := by
  show ((x, s) : Except ε α × σ) = (.ok a, t) ↔ _
  simp

/-- Computations in a row, one for each item of a list. -/
theorem mapM_cons_iff {f : α → ExceptT ε (StateM σ) β} {a : α} {rest : List α} {bs : List β} :
    Yields ((a :: rest).mapM f) s bs t ↔
      ∃ b u, Yields (f a) s b u ∧ ∃ cs, Yields (rest.mapM f) u cs t ∧ b :: cs = bs := by
  rw [List.mapM_cons]
  simp

theorem mapM_nil_iff {f : α → ExceptT ε (StateM σ) β} {bs : List β} :
    Yields ([].mapM f) s bs t ↔ [] = bs ∧ s = t := by
  rw [List.mapM_nil]
  simp

end Yields

/-- A run from a state does not fail. -/
def Succeeds {ε σ α : Type} (x : ExceptT ε (StateM σ) α) (s : σ) : Prop :=
  ∃ a t, Yields x s a t

namespace Succeeds

variable {ε σ α β : Type} {s : σ}

theorem pure (a : α) : Succeeds (pure a : ExceptT ε (StateM σ) α) s :=
  ⟨a, s, rfl⟩

theorem modify (f : σ → σ) : Succeeds (modify f : ExceptT ε (StateM σ) PUnit) s :=
  ⟨⟨⟩, f s, rfl⟩

/-- A computation and what follows it do not fail if the first does not, and what
follows does not behind it. -/
theorem bind {x : ExceptT ε (StateM σ) α} {f : α → ExceptT ε (StateM σ) β} (hx : Succeeds x s)
    (hf : ∀ a t, Yields x s a t → Succeeds (f a) t) : Succeeds (x >>= f) s := by
  obtain ⟨a, t, ha⟩ := hx
  obtain ⟨b, u, hb⟩ := hf a t ha
  exact ⟨b, u, Yields.bind_iff.mpr ⟨a, t, ha, hb⟩⟩

end Succeeds

end PegCompiler
