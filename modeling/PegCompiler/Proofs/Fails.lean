import PegCompiler.Proofs.Yields
/-
  Runs that fail. `Fails x s e` says that `x`, started in state `s`, ends with the error `e`.
  A run of computations in a row fails in the first of them that does, behind runs of those
  in front of it that do not; so what is known of runs that do not fail (`Yields`) holds of
  all that lies in front of a failure.
-/

namespace PegCompiler

/-- A run that fails with an error. -/
def Fails {ε σ α : Type} (x : ExceptT ε (StateM σ) α) (s : σ) (e : ε) : Prop :=
  ∃ t, x.run.run s = (.error e, t)

namespace Fails

variable {ε σ α β : Type} {s : σ} {e : ε}

@[simp] theorem pure_iff {a : α} : Fails (pure a : ExceptT ε (StateM σ) α) s e ↔ False := by
  show (∃ t, ((.ok a, s) : Except ε α × σ) = (.error e, t)) ↔ _
  simp

@[simp] theorem throw_iff {e' : ε} :
    Fails (throw e' : ExceptT ε (StateM σ) α) s e ↔ e' = e := by
  show (∃ t, ((.error e', s) : Except ε α × σ) = (.error e, t)) ↔ _
  simp

@[simp] theorem modify_iff {f : σ → σ} :
    Fails (modify f : ExceptT ε (StateM σ) PUnit) s e ↔ False := by
  show (∃ t, ((.ok ⟨⟩, f s) : Except ε PUnit × σ) = (.error e, t)) ↔ _
  simp

@[simp] theorem modifyGet_iff {f : σ → α × σ} :
    Fails (modifyGet f : ExceptT ε (StateM σ) α) s e ↔ False := by
  show (∃ t, ((.ok (f s).1, (f s).2) : Except ε α × σ) = (.error e, t)) ↔ _
  simp

@[simp] theorem get_iff : Fails (get : ExceptT ε (StateM σ) σ) s e ↔ False := by
  show (∃ t, ((.ok s, s) : Except ε σ × σ) = (.error e, t)) ↔ _
  simp

/-- Of two computations one fails: the first, or the second behind the first. -/
@[simp] theorem bind_iff {x : ExceptT ε (StateM σ) α} {f : α → ExceptT ε (StateM σ) β} :
    Fails (x >>= f) s e ↔ Fails x s e ∨ ∃ a t, Yields x s a t ∧ Fails (f a) t e := by
  unfold Fails
  rw [Yields.run_bind]
  rcases hx : x.run.run s with ⟨e' | a, u⟩
  · constructor
    · rintro ⟨t, h⟩
      exact .inl ⟨u, by cases h; rfl⟩
    · rintro (⟨t, h⟩ | ⟨a, t, hyields, -⟩)
      · exact ⟨u, by cases h; rfl⟩
      · exact nomatch hx.symm.trans hyields
  · constructor
    · exact fun h => .inr ⟨a, u, hx, h⟩
    · rintro (⟨t, h⟩ | ⟨b, t, hyields, h⟩)
      · exact nomatch h
      · cases hx.symm.trans hyields
        exact h

/-- A run that fails does not succeed. -/
theorem not_succeeds {x : ExceptT ε (StateM σ) α} (h : Fails x s e) : ¬ Succeeds x s := by
  rintro ⟨a, t, hyields⟩
  obtain ⟨u, h⟩ := h
  exact nomatch hyields.symm.trans h

theorem mapM_nil_iff {f : α → ExceptT ε (StateM σ) β} : Fails ([].mapM f) s e ↔ False := by
  rw [List.mapM_nil, pure_iff]

/-- Of computations in a row, one for each item of a list, the first that fails ends the
row. -/
theorem of_mapM {f : α → ExceptT ε (StateM σ) β} : ∀ {xs : List α} {s : σ}, Fails (xs.mapM f) s e →
    ∃ front x back bs t, xs = front ++ x :: back ∧ Yields (front.mapM f) s bs t ∧ Fails (f x) t e
  | [], _, h => (mapM_nil_iff.mp h).elim
  | x :: xs, s, h => by
    rw [List.mapM_cons] at h
    simp only [bind_iff, pure_iff, and_false, exists_false, or_false] at h
    rcases h with h | ⟨b, t, hx, h⟩
    · exact ⟨[], x, xs, [], s, rfl, Yields.mapM_nil_iff.mpr ⟨rfl, rfl⟩, h⟩
    · obtain ⟨front, y, back, bs, u, rfl, hfront, hy⟩ := of_mapM h
      exact ⟨x :: front, y, back, b :: bs, u, rfl,
        Yields.mapM_cons_iff.mpr ⟨b, t, hx, bs, hfront, rfl⟩, hy⟩

end Fails

end PegCompiler
