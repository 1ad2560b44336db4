import StructLang.Execution

/-!
# What finished runs ensure

Partial correctness: `Ensures` says what holds of the result and of the machine if code finishes. It is
put together along `bind`.
-/

namespace StructLang.Execution

variable {φ σ β β' : Type} {y : β → Execution φ σ β'}

theorem get_eq (s : σ) : (get : Execution φ σ σ) s = .ok s s := rfl

theorem bind_of_ok (h : x s = .ok b s') : (x >>= y) s = y b s' := by
  simp only [bind, EStateM.bind, h]

theorem bind_of_error (h : x s = .error stop s') : (x >>= y) s = .error stop s' := by
  simp only [bind, EStateM.bind, h]

theorem bind_eq_ok : (x >>= y) s = .ok b' s'' ↔ ∃ b s', x s = .ok b s' ∧ y b s' = .ok b' s'' := by
  constructor
  · intro h
    cases hx : x s with
    | ok b s' =>
      rw [bind_of_ok hx] at h
      exact ⟨b, s', rfl, h⟩
    | error stop s' =>
      rw [bind_of_error hx] at h
      cases h
  · rintro ⟨b, s', hx, hy⟩
    rw [bind_of_ok hx, hy]

/-- If the code finishes, its result and the machine then have a property. -/
def Ensures (x : Execution φ σ β) (s : σ) (Q : β → σ → Prop) : Prop :=
  ∀ b s', x s = .ok b s' → Q b s'

namespace Ensures

theorem pure (h : Q b s) : Ensures (Pure.pure b : Execution φ σ β) s Q := by
  rintro _ _ ⟨⟩
  exact h

theorem throw (stop : Stop φ) : Ensures (MonadExcept.throw stop : Execution φ σ β) s Q := nofun

theorem bind (hx : Ensures x s Q) (hy : ∀ b s', Q b s' → Ensures (y b) s' R) :
    Ensures (x >>= y) s R := by
  intro b' s'' h
  obtain ⟨b, s', hb, h⟩ := bind_eq_ok.mp h
  exact hy b s' (hx b s' hb) b' s'' h

theorem mono (h : Ensures x s Q) (hQ : ∀ b s', Q b s' → Q' b s') : Ensures x s Q' :=
  fun b s' hb => hQ b s' (h b s' hb)

end Ensures

end StructLang.Execution
