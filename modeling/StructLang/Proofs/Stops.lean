import StructLang.Proofs.Execution

/-!
# What stops code

`Stops` says what holds of everything that can stop code, and `Ends` that it is never the budget that
runs out. `Fails` is the same for computations that use no machine. All are put together along `bind`, for
both kinds of machines.
-/

namespace StructLang

def Fails {ε α : Type} (x : Except ε α) (P : ε → Prop) : Prop := ∀ e, x = .error e → P e

namespace Fails

variable {ε α β : Type} {x : Except ε α}

theorem ok (a : α) : Fails (.ok a) P := by
  rintro _ ⟨⟩

theorem error (h : P e) : Fails (.error e : Except ε α) P := by
  rintro _ ⟨⟩
  exact h

theorem bind (hx : Fails x P) (hy : ∀ a, Fails (y a) P) : Fails (x >>= y) P := by
  cases x with
  | error e => exact .error (hx e rfl)
  | ok a => exact hy a

theorem map (hx : Fails x P) : Fails (g <$> x) P := by
  cases x with
  | error e => exact .error (hx e rfl)
  | ok a => exact .ok (g a)

theorem mapError (h : ∀ e, Q (g e)) : Fails (x.mapError g) Q := by
  cases x with
  | error e => exact .error (h e)
  | ok a => exact .ok a

theorem mapM {xs : List α} (hg : ∀ a, Fails (g a) P) : Fails (xs.mapM g) P := by
  induction xs with
  | nil => exact .ok []
  | cons a xs ih =>
    rw [List.mapM_cons]
    exact (hg a).bind fun b => ih.bind fun bs => .ok (b :: bs)

end Fails

namespace Execution

section

variable {φ σ α β β' : Type} {P : Stop φ → Prop}

theorem ensures_true (x : Execution φ σ β) (s : σ) : Ensures x s fun _ _ => True :=
  fun _ _ _ => True.intro

def Stops (x : Execution φ σ β) (P : Stop φ → Prop) : Prop :=
  ∀ s stop s', x s = .error stop s' → P stop

namespace Stops

theorem pure (b : β) : Stops (Pure.pure b : Execution φ σ β) P := by
  rintro s stop s' ⟨⟩

theorem throw (h : P stop) : Stops (throw stop : Execution φ σ β) P := by
  rintro s _ s' ⟨⟩
  exact h

theorem seq {Q : β → Prop} (hx : Stops x P)
    (hQ : ∀ s, Ensures x s fun b _ => Q b) (hy : ∀ b, Q b → Stops (y b) P) : Stops (x >>= y) P := by
  intro s stop s' h
  cases hx' : x s with
  | ok b s'' =>
    rw [bind_of_ok hx'] at h
    exact hy b (hQ s b s'' hx') s'' stop s' h
  | error stop' s'' =>
    rw [bind_of_error hx'] at h
    cases h
    exact hx s stop s' hx'

theorem bind (hx : Stops x P) (hy : ∀ b, Stops (y b) P) : Stops (x >>= y) P :=
  hx.seq (ensures_true x) fun b _ => hy b

theorem get : Stops (get : Execution φ σ σ) P := by
  rintro s stop s' ⟨⟩

theorem modify (g : σ → σ) : Stops (modify g : Execution φ σ Unit) P := by
  rintro s stop s' ⟨⟩

theorem mapM {xs : List α} (h : ∀ a ∈ xs, Stops (g a) P) : Stops (xs.mapM g) P := by
  induction xs with
  | nil => exact pure []
  | cons a xs ih =>
    obtain ⟨ha, hxs⟩ := List.forall_mem_cons.mp h
    rw [List.mapM_cons]
    exact ha.bind fun b => (ih hxs).bind fun bs => pure (b :: bs)

end Stops

abbrev Ends (x : Execution φ σ β) : Prop := Stops x (· ≠ .outOfBudget)

end

theorem exists_enough (P : α → Nat → Prop) (xs : List α)
    (h : ∀ x ∈ xs, ∃ enough, ∀ n, enough ≤ n → P x n) :
    ∃ enough, ∀ n, enough ≤ n → ∀ x ∈ xs, P x n := by
  induction xs with
  | nil => exact ⟨0, by simp⟩
  | cons x xs ih =>
    obtain ⟨hx, hxs⟩ := List.forall_mem_cons.mp h
    obtain ⟨a, ha⟩ := hx
    obtain ⟨b, hb⟩ := ih hxs
    refine ⟨max a b, fun n hn => List.forall_mem_cons.mpr ⟨ha n ?_, hb n ?_⟩⟩ <;> omega

end Execution

end StructLang
