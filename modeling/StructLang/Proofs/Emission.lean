import StructLang.LoweringError

/-!
# What a step of lowering adds

A step of lowering an expression draws on a supply, such as numbers of registers, and adds code at one
place of the draft; everything else stays. `Emits` says so of a step that succeeds, and relates the
supply before, the result, the code and the supply after. The combinators follow the shape of lowering
programs.
-/

namespace StructLang

/-- The part of a draft that is drawn on, and the place where code is added. -/
structure Emission (σ τ ι : Type) where
  supply : σ → τ
  /-- The draft with another supply and more code. -/
  extend : σ → τ → List ι → σ
  supply_extend : ∀ d s c, supply (extend d s c) = s
  extend_supply : ∀ d, extend d (supply d) [] = d
  extend_extend : ∀ d s c s' c', extend (extend d s c) s' c' = extend d s' (c ++ c')

variable {σ τ ι ε α β : Type}

/-- From a supply `s`, the step only adds code, and what it does satisfies `Q` if it succeeds. -/
def Emits (m : Emission σ τ ι) (s : τ) (x : StateT σ (Except ε) α)
    (Q : α → List ι → τ → Prop) : Prop :=
  ∀ d, m.supply d = s → ∀ a d', x d = .ok (a, d') → ∃ c s', d' = m.extend d s' c ∧ Q a c s'

theorem except_bind_eq_ok {k : α → Except ε β} :
    (x >>= k) = .ok b ↔ ∃ a, x = .ok a ∧ k a = .ok b := by
  cases x with
  | error e | ok a => simp [bind, Except.bind]

theorem mapError_eq_ok {x : Except ε α} (h : x.mapError g = .ok a) : x = .ok a := by
  cases x with
  | error e => cases h
  | ok b =>
    cases h
    rfl

theorem bind_eq_ok {x : StateT σ (Except ε) α} {k : α → StateT σ (Except ε) β} {d d'' : σ} {b : β} :
    (x >>= k) d = .ok (b, d'') ↔ ∃ a d', x d = .ok (a, d') ∧ k a d' = .ok (b, d'') := by
  change (x d >>= fun p => k p.1 p.2) = _ ↔ _
  rw [except_bind_eq_ok, Prod.exists]

theorem lift_eq_ok {y : Except ε α} :
    (liftM y : StateT σ (Except ε) α) d = .ok (a, d') ↔ y = .ok a ∧ d' = d := by
  cases y with
  | error e => exact ⟨nofun, fun h => nomatch h.1⟩
  | ok b =>
    constructor
    · intro h
      cases h
      exact ⟨rfl, rfl⟩
    · rintro ⟨h, rfl⟩
      cases h
      rfl

namespace Emits

variable {x : StateT σ (Except ε) α} {R : β → List ι → τ → Prop}

theorem pure (h : Q a [] s) : Emits m s (pure a : StateT σ (Except ε) α) Q := by
  rintro d rfl _ _ ⟨⟩
  exact ⟨[], m.supply d, (m.extend_supply d).symm, h⟩

theorem bind (h : Emits m s x Q)
    (hk : ∀ a c s', Q a c s' → Emits m s' (k a) fun b c' s'' => R b (c ++ c') s'') :
    Emits m s (x >>= k) R := by
  intro d hd b d'' heq
  obtain ⟨a, d', hx, hka⟩ := bind_eq_ok.mp heq
  obtain ⟨c, s', rfl, ha⟩ := h d hd a d' hx
  obtain ⟨c', s'', rfl, hb⟩ := hk a c s' ha _ (m.supply_extend _ _ _) b d'' hka
  exact ⟨c ++ c', s'', m.extend_extend .., hb⟩

theorem lift {y : Except ε α} {k : α → StateT σ (Except ε) β}
    (hk : ∀ a, y = .ok a → Emits m s (k a) R) : Emits m s (liftM y >>= k) R := by
  intro d hd b d'' heq
  obtain ⟨a, d', hx, hka⟩ := bind_eq_ok.mp heq
  obtain ⟨hy, rfl⟩ := lift_eq_ok.mp hx
  exact hk a hy _ hd b d'' hka

theorem mono (h : Emits m s x Q) (hQ : ∀ a c s', Q a c s' → Q' a c s') : Emits m s x Q' := by
  intro d hd a d' heq
  obtain ⟨c, s', hd', ha⟩ := h d hd a d' heq
  exact ⟨c, s', hd', hQ a c s' ha⟩

theorem ite [Decidable p] (hx : p → Emits m s x Q) (hy : ¬p → Emits m s y Q) :
    Emits m s (if p then x else y) Q := by
  split
  · next h => exact hx h
  · next h => exact hy h

end Emits

/-- From a supply `s`, the step succeeds with this result and adds just this code. -/
def Does (m : Emission σ τ ι) (s : τ) (x : StateT σ (Except ε) α) (a : α) (c : List ι) (s' : τ) :
    Prop :=
  ∀ d, m.supply d = s → x d = .ok (a, m.extend d s' c)

namespace Does

variable {c : List ι}

theorem emits (h : Does m s x a c s') (hQ : Q a c s') : Emits m s x Q := by
  intro d hd _ _ heq
  cases (h d hd).symm.trans heq
  exact ⟨c, s', rfl, hQ⟩

theorem bind (h : Does m s x a c s')
    (hk : Emits m s' (k a) fun b c' s'' => R b (c ++ c') s'') : Emits m s (x >>= k) R := by
  refine (h.emits (Q := fun a' c' s'' => a' = a ∧ c' = c ∧ s'' = s') ⟨rfl, rfl, rfl⟩).bind ?_
  rintro _ _ _ ⟨rfl, rfl, rfl⟩
  exact hk

end Does

/-- If the step succeeds from `d`, its result and the draft after it satisfy `Q`. -/
def Leads (d : σ) (x : StateT σ (Except ε) α) (Q : α → σ → Prop) : Prop :=
  ∀ a d', x d = .ok (a, d') → Q a d'

namespace Leads

variable {Q' : α → σ → Prop}

theorem pure (h : Q a d) : Leads d (pure a : StateT σ (Except ε) α) Q := by
  rintro _ _ ⟨⟩
  exact h

theorem bind (h : Leads d x Q) (hk : ∀ a d', Q a d' → Leads d' (k a) R) : Leads d (x >>= k) R := by
  intro b d'' heq
  obtain ⟨a, d', hx, hka⟩ := bind_eq_ok.mp heq
  exact hk a d' (h a d' hx) b d'' hka

theorem lift {y : Except ε α} {k : α → StateT σ (Except ε) β}
    (hk : ∀ a, y = .ok a → Leads d (k a) R) : Leads d (liftM y >>= k) R := by
  intro b d'' heq
  obtain ⟨a, d', hx, hka⟩ := bind_eq_ok.mp heq
  obtain ⟨hy, rfl⟩ := lift_eq_ok.mp hx
  exact hk a hy b d'' hka

theorem modify (h : Leads (f d) (k ⟨⟩) R) : Leads d (modify f >>= k) R :=
  h

theorem mono (h : Leads d x Q) (hQ : ∀ a d', Q a d' → Q' a d') : Leads d x Q' :=
  fun a d' heq => hQ a d' (h a d' heq)

theorem of_emits (h : Emits m (m.supply d) x P) :
    Leads d x fun a d' => ∃ c s, d' = m.extend d s c ∧ P a c s :=
  fun a d' heq => h d rfl a d' heq

theorem of_does (h : Does m (m.supply d) x a c s)
    (hk : Leads (m.extend d s c) (k a) R) : Leads d (x >>= k) R := by
  intro b d' heq
  obtain ⟨_, _, hx, hrest⟩ := bind_eq_ok.mp heq
  cases (h d rfl).symm.trans hx
  exact hk b d' hrest

end Leads

end StructLang
