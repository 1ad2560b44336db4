import StructLang.Proofs.Execution
import StructLang.Proofs.Lowering
import StructLang.Proofs.Meaning

/-!
# Machines that follow the meaning

`Follows` says that code on a machine does what the meaning of a program says: it ends in a related
machine where there is a value, and with the same failure where there is none. It is put together along
`bind` on both sides. `Goes` says the same of the code from a statement on, and `Located` ties the slots
of code to the variables of the meaning.
-/

namespace StructLang

mutual

def Stmt.jumps : Stmt → Nat
  | .branch _ _ t none => t.jumps + 2
  | .branch _ _ t (some e) => t.jumps + e.jumps + 2
  | _ => 0

def jumpsOf : List Stmt → Nat
  | [] => 0
  | s :: rest => s.jumps + jumpsOf rest

def Block.jumps : Block → Nat
  | .mk _ stmts => jumpsOf stmts

end

theorem exists_jumps_lt (fns : List FnDef) : ∃ n, ∀ g ∈ fns, g.body.jumps < n := by
  induction fns with
  | nil => exact ⟨0, List.forall_mem_nil _⟩
  | cons g rest ih =>
    obtain ⟨n, hn⟩ := ih
    refine ⟨n + g.body.jumps + 1, List.forall_mem_cons.mpr ⟨by omega, fun g' hg' => ?_⟩⟩
    have := hn g' hg'
    omega

variable {φ σ α α' β β' : Type}

def Execution.last (x : Execution φ σ β) (s : σ) : σ :=
  match x s with
  | .ok _ s' => s'
  | .error _ s' => s'

/-- How failures show up in a machine, and the machines for which claims are made. -/
structure Bridge (φ σ : Type) where
  shows : Meaning.Failure → φ → Prop
  within : σ → Prop

namespace Bridge

variable (B : Bridge φ σ)

def Retains (x : Execution φ σ β) : Prop := ∀ s, B.within (x.last s) → B.within s

/-- Code does what the meaning says, if it ends within the bounds. -/
def Follows (r : Except Meaning.Failure α) (x : Execution φ σ β) (s : σ) (Q : α → β → σ → Prop) :
    Prop :=
  B.within (x.last s) →
    match r with
    | .ok a => ∃ b s', x s = .ok b s' ∧ Q a b s'
    | .error e => ∃ f s', x s = .error (.fault f) s' ∧ B.shows e f

def Agrees (r : Except Meaning.Failure α) (r' : Except φ β) (Q : α → β → Prop) : Prop :=
  match r, r' with
  | .ok a, .ok b => Q a b
  | .error e, .error f => B.shows e f
  | _, _ => False

end Bridge

namespace Execution

variable {x : Execution φ σ β}

theorem last_of_ok (h : x s = .ok b s') : x.last s = s' := by rw [last, h]

theorem last_of_error (h : x s = .error stop s') : x.last s = s' := by rw [last, h]

end Execution

namespace Bridge

variable {B : Bridge φ σ}

theorem Retains.pure (b : β) : B.Retains (pure b : Execution φ σ β) := fun _ h => h

theorem Retains.throw (stop : Stop φ) : B.Retains (throw stop : Execution φ σ β) := fun _ h => h

theorem Retains.within (hy : ∀ b, B.Retains (y b))
    (h : B.within (Execution.last (x >>= y) s)) : B.within (x.last s) := by
  cases hr : x s with
  | ok b s' =>
    rw [Execution.last, Execution.bind_of_ok hr] at h
    rw [Execution.last_of_ok hr]
    exact hy b s' h
  | error stop s' =>
    rw [Execution.last, Execution.bind_of_error hr] at h
    rwa [Execution.last_of_error hr]

theorem Retains.bind (hx : B.Retains x) (hy : ∀ b, B.Retains (y b)) : B.Retains (x >>= y) :=
  fun s h => hx s (Retains.within hy h)

theorem Follows.mono (h : B.Follows r x s P)
    (hPQ : ∀ a b s', P a b s' → Q a b s') : B.Follows r x s Q := by
  intro hw
  have h := h hw
  cases r with
  | error e => exact h
  | ok a =>
    obtain ⟨b, s', hx, hp⟩ := h
    exact ⟨b, s', hx, hPQ a b s' hp⟩

theorem Follows.ok (h : x s = .ok b s') (hQ : B.within s' → Q a b s') :
    B.Follows (.ok a) x s Q := by
  intro hw
  rw [Execution.last_of_ok h] at hw
  exact ⟨b, s', h, hQ hw⟩

theorem Follows.error (h : x s = .error (.fault f) s') (hf : B.shows e f) :
    B.Follows (.error e) x s Q :=
  fun _ => ⟨f, s', h, hf⟩

theorem Follows.step {y : Execution φ σ β} (h : x s = y s') (hy : B.Follows r y s' Q) :
    B.Follows r x s Q := by
  intro hw
  rw [Execution.last, h] at hw
  have hy := hy hw
  rw [h]
  exact hy

theorem Follows.seq {r : Except Meaning.Failure α'} (h : x s = .ok b s')
    (hy : B.Follows r (y b) s' Q') : B.Follows r (x >>= y) s Q' := by
  intro hw
  rw [Execution.last, Execution.bind_of_ok h] at hw
  rw [Execution.bind_of_ok h]
  exact hy hw

theorem Follows.bind (h : B.Follows r x s Q) (hy : ∀ b, B.Retains (y b))
    (hk : ∀ a b s', Q a b s' → B.Follows (k a) (y b) s' Q') :
    B.Follows (r >>= k) (x >>= y) s Q' := by
  intro hw
  have h := h (Retains.within hy hw)
  cases r with
  | ok a =>
    obtain ⟨b, s', hx, hQ⟩ := h
    exact Follows.seq hx (hk a b s' hQ) hw
  | error e =>
    obtain ⟨f, s', hx, hf⟩ := h
    exact ⟨f, s', Execution.bind_of_error hx, hf⟩

theorem Follows.bindPure {g : α → α'} {Q' : α' → β → σ → Prop} (h : B.Follows r x s Q)
    (hQ : ∀ a b s', Q a b s' → Q' (g a) b s') : B.Follows (r >>= fun a => pure (g a)) x s Q' := by
  intro hw
  have h := h hw
  cases r with
  | error e => exact h
  | ok a =>
    obtain ⟨b, s', hx, hq⟩ := h
    exact ⟨b, s', hx, hQ a b s' hq⟩

theorem Follows.extend {Q' : α → β' → σ → Prop} (h : B.Follows r x s Q) (hy : ∀ b, B.Retains (y b))
    (hk : ∀ a b s', Q a b s' → B.Follows (.ok a) (y b) s' Q') : B.Follows r (x >>= y) s Q' := by
  have hbind := h.bind hy hk
  rwa [show (r >>= Except.ok) = r by cases r <;> rfl] at hbind

/-! ## Statements -/

variable (B) in
/-- The code from a statement on does what the meaning says of the statement: it returns, it fails, or
what it goes on to do is the code after the statement. -/
def Goes (r : Except Meaning.Failure Meaning.Outcome) (x : Execution φ σ β) (s : σ)
    (Ret : Meaning.Value → β → σ → Prop)
    (Next : Scope Nat → List Meaning.Value → Execution φ σ β → σ → Prop) : Prop :=
  B.within (x.last s) →
    match r with
    | .ok (.ret v) => ∃ b s', x s = .ok b s' ∧ Ret v b s'
    | .ok (.next scope store) => ∃ y s', x s = y s' ∧ Next scope store y s'
    | .error e => ∃ f s', x s = .error (.fault f) s' ∧ B.shows e f

theorem Goes.next {y : Execution φ σ β} (h : x s = y s')
    (hn : B.within (y.last s') → Next scope store y s') :
    B.Goes (.ok (.next scope store)) x s Ret Next := by
  intro hw
  rw [Execution.last, h] at hw
  exact ⟨y, s', h, hn hw⟩

theorem Goes.step {y : Execution φ σ β} (h : x s = y s') (hy : B.Goes r y s' Ret Next) :
    B.Goes r x s Ret Next := by
  intro hw
  rw [Execution.last, h] at hw
  have hy := hy hw
  rw [h]
  exact hy

theorem Goes.mono (h : B.Goes r x s Ret Next)
    (hn : ∀ scope store y s', Next scope store y s' → Next' scope store y s') :
    B.Goes r x s Ret Next' := by
  intro hw
  have h := h hw
  rcases r with e | v | ⟨scope, store⟩
  · exact h
  · exact h
  · obtain ⟨y, s', hx, hy⟩ := h
    exact ⟨y, s', hx, hn scope store y s' hy⟩

theorem Goes.seq {k : Scope Nat → List Meaning.Value → Except Meaning.Failure Meaning.Outcome}
    (h : B.Goes r x s Ret Next)
    (hk : ∀ scope store y s', Next scope store y s' → B.Goes (k scope store) y s' Ret Next') :
    B.Goes (r >>= fun o => match o with
      | .ret v => pure (.ret v)
      | .next scope store => k scope store) x s Ret Next' := by
  intro hw
  have h := h hw
  rcases r with e | v | ⟨scope, store⟩
  · exact h
  · exact h
  · obtain ⟨y, s', hx, hn⟩ := h
    exact Goes.step hx (hk scope store y s' hn) hw

theorem Goes.leave (h : B.Goes r x s Ret Next)
    (hn : ∀ scope' store y s', Next scope' store y s' → ∃ y', y s' = y' s' ∧ Next' scope store y' s') :
    B.Goes (r >>= fun o => pure (o.leave scope)) x s Ret Next' := by
  intro hw
  have h := h hw
  rcases r with e | v | ⟨scope', store⟩
  · exact h
  · exact h
  · obtain ⟨y, s', hx, hy⟩ := h
    obtain ⟨y', hy', hn⟩ := hn scope' store y s' hy
    exact ⟨y', s', hx.trans hy', hn⟩

theorem Goes.follows {k : Scope Nat → List Meaning.Value → Except Meaning.Failure Meaning.Value}
    (h : B.Goes r x s Ret Next)
    (hk : ∀ scope store y s', Next scope store y s' → B.Follows (k scope store) y s' Ret) :
    B.Follows (r >>= fun o => match o with
      | .ret v => pure v
      | .next scope store => k scope store) x s Ret := by
  intro hw
  have h := h hw
  rcases r with e | v | ⟨scope, store⟩
  · exact h
  · exact h
  · obtain ⟨y, s', hx, hn⟩ := h
    rw [Execution.last, hx] at hw
    rw [hx]
    exact hk scope store y s' hn hw

theorem Goes.after {k : α → Except Meaning.Failure Meaning.Outcome} {y : β' → Execution φ σ β}
     (h : B.Follows e z s P) (hy : ∀ b, B.Retains (y b))
    (hk : ∀ a b s', P a b s' → B.Goes (k a) (y b) s' Ret Next) :
    B.Goes (e >>= k) (z >>= y) s Ret Next := by
  intro hw
  have h := h (Retains.within hy hw)
  cases e with
  | ok a =>
    obtain ⟨b, s', hz, hP⟩ := h
    exact Goes.step (Execution.bind_of_ok hz) (hk a b s' hP) hw
  | error e =>
    obtain ⟨f, s', hz, hf⟩ := h
    exact ⟨f, s', Execution.bind_of_error hz, hf⟩

end Bridge

/-! ## What the meaning looks up -/

theorem Typed.typeAt (h : Typed f names e ty) : Meaning.typeAt f e.id = ty := by
  rw [Meaning.typeAt, h.type?]
  rfl

theorem TypedAll.typesAt (h : TypedAll f names es ts) :
    (es.map fun e => Meaning.typeAt f e.id) = ts := by
  induction es generalizing ts with
  | nil =>
    cases h
    rfl
  | cons e es ih =>
    cases h with
    | cons he hes => rw [List.map_cons, he.typeAt, ih hes]

theorem Symbols.exists_function {callee : Callee} (hf : s.foreigns = [])
    (h : s.resolve name ts = .ok callee) : ∃ g ∈ s.functions, callee = .user g ∧ g.signature = ts ∧
      Meaning.symbolOf s name ts = g.linkage := by
  rcases resolve_eq_ok h with ⟨d, hd, -⟩ | ⟨g, hg, rfl, -, hsig⟩
  · rw [hf] at hd
    cases hd
  · exact ⟨g, hg, rfl, hsig, by rw [Meaning.symbolOf, h]; rfl⟩

/-! ## Variables -/

/-- Each slot tells the value of its variable. -/
structure Tracks {α : Type} (R : Meaning.Value → α → Prop) (store : List Meaning.Value)
    (slots : List α) : Prop where
  length : store.length = slots.length
  holds : ∀ (k : Nat) v slot, store[k]? = some v → slots[k]? = some slot → R v slot

namespace Tracks

variable {α : Type} {k : Nat}

theorem nil : Tracks R [] [] := ⟨rfl, nofun⟩

theorem imp (h : Tracks R store slots) (hR : ∀ v slot, R v slot → R' v slot) :
    Tracks R' store slots :=
  ⟨h.length, fun k v slot hv hslot => hR v slot (h.holds k v slot hv hslot)⟩

theorem lookup (h : Tracks R store slots) (hk : slots[k]? = some slot) :
    ∃ v, store[k]? = some v ∧ R v slot := by
  have hlt : k < store.length := h.length ▸ (List.getElem?_eq_some_iff.mp hk).1
  exact ⟨store[k], List.getElem?_eq_getElem hlt, h.holds k _ slot (List.getElem?_eq_getElem hlt) hk⟩

theorem set (h : Tracks R store slots) (hk : slots[k]? = some slot) (hv : R' v slot)
    (hold : ∀ j v' slot', j ≠ k → slots[j]? = some slot' → R v' slot' → R' v' slot') :
    Tracks R' (store.set k v) slots := by
  refine ⟨by simp [h.length], fun j v' slot' hv' hslot' => ?_⟩
  by_cases hj : j = k
  · subst hj
    cases hk.symm.trans hslot'
    rw [List.getElem?_set_self'] at hv'
    obtain ⟨_, -, rfl⟩ := Option.map_eq_some_iff.mp hv'
    exact hv
  · rw [List.getElem?_set_ne (Ne.symm hj)] at hv'
    exact hold j v' slot' hj hslot' (h.holds j v' slot' hv' hslot')

theorem snoc (h : Tracks R store slots) (hv : R' v slot)
    (hold : ∀ v' slot', slot' ∈ slots → R v' slot' → R' v' slot') :
    Tracks R' (store ++ [v]) (slots ++ [slot]) := by
  refine ⟨by simp [h.length], fun j v' slot' hv' hslot' => ?_⟩
  by_cases hj : j < slots.length
  · rw [List.getElem?_append_left hj] at hslot'
    rw [List.getElem?_append_left (h.length ▸ hj)] at hv'
    exact hold v' slot' (List.mem_of_getElem? hslot') (h.holds j v' slot' hv' hslot')
  · rw [List.getElem?_append_right (Nat.not_lt.mp hj)] at hslot'
    rw [List.getElem?_append_right (h.length ▸ Nat.not_lt.mp hj), h.length] at hv'
    cases List.mem_singleton.mp (List.mem_of_getElem? hslot')
    cases List.mem_singleton.mp (List.mem_of_getElem? hv')
    exact hv

end Tracks

/-- Names in scope have slots, and each slot stands for the variable of its name. -/
structure Located {α : Type} (tyOf : α → Ty) (isReference : α → Bool) (f : Findings)
    (names : Scope Binding) (storage : Scope α) (places : Scope Nat) (slots : List α) : Prop extends
    Fits tyOf f names storage where
  located : ∀ name b slot, names.lookup? name = some b → storage.lookup? name = some slot →
    ∃ k, places.lookup? name = some k ∧ slots[k]? = some slot ∧ isReference slot = b.isReceiver

namespace Located

variable {α : Type}

theorem push (h : Located tyOf isReference f names storage places slots) :
    Located tyOf isReference f names.push storage.push places.push slots :=
  ⟨h.toFits.push, h.located⟩

theorem append (h : Located tyOf isReference f names storage places slots) (later : List α) :
    Located tyOf isReference f names storage places (slots ++ later) := by
  refine ⟨h.toFits, fun name b slot hb hslot => ?_⟩
  obtain ⟨k, hk, hslots, href⟩ := h.located name b slot hb hslot
  have hlt := (List.getElem?_eq_some_iff.mp hslots).1
  exact ⟨k, hk, (List.getElem?_append_left hlt).trans hslots, href⟩

theorem define (h : Located tyOf isReference f names storage places slots) (name : String)
     (hd : b.ty.Declared f.symbols) (hty : tyOf slot = b.ty)
    (href : isReference slot = b.isReceiver) :
    Located tyOf isReference f (names.define name b) (storage.define name slot)
      (places.define name slots.length) (slots ++ [slot]) := by
  refine ⟨h.toFits.define name hd hty, fun other b' slot' hb hslot => ?_⟩
  rw [Scope.lookup?_define] at hb hslot ⊢
  by_cases heq : other = name
  · rw [if_pos heq] at hb hslot
    cases hb
    cases hslot
    exact ⟨slots.length, if_pos heq, by simp, href⟩
  · rw [if_neg heq] at hb hslot
    obtain ⟨k, hk, hslots, href⟩ := (h.append [slot]).located other b' slot' hb hslot
    exact ⟨k, (if_neg heq).trans hk, hslots, href⟩

end Located

end StructLang
