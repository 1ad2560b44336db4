import Mathlib.Data.List.Forall2
import StructLang.Proofs.Emission
import StructLang.Proofs.Typing

/-!
# Lowering that cannot fail

Lowering to either kind of code runs in a state and may fail. `Yields` says that a step of it succeeds
from every state, with a result that satisfies a condition. The rest are the conditions that a body and
its scopes have to satisfy for that.
-/

namespace StructLang

variable {σ ε α β : Type}

/-- The step succeeds from every state, and its result satisfies `Q`. -/
def Yields (x : StateT σ (Except ε) α) (Q : α → Prop) : Prop :=
  ∀ s, ∃ a s', x s = .ok (a, s') ∧ Q a

namespace Yields

variable {Q' : α → Prop}

theorem pure (h : Q a) : Yields (pure a : StateT σ (Except ε) α) Q :=
  fun s => ⟨a, s, rfl, h⟩

theorem bind (h : Yields x Q) (hk : ∀ a, Q a → Yields (k a) R) : Yields (x >>= k) R := by
  intro s
  obtain ⟨a, s', hx, ha⟩ := h s
  obtain ⟨b, s'', hb, hr⟩ := hk a ha s'
  refine ⟨b, s'', ?_, hr⟩
  change (x s >>= fun p => k p.1 p.2) = _
  rw [hx]
  exact hb

theorem seq (h : Yields x fun _ => True) (hy : Yields y R) : Yields (x >>= fun _ => y) R :=
  h.bind fun _ _ => hy

theorem mono (h : Yields x Q) (hQ : ∀ a, Q a → Q' a) : Yields x Q' := by
  intro s
  obtain ⟨a, s', hx, ha⟩ := h s
  exact ⟨a, s', hx, hQ a ha⟩

theorem lift {y : Except ε α} {k : α → StateT σ (Except ε) β} (hy : y = .ok a)
    (hk : Yields (k a) R) : Yields (liftM y >>= k) R := by
  subst hy
  exact hk

theorem modifyGet (f : σ → α × σ) :
    Yields (modifyGet f : StateT σ (Except ε) α) fun _ => True :=
  fun s => ⟨(f s).1, (f s).2, rfl, True.intro⟩

theorem modify (f : σ → σ) : Yields (modify f : StateT σ (Except ε) PUnit) fun _ => True :=
  modifyGet _

theorem get : Yields (get : StateT σ (Except ε) σ) fun _ => True :=
  fun s => ⟨s, s, rfl, True.intro⟩

theorem ite [Decidable c] (hx : Yields x Q) (hy : Yields y Q) : Yields (if c then x else y) Q := by
  split
  · exact hx
  · exact hy

end Yields

theorem mapM_eq_ok_iff {g : α → Except ε β} :
    xs.mapM g = .ok ys ↔ List.Forall₂ (fun x y => g x = .ok y) xs ys := by
  induction xs generalizing ys with
  | nil =>
    rw [List.mapM_nil, List.forall₂_nil_left_iff]
    exact ⟨fun h => by cases h; rfl, fun h => by rw [h]; rfl⟩
  | cons x xs ih =>
    rw [List.mapM_cons, List.forall₂_cons_left_iff]
    constructor
    · intro h
      obtain ⟨y, hx, h⟩ := except_bind_eq_ok.mp h
      obtain ⟨zs, hxs, h⟩ := except_bind_eq_ok.mp h
      exact ⟨y, zs, hx, ih.mp hxs, (Except.ok.inj h).symm⟩
    · rintro ⟨y, zs, hy, hzs, rfl⟩
      rw [hy, ih.mpr hzs]
      rfl

theorem exists_mapM_eq_ok {g : α → Except ε β} {xs : List α} (h : ∀ x ∈ xs, ∃ y, g x = .ok y) :
    ∃ ys, xs.mapM g = .ok ys := by
  induction xs with
  | nil => exact ⟨[], rfl⟩
  | cons x xs ih =>
    obtain ⟨⟨y, hy⟩, hxs⟩ := List.forall_mem_cons.mp h
    obtain ⟨ys, hys⟩ := ih hxs
    exact ⟨y :: ys, mapM_eq_ok_iff.mpr (.cons hy (mapM_eq_ok_iff.mp hys))⟩

theorem forM_eq_ok {xs : List α} {g : α → Except ε PUnit}
    (h : ∀ x ∈ xs, g x = .ok ⟨⟩) : xs.forM g = .ok ⟨⟩ := by
  induction xs with
  | nil => rfl
  | cons x xs ih =>
    obtain ⟨hx, hxs⟩ := List.forall_mem_cons.mp h
    change (g x >>= fun _ => xs.forM g) = _
    rw [hx]
    exact ih hxs

/-! ## Lists that correspond -/

theorem exists_of_forall₂ (h : List.Forall₂ R xs ys) (hy : y ∈ ys) : ∃ x ∈ xs, R x y := by
  induction h with
  | nil => cases hy
  | cons hxy _ ih =>
    rcases List.mem_cons.mp hy with rfl | hy
    · exact ⟨_, List.mem_cons_self, hxy⟩
    · obtain ⟨x, hx, hxy⟩ := ih hy
      exact ⟨x, List.mem_cons_of_mem _ hx, hxy⟩

theorem find?_forall₂ (h : List.Forall₂ R xs ys)
    (hpq : ∀ x y, R x y → p x = q y) : (xs.find? p = none ∧ ys.find? q = none) ∨
      ∃ x y, xs.find? p = some x ∧ ys.find? q = some y ∧ R x y := by
  induction h with
  | nil => exact .inl ⟨rfl, rfl⟩
  | @cons a b xs ys hab _ ih =>
    rw [List.find?_cons, List.find?_cons, ← hpq a b hab]
    cases p a with
    | true => exact .inr ⟨a, b, rfl, rfl, hab⟩
    | false => exact ih

theorem find?_of_forall₂
    (h : List.Forall₂ R xs ys) (hpq : ∀ x y, R x y → p x = q y) (hx : xs.find? p = some x) :
    ∃ y, ys.find? q = some y ∧ R x y := by
  rcases find?_forall₂ h hpq with ⟨hnone, -⟩ | ⟨x', y, hx', hy, hxy⟩
  · rw [hx] at hnone
    cases hnone
  · rw [Option.some.inj (hx.symm.trans hx')]
    exact ⟨y, hy, hxy⟩

/-! ## Scopes -/

theorem lookup?_of_storage {storage : Scope α} (h : storage.storage name = .ok slot) :
    storage.lookup? name = some slot := by
  unfold Scope.storage at h
  split at h
  · next heq =>
    cases h
    exact heq
  · cases h

/-- The declarations of a program are sound, and every name in scope has a declared type and storage of
that type. -/
structure Fits (tyOf : α → Ty) (f : Findings) (names : Scope Binding) (storage : Scope α) :
    Prop where
  symbols : f.symbols.Sound
  scope : names.Sound f.symbols
  bound : ∀ name b, names.lookup? name = some b →
    ∃ slot, storage.lookup? name = some slot ∧ tyOf slot = b.ty

namespace Fits

theorem push (h : Fits tyOf f names storage) : Fits tyOf f names.push storage.push :=
  ⟨h.symbols, h.scope, h.bound⟩

theorem define (h : Fits tyOf f names storage) (name : String)
    (hd : b.ty.Declared f.symbols) (hty : tyOf slot = b.ty) :
    Fits tyOf f (names.define name b) (storage.define name slot) := by
  refine ⟨h.symbols, h.scope.define hd, fun other b' hl => ?_⟩
  rw [Scope.lookup?_define] at hl ⊢
  split
  · next heq =>
    rw [if_pos heq] at hl
    cases hl
    exact ⟨slot, rfl, hty⟩
  · next hne =>
    rw [if_neg hne] at hl
    exact h.bound other b' hl

theorem empty (h : f.symbols.Sound) : Fits tyOf f Scope.empty.push Scope.empty.push :=
  ⟨h, nofun, nofun⟩

theorem storage_eq (h : Fits tyOf f names storage) (hb : names.lookup? name = some b) :
    ∃ slot, storage.storage name = .ok slot ∧ tyOf slot = b.ty := by
  obtain ⟨slot, hs, hty⟩ := h.bound name b hb
  exact ⟨slot, by rw [Scope.storage, hs], hty⟩

theorem proper (h : Fits tyOf f names storage) (he : Typed f names e ty) : ty.Proper :=
  (he.declared h.symbols h.scope).proper

end Fits

/-! ## Lookups -/

section

variable {types : TypeTable}

theorem TypeTable.typeOf_eq (h : types[e.id]? = some ty) : types.typeOf e = .ok ty := by
  rw [typeOf, h]

theorem TypeTable.typeOf_unique (h : types.typeOf e = .ok ty) (h' : types[e.id]? = some ty') :
    ty = ty' :=
  Except.ok.inj (h.symm.trans (typeOf_eq h'))

end

namespace Typed

theorem type? (h : Typed f scope e ty) : f.types[e.id]? = some ty := by
  cases h <;> assumption

theorem typeOf (h : Typed f scope e ty) : f.types.typeOf e = .ok ty := TypeTable.typeOf_eq h.type?

end Typed

theorem TypedAll.typesOf (h : TypedAll f scope es ts) : f.types.typesOf es = .ok ts := by
  refine mapM_eq_ok_iff.mpr ?_
  induction es generalizing ts with
  | nil =>
    cases h
    exact .nil
  | cons e es ih =>
    cases h with
    | cons he hes => exact .cons he.typeOf (ih hes)

namespace Symbols

variable {s : Symbols} {callee : Callee}

theorem callee_eq_ok (hr : s.resolve name args = .ok callee) : s.callee name args = .ok callee := by
  rw [Symbols.callee, hr]
  rfl

theorem signature_eq (hr : s.resolve name args = .ok callee) : callee.signature = args := by
  rcases resolve_eq_ok hr with ⟨_, _, _, _, h⟩ | ⟨_, _, _, _, h⟩ <;> exact h

end Symbols

/-! ## Declarations -/

mutual

def Stmt.declIds : Stmt → List Nat
  | .declare d => [d.node.id]
  | .branch _ _ t none => t.declIds
  | .branch _ _ t (some e) => t.declIds ++ e.declIds
  | _ => []

def declIdsOf : List Stmt → List Nat
  | [] => []
  | s :: rest => s.declIds ++ declIdsOf rest

def Block.declIds : Block → List Nat
  | .mk _ stmts => declIdsOf stmts

end

mutual

theorem Stmt.declIds_sublist (stmt : Stmt) : stmt.declIds.Sublist stmt.ids := by
  cases stmt with
  | declare d => exact List.sublist_append_right _ _
  | branch _ cond t e =>
    cases e with
    | none => exact t.declIds_sublist.trans (List.sublist_append_right _ _)
    | some e =>
      rw [Stmt.declIds, Stmt.ids, List.append_assoc]
      exact (t.declIds_sublist.append e.declIds_sublist).trans (List.sublist_append_right _ _)
  | assign | ret | expr => exact List.nil_sublist _

theorem declIdsOf_sublist (stmts : List Stmt) : (declIdsOf stmts).Sublist (idsOfStmts stmts) := by
  cases stmts with
  | nil => exact .slnil
  | cons stmt rest => exact stmt.declIds_sublist.append (declIdsOf_sublist rest)

theorem Block.declIds_sublist (b : Block) : b.declIds.Sublist b.ids := by
  cases b with
  | mk n stmts => exact (declIdsOf_sublist stmts).cons n.id

end

theorem StmtsTyped.declaration (h : StmtsTyped f ret scope stmts) :
    ∀ id ∈ Typing.declarations stmts,
      ∃ ty, f.types[id]? = some ty ∧ ty.Declared f.symbols ∧ ty ≠ .void := by
  induction stmts generalizing scope with
  | nil => simp [Typing.declarations]
  | cons s rest ih =>
    cases h with
    | cons h hrest =>
      cases h with
      | declare h hty hvoid _ =>
        simp only [Typing.declarations, List.filterMap_cons, List.forall_mem_cons]
        exact ⟨⟨_, h, hty, hvoid⟩, ih hrest⟩
      | _ => exact ih hrest

end StructLang
