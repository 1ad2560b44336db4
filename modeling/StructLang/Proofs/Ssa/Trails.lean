import Mathlib.Data.List.Chain
import StructLang.Proofs.Ssa.Faults
import StructLang.Proofs.Ssa.ForwardFlow

/-!
# The way of an invocation through its blocks

Where edges go up in rank, control never comes back to a block: one invocation passes through each block
at most once. So a budget beyond the highest rank suffices for it, and with the bound on nested calls for
the run of a whole module.
-/

namespace StructLang.Ssa

open Execution

/-- The blocks through which an invocation has passed after some time, from a block on. -/
inductive Trail (m : Module) (call : Call) (f : Function) (args : List Value) :
    Registers → Nat → Machine → List Nat → Prop where
  | here {regs k s} : Trail m call f args regs k s [k]
  | goto {regs k s b regs' s' next s'' path} (hb : f.blocks[k]? = some b)
      (hsteps : steps m call args regs b.instrs s = .ok regs' s')
      (hexit : exit m f args regs' b.terminator s' = .ok (.goto next) s'')
      (h : Trail m call f args regs' next s'' path) : Trail m call f args regs k s (k :: path)

theorem Trail.ne_nil (h : Trail m call f args regs k s path) :
    ∃ rest, path = k :: rest := by
  cases h with
  | here => exact ⟨[], rfl⟩
  | goto _ _ _ _ => exact ⟨_, rfl⟩

theorem Trail.isChain (hup : Upward f.blocks rank) (h : Trail m call f args regs k s path) :
    path.IsChain fun a b => rank a < rank b := by
  induction h with
  | here => exact List.isChain_singleton _
  | goto hb _ hexit hrest ih =>
    obtain ⟨rest, rfl⟩ := hrest.ne_nil
    rw [List.isChain_cons_cons]
    exact ⟨hup _ _ (edge_of_exit hb hexit), ih⟩

theorem Trail.nodup (hup : Upward f.blocks rank) (h : Trail m call f args regs k s path) :
    path.Nodup := by
  have : IsTrans Nat fun a b => rank a < rank b := ⟨fun _ _ _ => Nat.lt_trans⟩
  refine (List.isChain_iff_pairwise.mp (h.isChain hup)).imp fun {a b} hlt heq => ?_
  rw [heq] at hlt
  exact Nat.lt_irrefl _ hlt

theorem Upward.acyclic (hup : Upward blocks rank) (k : Nat) :
    ¬Relation.TransGen (Edge blocks) k k := by
  have hlt : ∀ target, Relation.TransGen (Edge blocks) k target → rank k < rank target := by
    intro target h
    induction h with
    | single he => exact hup _ _ he
    | tail _ he ih => exact Nat.lt_trans ih (hup _ _ he)
  exact fun h => Nat.lt_irrefl _ (hlt k h)

/-! ## Invocations end -/

/-- A budget that goes beyond the ranks suffices. The measure is how far the rank of the block is from
the highest. -/
theorem ends_runBlocks (hzero : ∀ ty, Ends (zero m ty))
    (hcall : ∀ name values, Ends (call name values)) (hup : Upward f.blocks rank)
    (htop : ∀ k < f.blocks.length, rank k ≤ top) (hbudget : 0 < budget)
    (hk : k < f.blocks.length → top + 1 < budget + rank k) :
    Ends (runBlocks m call f args budget regs k) := by
  refine stops_runBlocks (I := fun budget k => 0 < budget ∧
    (k < f.blocks.length → top + 1 < budget + rank k)) (by simp) hzero hcall
    (fun k h => absurd h.1 (Nat.lt_irrefl 0)) ?_ (by simp) ⟨hbudget, hk⟩
  rintro budget k next ⟨-, hroom⟩ hedge
  have hlt : k < f.blocks.length := by
    obtain ⟨b, hb, -⟩ := hedge
    exact (List.getElem?_eq_some_iff.mp hb).1
  have hrank := htop k hlt
  have hroom := hroom hlt
  have hup := hup k next hedge
  constructor <;> omega

theorem exists_budget (hzero : ∀ ty, Ends (zero m ty))
    (hup : ∀ f ∈ m.functions, ∃ rank, Upward f.blocks rank) :
    ∃ enough, ∀ budget, enough ≤ budget → ∀ s, m.execute budget ≠ .error .outOfBudget s := by
  have hfunctions : ∀ f ∈ m.functions, ∃ enough, ∀ budget, enough ≤ budget → ∀ call : Call,
      (∀ name values, Ends (call name values)) → ∀ args,
      Ends (runBlocks m call f args budget [] 0) := by
    intro f hf
    obtain ⟨rank, hrank⟩ := hup f hf
    obtain ⟨top, htop⟩ := exists_enough (fun k n => rank k ≤ n) (List.range f.blocks.length)
      fun k _ => ⟨rank k, fun _ => id⟩
    refine ⟨top + 2, fun budget hbudget call hcall args => ?_⟩
    have htop : ∀ k < f.blocks.length, rank k ≤ top :=
      fun k hk => htop top (Nat.le_refl _) k (List.mem_range.mpr hk)
    exact ends_runBlocks hzero hcall hrank htop (by omega) fun _ => by omega
  obtain ⟨enough, henough⟩ := exists_enough _ m.functions hfunctions
  exact ⟨enough, fun budget hbudget s h =>
    stops_callAt (by simp) (henough budget hbudget) maxDepth entryPoint [] ⟨#[], ""⟩ _ s h rfl⟩

/-! ## Zero values -/

/-- Structs nest no deeper than there are structs. `path` leads down to the type. -/
theorem zeroValue_ends (hl : m.Lowers p) (hw : p.WellTyped) (depth : Nat) (path : List String)
    (hway : ∀ name d, ty = .struct name → p.symbols.struct? name = some d →
      Symbols.Way p.symbols (name :: path))
    (hdepth : p.structs.length ≤ depth + path.length) :
    Fails (zeroValue m depth ty) (· ≠ .outOfBudget) := by
  induction depth generalizing path ty with
  | zero =>
    cases ty with
    | struct name =>
      rw [zeroValue]
      split
      · exact .error (by simp)
      · next s hs =>
        obtain ⟨d, hd, -⟩ := hl.structs.exists_struct hs
        have hlength : path.length + 1 ≤ p.structs.length :=
          hw.grounded.length_way (hway name d rfl hd)
        omega
    | _ => exact .ok _
  | succ depth ih =>
    cases ty with
    | struct name =>
      rw [zeroValue]
      split
      · exact .error (by simp)
      · next s hs =>
        obtain ⟨d, hd, hlower⟩ := hl.structs.exists_struct hs
        refine (fails_zeroFields fun ty hty => ih (name :: path) (fun inner d' heq hd' => ?_) ?_).bind
          fun _ => .ok _
        · subst heq
          have hinner : inner ∈ s.inner := List.mem_filterMap.mpr ⟨_, hty, rfl⟩
          rw [inner_of_lowerStruct hlower] at hinner
          exact .cons (hway name d rfl hd) ⟨d, hd, hinner⟩ hd'
        · rw [List.length_cons]
          omega
    | _ => exact .ok _

theorem ends_zero (hl : m.Lowers p) (hw : p.WellTyped) (ty : Ty) : Ends (zero m ty) := by
  refine stops_zero (zeroValue_ends hl hw m.structs.length [] (fun name d _ hd => .single hd) ?_)
  rw [show m.structs.length = p.structs.length from hl.structs.length_eq.symm]
  exact Nat.le_add_right _ _

end StructLang.Ssa
