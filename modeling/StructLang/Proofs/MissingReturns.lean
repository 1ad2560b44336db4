import StructLang.Proofs.Flat.Returns
import StructLang.Proofs.Ssa.Faults
import StructLang.Proofs.Ssa.ForwardFlow

/-!
# Where control runs off the end of a function

Checking does not ask that a function with a result returns one on every path, and lowering puts
`unreachable` or a halt behind its body. A run of the code can get there, but only in a function of which
some path does not return.
-/

namespace StructLang

namespace Ssa

open Execution

/-- A run gets to the end of code only in a function with a result in which some path does not return. -/
theorem missesReturn_of_execute (h : Module.ofProgram name p analysis = .ok m)
    (hrun : m.execute budget = .error (.fault (.unreachable g)) s) : p.MissesReturn g := by
  have hfault : ∀ e : Fault, (∀ g, e ≠ .unreachable g) →
      ∀ g, Stop.fault e = .fault (.unreachable g) → p.MissesReturn g := by
    rintro e hne g ⟨⟩
    exact absurd rfl (hne g)
  refine stops_callAt (P := fun e => ∀ g, e = .fault (.unreachable g) → p.MissesReturn g) hfault
    (fun g hg call hcall args => ?_) maxDepth entryPoint [] _ _ s hrun g rfl
  obtain ⟨f, hf, _, _, hcode, -⟩ := exists_of_forall₂ (ofProgram_eq_ok h).2.2.forall₂.2 hg
  obtain ⟨live, hentry, hedges, hends, -⟩ := hcode.exists_live
  have hname : g.name = f.linkage := by
    cases hcode
    rfl
  have hzero : ∀ ty, Stops (zero m ty) fun e => ∀ g, e = .fault (.unreachable g) → p.MissesReturn g :=
    fun ty => stops_zero (fails_zeroValue (plain_of_fault hfault) (by simp) _ ty)
  refine stops_runBlocks (I := fun _ k => live k) hfault hzero hcall (by simp)
    (fun _ k next hk hedge => hedges k next hedge hk) ?_ hentry
  rintro _ k b hk hb ht _ ⟨⟩
  exact ⟨f, hf, hname.symm, hends k ⟨b, hb, ht⟩ hk⟩

end Ssa

def Ssa.Module.offEnd? (m : Ssa.Module) (budget : Nat) : Option String :=
  match m.run budget with
  | .error (.fault (.unreachable g)) => some g
  | _ => none

theorem Ssa.Module.execute_of_offEnd? {m : Ssa.Module} (h : m.offEnd? budget = some g) :
    ∃ s, m.execute budget = .error (.fault (.unreachable g)) s := by
  unfold Ssa.Module.offEnd? at h
  split at h
  · next hrun =>
    cases h
    unfold Ssa.Module.run at hrun
    split at hrun <;> cases hrun
    exact ⟨_, ‹_›⟩
  · cases h

def Flat.Module.offEnd? (m : Flat.Module) (budget : Nat) : Option String :=
  match m.run budget with
  | .error (.fault (.halted g)) => some g
  | _ => none

theorem Flat.Module.execute_of_offEnd? {m : Flat.Module} (h : m.offEnd? budget = some g) :
    ∃ s, m.execute budget = .error (.fault (.halted g)) s := by
  unfold Flat.Module.offEnd? at h
  split at h
  · next hrun =>
    cases h
    unfold Flat.Module.run at hrun
    split at hrun <;> cases hrun
    exact ⟨_, ‹_›⟩
  · cases h

/-- If control runs off the end of a function in a run of lowered code, then that function has a result
and some path through its body does not return. -/
theorem runs_off_only_without_return (name : String) (p : Program) (analysis : Analysis) (g : String) :
    (∀ m, Ssa.Module.ofProgram name p analysis = .ok m →
      ∀ budget, m.offEnd? budget = some g → p.MissesReturn g) ∧
    ∀ m, Flat.Module.ofProgram p analysis = .ok m →
      ∀ budget, m.offEnd? budget = some g → p.MissesReturn g := by
  constructor
  · intro m hm budget hoff
    obtain ⟨s, hrun⟩ := Ssa.Module.execute_of_offEnd? hoff
    exact Ssa.missesReturn_of_execute hm hrun
  · intro m hm budget hoff
    obtain ⟨s, hrun⟩ := Flat.Module.execute_of_offEnd? hoff
    exact Flat.missesReturn_of_execute hm hrun

/-- An accepted program with a function that returns on one of its two paths only. -/
def Program.halfReturnSource : String :=
  "fn half(b: bool) -> i32 { if b { return 1 } }
  fn main() -> i32 { return half(false) }"

theorem runs_off_only_without_return_half : ∃ p next m m' g,
    Program.parse Program.halfReturnSource 0 0 = .ok (p, next) ∧ p.analyze.hasErrors = false ∧
      Ssa.Module.ofProgram "sample" p p.analyze = .ok m ∧ m.offEnd? 4 = some g ∧
      Flat.Module.ofProgram p p.analyze = .ok m' ∧ m'.offEnd? 4 = some g ∧ p.MissesReturn g := by
  obtain ⟨p, next, hparse, h, htest⟩ := Program.exists_of_accepts
    (show Program.accepts Program.halfReturnSource (fun p => decide
      ((Ssa.Module.ofProgram "sample" p p.analyze).toOption.map (·.offEnd? 4) = some (some "half_bool") ∧
        (Flat.Module.ofProgram p p.analyze).toOption.map (·.offEnd? 4) = some (some "half_bool"))) = true by
      decide +kernel)
  obtain ⟨hssa, hflat⟩ := of_decide_eq_true htest
  obtain ⟨m, hm, hoff⟩ := exists_of_toOption_map hssa
  obtain ⟨m', hm', hoff'⟩ := exists_of_toOption_map hflat
  exact ⟨p, next, m, m', _, hparse, h, hm, hoff, hm', hoff',
    (runs_off_only_without_return "sample" p p.analyze _).1 m hm 4 hoff⟩

end StructLang
