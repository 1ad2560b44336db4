import StructLang.Proofs.Flat.ForwardFlow
import StructLang.Proofs.Ssa.Trails

/-!
# Runs end

The language has no loops, and neither has the code that lowering gives, whatever the analysis says of
the program. So in one invocation control passes through each block, and through each instruction of flat
code, at most once; and as calls nest to a bounded depth, the runs of an accepted program end.
-/

namespace StructLang

/-- Generated control flow goes forward, and runs end: no way leads from an SSA block back to itself, and
every jump of flat code leads to a label further on. For an accepted program one invocation passes
through each block or instruction at most once, and there is a budget from which on the run does not run
out of it. -/
theorem lowered_runs_end (name : String) {p : Program} (hp : p.Sourced) :
    (∀ analysis m, Ssa.Module.ofProgram name p analysis = .ok m → ∀ f ∈ m.functions, ∀ k,
      ¬Relation.TransGen (Ssa.Edge f.blocks) k k) ∧
    (∀ analysis m, Flat.Module.ofProgram p analysis = .ok m → ∀ f ∈ m.functions, f.JumpsForward) ∧
    (p.analyze.hasErrors = false →
      (∀ m, Ssa.Module.ofProgram name p p.analyze = .ok m →
        (∀ f ∈ m.functions, ∀ call args regs k s path,
          Ssa.Trail m call f args regs k s path → path.Nodup) ∧
        ∃ enough, ∀ budget, enough ≤ budget → ∀ s, m.execute budget ≠ .error .outOfBudget s) ∧
      ∀ m, Flat.Module.ofProgram p p.analyze = .ok m →
        (∀ f ∈ m.functions, ∀ call temps n s path,
          Flat.Trail m call f temps n s path → path.Nodup) ∧
        ∃ enough, ∀ budget, enough ≤ budget → ∀ s, m.execute budget ≠ .error .outOfBudget s) := by
  have hssa : ∀ analysis m, Ssa.Module.ofProgram name p analysis = .ok m → ∀ f ∈ m.functions,
      ∃ rank, Ssa.Upward f.blocks rank :=
    fun analysis m hm => (Ssa.ofProgram_eq_ok hm).2.2.upward
  have hflat : ∀ analysis m, Flat.Module.ofProgram p analysis = .ok m → ∀ f ∈ m.functions,
      f.JumpsForward := by
    intro analysis m hm
    obtain ⟨d, hfunctions, -⟩ := Flat.ofProgram_eq_ok hm
    exact hfunctions.jumpsForward
  refine ⟨fun analysis m hm f hf k => ?_, hflat, fun h => ⟨fun m hm => ⟨?_, ?_⟩, fun m hm => ⟨?_, ?_⟩⟩⟩
  · obtain ⟨rank, hrank⟩ := hssa analysis m hm f hf
    exact hrank.acyclic k
  · intro f hf call args regs k s path htrail
    obtain ⟨rank, hrank⟩ := hssa _ m hm f hf
    exact htrail.nodup hrank
  · have hw := hp.grammatical.wellTyped h
    exact Ssa.exists_budget (Ssa.ends_zero (Ssa.lowers_of_eq_ok hm) hw) (hssa _ m hm)
  · exact fun f hf call temps n s path htrail => htrail.nodup (hflat _ m hm f hf)
  · exact Flat.exists_budget (hflat _ m hm)

/-- A program that calls itself inside a branch in a branch: what follows the inner branch goes on to
what follows the outer one, a block that was made before. -/
def Program.recursiveSource : String :=
  "fn fact(n: i32) -> i32 {
    if n > 0 { if n > 1 { return n * fact(n - 1) } }
    return 1
  }
  fn main() -> i32 { return fact(5) }"

theorem lowered_runs_end_recursive : ∃ p next m m',
    Program.parse Program.recursiveSource 0 0 = .ok (p, next) ∧ p.analyze.hasErrors = false ∧
      Ssa.Module.ofProgram "sample" p p.analyze = .ok m ∧ Flat.Module.ofProgram p p.analyze = .ok m' ∧
      (∀ f ∈ m.functions, ∀ k, ¬Relation.TransGen (Ssa.Edge f.blocks) k k) ∧
      (∀ f ∈ m'.functions, f.JumpsForward) ∧
      ∃ enough, (∀ s, m.execute enough ≠ .error .outOfBudget s) ∧
        ∀ s, m'.execute enough ≠ .error .outOfBudget s := by
  obtain ⟨p, next, hparse, h, htest⟩ := Program.exists_of_accepts
    (show Program.accepts Program.recursiveSource (fun p =>
      (Ssa.Module.ofProgram "sample" p p.analyze).isOk &&
        (Flat.Module.ofProgram p p.analyze).isOk) = true by decide +kernel)
  rw [Bool.and_eq_true] at htest
  cases hm : Ssa.Module.ofProgram "sample" p p.analyze with
  | error e => simp [hm, Except.isOk, Except.toBool] at htest
  | ok m =>
    cases hm' : Flat.Module.ofProgram p p.analyze with
    | error e => simp [hm', Except.isOk, Except.toBool] at htest
    | ok m' =>
      obtain ⟨hssa, hflat, hends⟩ := lowered_runs_end "sample" (.parsed hparse)
      obtain ⟨enough, henough⟩ := ((hends h).1 m hm).2
      obtain ⟨enough', henough'⟩ := ((hends h).2 m' hm').2
      exact ⟨p, next, m, m', hparse, h, hm, hm', hssa _ m hm, hflat _ m' hm', max enough enough',
        henough _ (Nat.le_max_left _ _), henough' _ (Nat.le_max_right _ _)⟩

end StructLang
