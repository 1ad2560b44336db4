import StructLang.Proofs.Flat.Effects
import StructLang.Proofs.Ssa.Effects

/-!
# Calls and the memory of the caller

Values are passed by value, and what a receiver refers to is not written through it. So, in both kinds
of code, a call leaves the memory of its caller as it was.
-/

namespace StructLang

open scoped CoreNumbers

open Execution (Ensures)

theorem Ssa.Machine.Spares.read {s : Machine} (h : s.Spares s.memory.size s') {v : Value}
    (hr : Ssa.read a s = .ok v s) : Ssa.read a s' = .ok v s' := by
  obtain ⟨-, i, w, hbase, hw, hget⟩ := read_ensures a v s hr
  have hi := (Array.getElem?_eq_some_iff.mp hw).1
  exact read_of_slot hbase ((h.cells i hi).trans hw) hget

theorem Ssa.call_spares {m : Module} {call : Call} {args : List Value} {regs : Registers}
    {s : Machine} {dest : Option Register} {func : String} {ret : Ty} {params : List Ty}
    {operands : List (Ty × Operand)} (hcall : call.Spares bound) (hb : bound ≤ s.memory.size) :
    Ensures (step m call args regs (.call dest func ret params operands)) s
      fun _ s' => s.Spares bound s' := by
  refine (evalAll_ensures operands).bind fun values s' hs => ?_
  rw [hs]
  exact (hcall func values s hb).bind fun _ _ hs' => .pure hs'

theorem Flat.call_spares {m : Module} {call : Call} {f : Function} {temps : Temps} {s : Machine}
    {dest : Option (String × Class)} {func : String} {args : List (Class × Operand)}
    (hcall : call.Spares bound) (hb : bound ≤ s.memory.stack.size) :
    Ensures (steps m call f temps [.call dest func args]) s fun _ s' => s.Spares bound s' := by
  refine (orFault_ensures _).bind fun values s' hs => ?_
  rw [hs.1]
  refine (hcall func values s hb).bind fun result s1 hs1 => ?_
  refine (keepResult_spares (Nat.le_trans hb hs1.size) func temps result dest).bind fun _ s2 hs2 => ?_
  exact .pure (hs1.trans hs2.1)

theorem Flat.Machine.Spares.read {s : Machine} (h : s.Spares s.memory.stack.size s')
    (hs : s'.Small) {size : Nat} {bytes : List UInt8}
    (hr : s.memory.read address size = .ok bytes) : s'.memory.read address size = .ok bytes :=
  Memory.read_mono h.data h.size (h.bytes hs) hr

/-- In both kinds of code of an accepted program, a call that returns leaves the memory that was there
as it was, and whatever could be read, through a receiver's address too, can be read unchanged. -/
theorem calls_spare_memory {p : Program} (hp : p.Sourced) (h : p.analyze.hasErrors = false) :
    (∀ name m, Ssa.Module.ofProgram name p p.analyze = .ok m →
      ∀ budget depth args regs dest func ret params operands s regs' s',
        Ssa.step m (Ssa.callAt m budget depth) args regs (.call dest func ret params operands) s =
          .ok regs' s' →
        (∀ i < s.memory.size, s'.memory[i]? = s.memory[i]?) ∧
        ∀ a v, Ssa.read a s = .ok v s → Ssa.read a s' = .ok v s') ∧
    ∀ m, Flat.Module.ofProgram p p.analyze = .ok m →
      ∀ budget depth f temps dest func args s e s',
        Flat.steps m (Flat.callAt m budget depth) f temps [.call dest func args] s = .ok e s' →
        s'.memory.stack.size < 2 ^ (62 : Nat) →
        (∀ i < s.memory.stack.size, s'.memory.stack[i]? = s.memory.stack[i]?) ∧
        ∀ address size bytes, s.memory.read address size = .ok bytes →
          s'.memory.read address size = .ok bytes := by
  have hw := hp.grammatical.wellTyped h
  refine ⟨fun name m hm budget depth args regs dest func ret params operands s regs' s' hstep => ?_,
    fun m hm budget depth f temps dest func args s e s' hstep hsmall => ?_⟩
  · have hspares := Ssa.call_spares (Ssa.callAt_spares (Ssa.lowers_of_eq_ok hm) hw budget depth _)
      (Nat.le_refl _) regs' s' hstep
    exact ⟨hspares.cells, fun _ _ => hspares.read⟩
  · have hspares := Flat.call_spares (Flat.callAt_spares hw hm budget depth _) (Nat.le_refl _) e s' hstep
    exact ⟨hspares.bytes hsmall, fun _ _ _ => hspares.read hsmall⟩

/-- A call of the sample's method on the struct in the first cell. -/
def Ssa.sampleCall (m : Module) : EStateM.Result (Stop Fault) Machine Registers :=
  step m (callAt m 10 10) [] [(5, .ptr ⟨.slot 0, []⟩)]
    (.call (some 0) "P_get_i32" .i32 [.ptr, .i32] [(.ptr, .register 5), (.i32, .int 2 .i32)])
    ⟨#[.aggregate [.int 40]], ""⟩

/-- A call of the sample's method on the struct in the first bytes. -/
def Flat.sampleCall (m : Module) : EStateM.Result (Stop Fault) Machine Exit :=
  steps m (callAt m 10 10) ⟨"main", true, [], none, []⟩ [("p", .int 0x100000)]
    [.call (some ("r", .word)) "P_get_i32" [(.long, .temp "p"), (.word, .int 2)]]
    ⟨⟨#[], #[40, 0, 0, 0]⟩, ""⟩

/-- The method returns, with a result, and has taken memory. -/
def samplesReturn (p : Program) : Bool :=
  (match Ssa.Module.ofProgram "sample" p p.analyze with
    | .ok m =>
      match Ssa.sampleCall m with
      | .ok [_, (0, .int 42)] s => s.memory.size == 3
      | _ => false
    | .error _ => false) &&
  (match Flat.Module.ofProgram p p.analyze with
    | .ok m =>
      match Flat.sampleCall m with
      | .ok .fellOff s => decide (4 < s.memory.stack.size) && decide (s.memory.stack.size < 2 ^ (62 : Nat))
      | _ => false
    | .error _ => false)

theorem calls_spare_memory_sample : ∃ p next m m',
    Program.parse Program.sampleSource 0 0 = .ok (p, next) ∧ p.analyze.hasErrors = false ∧
      Ssa.Module.ofProgram "sample" p p.analyze = .ok m ∧ Flat.Module.ofProgram p p.analyze = .ok m' ∧
      (∃ regs s, Ssa.sampleCall m = .ok regs s ∧ s.memory[0]? = some (.aggregate [.int 40])) ∧
      ∃ s, Flat.sampleCall m' = .ok .fellOff s ∧ 4 < s.memory.stack.size ∧
        s.memory.stack[0]? = some 40 := by
  obtain ⟨p, next, hparse, htest⟩ := Program.exists_of_parses
    (show Program.parses Program.sampleSource (fun p => !p.analyze.hasErrors && samplesReturn p) = true
      by decide +kernel)
  simp only [Bool.and_eq_true, Bool.not_eq_true', samplesReturn] at htest
  obtain ⟨herrors, hssa, hflat⟩ := htest
  have hspare := calls_spare_memory (.parsed hparse) herrors
  split at hssa
  · next m hm =>
    split at hssa
    · next s hs =>
      split at hflat
      · next m' hm' =>
        split at hflat
        · next s' hs' =>
          rw [Bool.and_eq_true, decide_eq_true_eq, decide_eq_true_eq] at hflat
          refine ⟨p, next, m, m', hparse, herrors, hm, hm', ⟨_, s, hs, ?_⟩, s', hs', hflat.1, ?_⟩
          · exact (hspare.1 "sample" m hm _ _ _ _ _ _ _ _ _ _ _ _ hs).1 0 (by decide)
          · exact (hspare.2 m' hm' _ _ _ _ _ _ _ _ _ _ hs' hflat.2).1 0 (by decide)
        · cases hflat
      · cases hflat
    · cases hssa
  · cases hssa

end StructLang
