import StructLang.Proofs.Flat.Calls
import StructLang.Proofs.Flat.Outcome
import StructLang.Proofs.Ssa.Functions

/-!
# Both kinds of code agree

A program without floats and foreign functions is lowered to SSA code and to flat code. Both do what the
program means, so their runs end with the same result, or they fail for the same reason.
-/

namespace StructLang

open scoped CoreNumbers

/-! ## Arguments of type void -/

/-- There are no foreign functions, and no function takes a value of type `void`. -/
def Symbols.TakeNoVoid (symbols : Symbols) : Prop :=
  symbols.foreigns = [] ∧ ∀ g ∈ symbols.functions, ∀ ty ∈ g.signature, ty ≠ .void

section

variable {f : Findings}

theorem TypedAll.noVoid_of (h : TypedAll f scope es ts) (hts : ∀ t ∈ ts, t ≠ .void) :
    NoVoid f.types es := by
  cases h with
  | nil => exact noVoid_nil
  | cons he hes =>
    obtain ⟨ht, hts⟩ := List.forall_mem_cons.mp hts
    rw [noVoid_cons, he.type?]
    exact ⟨fun heq => ht (Option.some.inj heq), hes.noVoid_of hts⟩

mutual

/-- If no function takes `void`, no call passes it. -/
theorem Typed.noVoid (hf : f.symbols.TakeNoVoid) (h : Typed f scope e ty)
    : NoVoid f.types e.callArgs := by
  cases h with
  | integer | float | bool | text | var => exact noVoid_nil
  | unary _ he | cast _ he | access _ he =>
    rw [Expr.callArgs]
    exact he.noVoid hf
  | binary _ hl hr =>
    rw [Expr.callArgs, noVoid_append]
    exact ⟨hl.noVoid hf, hr.noVoid hf⟩
  | call _ hargs hr =>
    obtain ⟨g, hg, -, hts, -⟩ := Symbols.exists_function hf.1 hr
    rw [Expr.callArgs, noVoid_append]
    exact ⟨hargs.noVoid_of (hts ▸ hf.2 g hg), hargs.noVoid hf⟩
  | construct _ _ hargs =>
    rw [Expr.callArgs]
    exact hargs.noVoid hf

theorem TypedAll.noVoid (hf : f.symbols.TakeNoVoid) (h : TypedAll f scope es ts)
    : NoVoid f.types (callArgsOf es) := by
  cases h with
  | nil => exact noVoid_nil
  | cons he hes =>
    rw [callArgsOf, noVoid_append]
    exact ⟨he.noVoid hf, hes.noVoid hf⟩

end

mutual

theorem StmtTyped.noVoid (hf : f.symbols.TakeNoVoid) {scope : Scope Binding}
    (h : StmtTyped f ret scope stmt scope') :
    NoVoid f.types stmt.callArgs := by
  cases h with
  | @declare _ d _ _ _ _ hinit =>
    rw [Stmt.callArgs]
    cases hd : d.init with
    | none => exact noVoid_nil
    | some e => exact (hinit e hd).noVoid hf
  | assign _ _ he | ret he | expr he => exact he.noVoid hf
  | branch hc ht =>
    rw [Stmt.callArgs, noVoid_append]
    exact ⟨hc.noVoid hf, ht.noVoid hf⟩
  | branchElse hc ht he =>
    rw [Stmt.callArgs, noVoid_append, noVoid_append]
    exact ⟨⟨hc.noVoid hf, ht.noVoid hf⟩, he.noVoid hf⟩
  | retNone => exact noVoid_nil

theorem StmtsTyped.noVoid (hf : f.symbols.TakeNoVoid) {scope : Scope Binding}
    (h : StmtsTyped f ret scope stmts) :
    NoVoid f.types (callArgsOfStmts stmts) := by
  cases h with
  | nil => exact noVoid_nil
  | cons hs hrest =>
    rw [callArgsOfStmts, noVoid_append]
    exact ⟨hs.noVoid hf, hrest.noVoid hf⟩

theorem BlockTyped.noVoid (hf : f.symbols.TakeNoVoid) {scope : Scope Binding}
    (h : BlockTyped f ret scope b) :
    NoVoid f.types b.callArgs := by
  obtain ⟨_, hs⟩ := h
  exact hs.noVoid hf

end

end

/-- Without foreign functions, only a parameter of type `void` lets a call pass such an argument. -/
theorem Program.WellTyped.noVoidArg {p : Program} (hw : p.WellTyped) (hf : p.foreigns = [])
    (hparams : p.NoVoidParam) : p.NoVoidArg := by
  have hsig : ∀ g ∈ p.symbols.functions, ∀ ty ∈ g.signature, ty ≠ .void := by
    intro h hh ty hty
    obtain ⟨g, hg, rfl⟩ := List.mem_map.mp hh
    rw [FnHeader.signature, List.mem_append] at hty
    rcases hty with hty | hty
    · obtain ⟨-, name, rfl⟩ := hw.symbols.receiver _ hh ty (Option.mem_toList.mp hty)
      simp
    · obtain ⟨q, hq, rfl⟩ := List.mem_map.mp hty
      exact hparams g hg q hq
  exact fun g hg => (hw.bodies g hg).noVoid ⟨hf, hsig⟩

/-- Flat lowering succeeds for a typed program without foreign functions and parameters of type `void`. -/
theorem Flat.exists_ofProgram {p : Program} (hw : p.WellTyped) (hf : p.foreigns = [])
    (hparams : p.NoVoidParam) : ∃ m, Flat.Module.ofProgram p p.analyze = .ok m := by
  have hl : LaidOut p.findings.symbols p.layouts := fun _ _ hd => hw.layout hd
  have hargs := hw.noVoidArg hf hparams
  obtain ⟨⟨gs, d⟩, hfns⟩ := Flat.exists_lowerFunctions (f := p.findings) hw.symbols hl
    (fun g hg => ⟨List.mem_map_of_mem hg, hw.bodies g hg, hparams g hg, hargs g hg⟩)
    ⟨[], 0, 0, [], []⟩
  have hfns : Flat.lowerFunctions ⟨p.analyze.typeTable, p.symbols, p.layouts⟩ ⟨[], 0, 0, [], []⟩
    p.functions = .ok (gs, d) := hfns
  simp only [Flat.Module.ofProgram, hfns, bind, Except.bind]
  exact ⟨_, rfl⟩

/-! ## Runs -/

/-- The number that a run reports for the value that the entry point returns. -/
def Meaning.Value.code : Meaning.Value → Int64
  | .int v => v
  | .bool b => if b then 1 else 0
  | _ => 0

/-- The entry point takes nothing and returns nothing or a value that is no aggregate, text or float. -/
def Program.PlainEntry (p : Program) : Prop :=
  ∀ g ∈ p.functions, g.name = entryPoint →
    g.receiver = none ∧ g.params = [] ∧ g.ret ∈ [Ty.i32, .i64, .bool, .void]

instance (p : Program) : Decidable p.PlainEntry :=
  inferInstanceAs (Decidable (∀ g ∈ p.functions, g.name = entryPoint →
    g.receiver = none ∧ g.params = [] ∧ g.ret ∈ [Ty.i32, .i64, .bool, .void]))

theorem Ssa.Module.run_of_returned {m : Ssa.Module} (h : m.execute budget = .ok r s)
    (hr : Ssa.Returned symbols ty v r) (hty : ty ∈ [StructLang.Ty.i32, .i64, .bool, .void]) :
    m.run budget = .ok ⟨v.code, s.output⟩ := by
  rw [Ssa.Module.run, h]
  by_cases hvoid : ty = .void
  · rw [Ssa.Returned, if_pos hvoid] at hr
    obtain ⟨rfl, hr⟩ := hr
    cases r with
    | none => rfl
    | some w => rw [hr w rfl]; rfl
  · rw [Ssa.Returned, if_neg hvoid] at hr
    obtain ⟨w, rfl, hw⟩ := hr
    cases hw with
    | void => exact absurd rfl hvoid
    | bool | i32 | i64 => rfl
    | f32 | f64 | text | struct => simp at hty

theorem Flat.Module.run_of_returned {m : Flat.Module} (h : m.execute budget = .ok r s)
    (hr : Flat.Returned symbols layouts stack ty v r) (hty : ty ∈ [Ty.i32, .i64, .bool, .void]) :
    m.run budget = .ok ⟨v.code, s.output⟩ := by
  rw [Flat.Module.run, h]
  by_cases hvoid : ty = .void
  · rw [Flat.Returned, if_pos hvoid] at hr
    obtain ⟨rfl, hr⟩ := hr
    cases r with
    | none => rfl
    | some w => rw [hr w rfl]; rfl
  · rw [Flat.Returned, if_neg hvoid] at hr
    obtain ⟨x, rfl, hx⟩ := hr
    have hplain : ty.isStruct = false := by
      cases ty with
      | struct => simp at hty
      | _ => rfl
    rw [Flat.Gives, if_neg (by rw [hplain]; exact Bool.false_ne_true)] at hx
    cases hx with
    | void => exact absurd rfl hvoid
    | bool | i32 | i64 => rfl
    | text => simp at hty

/-- A run shows what the program means: it prints nothing and reports the value that is returned, or
it ends with a fault for the failure. -/
def Meaning.Shown {φ : Type} (shows : Meaning.Failure → φ → Prop) :
    Except Meaning.Failure Meaning.Value → Except (Stop φ) RunResult → Prop
  | .ok v, r => r = .ok ⟨v.code, ""⟩
  | .error e, r => ∃ f, r = .error (.fault f) ∧ shows e f

/-- The machine in which the run of flat code ends. -/
def Flat.Module.final (m : Flat.Module) (budget : Nat) : Flat.Machine :=
  Execution.last (Flat.callAt m budget maxDepth entryPoint []) ⟨⟨m.dataBytes.toArray, #[]⟩, ""⟩

instance (s : Flat.Machine) : Decidable s.Small :=
  inferInstanceAs (Decidable (s.memory.stack.size < 2 ^ (62 : Nat)))

section

variable {p : Program}

theorem Program.PlainEntry.exists_entry (h : p.PlainEntry) (hw : p.WellTyped) :
    ∃ g ∈ p.functions, g.linkage = entryPoint ∧ g.signature = [] ∧
      g.ret ∈ [Ty.i32, .i64, .bool, .void] := by
  obtain ⟨g, hg⟩ := hw.entry
  obtain ⟨hmem, hname⟩ := List.mem_filter.mp (hg ▸ List.mem_singleton_self g)
  have hname : g.name = entryPoint := beq_iff_eq.mp hname
  obtain ⟨hreceiver, hparams, hret⟩ := h g hmem hname
  refine ⟨g, hmem, FnHeader.linkage_eq_entryPoint.mpr hname, ?_, hret⟩
  rw [FnHeader.signature, hreceiver, hparams]
  rfl

/-- The run of SSA code shows what the program means. -/
theorem Ssa.Module.run_shows {m : Ssa.Module} (hl : m.Lowers p) (hw : p.WellTyped)
    (hids : p.ids.Nodup) (hf : p.foreigns = []) (hentry : p.PlainEntry)
    (hbudget : ∀ g ∈ p.functions, g.body.jumps < budget) :
    Meaning.Shown Ssa.Shows p.meaning (m.run budget) := by
  obtain ⟨g, hmem, hlinkage, hsig, hret⟩ := hentry.exists_entry hw
  have hcall := Ssa.callAt_follows hl hw hids hf hbudget maxDepth g.toFnHeader
    (List.mem_map_of_mem hmem) [] [] ⟨#[], ""⟩ (hsig ▸ .nil) True.intro
  rw [hlinkage] at hcall
  rw [Program.meaning]
  revert hcall
  cases Meaning.callAt p maxDepth entryPoint [] with
  | ok v =>
    rintro ⟨r, s, hrun, hkeeps, hr⟩
    exact (Ssa.Module.run_of_returned hrun hr hret).trans (by rw [hkeeps.output])
  | error e =>
    rintro ⟨f, s, hrun, hshows⟩
    have hrun : m.execute budget = .error (.fault f) s := hrun
    exact ⟨f, by rw [Ssa.Module.run, hrun], hshows⟩

/-- The run of flat code shows what the program means, if its stack stays small. -/
theorem Flat.Module.run_shows (hm : Flat.Module.ofProgram p p.analyze = .ok m)
    (hgram : p.Grammatical) (hw : p.WellTyped) (hf : p.foreigns = []) (hfree : p.FloatFree)
    (hfit : p.SizesFit) (hentry : p.PlainEntry)
    (hbudget : ∀ g ∈ p.functions, g.body.jumps < budget) (hsmall : (m.final budget).Small) :
    Meaning.Shown Flat.Shows p.meaning (m.run budget) := by
  obtain ⟨g, hmem, hlinkage, hsig, hret⟩ := hentry.exists_entry hw
  have hcall := Flat.callAt_follows hgram hw hf hfree hfit hm hbudget maxDepth g.toFnHeader
    (List.mem_map_of_mem hmem) [] [] ⟨⟨m.dataBytes.toArray, #[]⟩, ""⟩ (hsig ▸ .nil)
  rw [hlinkage] at hcall
  have hcall := hcall hsmall
  rw [Program.meaning]
  revert hcall
  cases Meaning.callAt p maxDepth entryPoint [] with
  | ok v =>
    rintro ⟨r, s, hrun, hkeeps, hr⟩
    exact (Flat.Module.run_of_returned hrun hr hret).trans (by rw [hkeeps.output])
  | error e =>
    rintro ⟨f, s, hrun, hshows⟩
    have hrun : m.execute budget = .error (.fault f) s := hrun
    exact ⟨f, by rw [Flat.Module.run, hrun], hshows⟩

end

/-! ## Agreement -/

/-- What runs of both kinds of code have in common: they end with the same result, or they fail for
the same reason. -/
inductive Alike : Except (Stop Ssa.Fault) RunResult → Except (Stop Flat.Fault) RunResult → Prop where
  | result {r} : Alike (.ok r) (.ok r)
  | divisionByZero : Alike (.error (.fault .divisionByZero)) (.error (.fault .divisionByZero))
  | callDepth : Alike (.error (.fault .callDepth)) (.error (.fault .callDepth))
  | noReturn {func} : Alike (.error (.fault (.unreachable func))) (.error (.fault (.halted func)))

/-- Runs that show the same meaning are alike. -/
theorem Alike.of_shown (h : Meaning.Shown Ssa.Shows meaning r)
    (h' : Meaning.Shown Flat.Shows meaning r') : Alike r r' := by
  cases meaning with
  | ok v =>
    cases h
    cases h'
    exact .result
  | error e =>
    obtain ⟨f, rfl, hshows⟩ := h
    obtain ⟨f', rfl, hshows'⟩ := h'
    cases hshows with
    | divisionByZero => cases hshows'; exact .divisionByZero
    | callDepth => cases hshows'; exact .callDepth
    | noReturn => cases hshows'; exact .noReturn

/-- A program without foreign functions, floats and parameters of type `void` is lowered to SSA code
and to flat code. Their runs end with the same result or fail for the same reason, whatever budget
suffices for the jumps of a function.

Flat code counts bytes in 64-bit numbers, so the fields of each struct together are to take less than
`2 ^ 64` bytes, and the stack, which never shrinks, is to stay below `2 ^ 62` bytes. -/
theorem backends_agree (name : String) {p : Program} (hp : p.Sourced)
    (h : p.analyze.hasErrors = false) (hf : p.foreigns = []) (hfree : p.FloatFree)
    (hparams : p.NoVoidParam) (hentry : p.PlainEntry) (hfit : p.SizesFit) :
    ∃ m m', Ssa.Module.ofProgram name p p.analyze = .ok m ∧
      Flat.Module.ofProgram p p.analyze = .ok m' ∧
      ∀ budget, (∀ g ∈ p.functions, g.body.jumps < budget) → (m'.final budget).Small →
        Alike (m.run budget) (m'.run budget) := by
  have hw := hp.grammatical.wellTyped h
  obtain ⟨m, hm, -⟩ := Ssa.exists_ofProgram name hw
  obtain ⟨m', hm'⟩ := Flat.exists_ofProgram hw hf hparams
  refine ⟨m, m', hm, hm', fun budget hbudget hsmall => ?_⟩
  exact .of_shown
    (Ssa.Module.run_shows (Ssa.lowers_of_eq_ok hm) hw hp.grammatical.ids_nodup hf hentry hbudget)
    (Flat.Module.run_shows hm' hp.grammatical hw hf hfree hfit hentry hbudget hsmall)

theorem backends_agree_sample : ∃ p next m m',
    Program.parse Program.sampleSource 0 0 = .ok (p, next) ∧ p.analyze.hasErrors = false ∧
      (p.foreigns = [] ∧ p.FloatFree ∧ p.NoVoidParam ∧ p.PlainEntry ∧ p.SizesFit) ∧
      Ssa.Module.ofProgram "sample" p p.analyze = .ok m ∧
      Flat.Module.ofProgram p p.analyze = .ok m' ∧
      (∀ g ∈ p.functions, g.body.jumps < 10) ∧ (m'.final 10).Small ∧
      Alike (m.run 10) (m'.run 10) := by
  obtain ⟨p, next, hparse, h, htest⟩ := Program.exists_of_accepts
    (show Program.accepts Program.sampleSource (fun p =>
      decide (p.foreigns.isEmpty ∧ p.FloatFree ∧ p.NoVoidParam ∧ p.PlainEntry ∧ p.SizesFit ∧
        (∀ g ∈ p.functions, g.body.jumps < 10) ∧
        (Flat.Module.ofProgram p p.analyze).toOption.all
          fun m => decide (m.final 10).Small)) = true by decide +kernel)
  obtain ⟨hf, hfree, hparams, hentry, hfit, hbudget, hsmall⟩ := of_decide_eq_true htest
  have hf : p.foreigns = [] := List.isEmpty_iff.mp hf
  obtain ⟨m, m', hm, hm', hruns⟩ :=
    backends_agree "sample" (.parsed hparse) h hf hfree hparams hentry hfit
  have hsmall : (m'.final 10).Small := by
    rw [hm'] at hsmall
    exact of_decide_eq_true hsmall
  exact ⟨p, next, m, m', hparse, h, ⟨hf, hfree, hparams, hentry, hfit⟩, hm, hm', hbudget, hsmall,
    hruns 10 hbudget hsmall⟩

end StructLang
