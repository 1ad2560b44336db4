import StructLang.Proofs.Flat.Calls
import StructLang.Proofs.Flat.CalledSymbols
import StructLang.Proofs.Ssa.CalledSymbols
import StructLang.Proofs.Ssa.Modules
import StructLang.Proofs.SymbolWords
import StructLang.Ssa.Run

/-!
# Where calls arrive

Lowered code calls by symbol, and a module is searched for the first function with a symbol. In an
accepted program each symbol of a function has one definition, so a call that means a function of the
program reaches the code of that function. A call that means a foreign function reaches it only if no
function of the program has its symbol, which checking does not ask for.
-/

namespace StructLang

/-! ## Definitions -/

/-- An accepted program has one function with each symbol. -/
theorem Program.WellTyped.filter_linkage {p : Program} (h : p.WellTyped) (hg : g ∈ p.functions) :
    (p.functions.filter fun f => f.linkage == g.linkage) = [g] := by
  have hmem : g ∈ p.functions.filter fun f => f.linkage == g.linkage :=
    List.mem_filter.mpr ⟨hg, beq_self_eq_true _⟩
  suffices hone : (p.functions.filter fun f => f.linkage == g.linkage).length = 1 by
    obtain ⟨f, hf⟩ := List.length_eq_one_iff.mp hone
    rw [hf, List.mem_singleton] at hmem
    rw [hf, hmem]
  by_cases hmain : g.name = entryPoint
  · obtain ⟨entry, hentry⟩ := h.entry
    have hsame : (p.functions.filter fun f => f.linkage == g.linkage) = [entry] := by
      rw [← hentry]
      refine List.filter_congr fun f _ => ?_
      rw [FnHeader.linkage_eq_entryPoint.mpr hmain, Bool.eq_iff_iff, beq_iff_eq, beq_iff_eq]
      exact FnHeader.linkage_eq_entryPoint
    rw [hsame, List.length_singleton]
  · have hothers : (p.functions.filter fun f => f.linkage == g.linkage) =
        (p.functions.filter fun f => f.name != entryPoint).filter fun f => f.linkage == g.linkage := by
      rw [List.filter_filter]
      refine List.filter_congr fun f _ => ?_
      rw [Bool.eq_iff_iff, Bool.and_eq_true, beq_iff_eq, bne_iff_ne]
      refine ⟨fun heq => ⟨heq, ?_⟩, And.left⟩
      rwa [ne_eq, ← FnHeader.linkage_eq_entryPoint, heq, FnHeader.linkage_eq_entryPoint]
    have hcount := List.count_eq_one_of_mem h.linkage_nodup
      (List.mem_map_of_mem (List.mem_filter.mpr ⟨hg, by simpa using hmain⟩))
    rw [List.count, List.countP_map] at hcount
    rw [hothers, ← List.countP_eq_length_filter]
    exact hcount

/-- Functions that are lowered in turn are each lowered. -/
theorem forall₂_of_inTurn {σ ε κ : Type} {lower : σ → FnDef → Except ε (κ × σ)}
    {lowerAll : σ → List FnDef → Except ε (List κ × σ)} (hnil : ∀ s, lowerAll s [] = .ok ([], s))
    (hcons : ∀ s f rest, lowerAll s (f :: rest) = do
      let (code, s) ← lower s f
      let (codes, s) ← lowerAll s rest
      return (code :: codes, s)) {before after : σ} {codes : List κ}
    (h : lowerAll before fns = .ok (codes, after)) :
    List.Forall₂ (fun f code => ∃ before after, lower before f = .ok (code, after)) fns codes := by
  induction fns generalizing before codes with
  | nil =>
    cases (hnil before).symm.trans h
    exact .nil
  | cons f rest ih =>
    rw [hcons] at h
    obtain ⟨⟨code, _⟩, hf, h⟩ := except_bind_eq_ok.mp h
    obtain ⟨⟨codes', _⟩, hrest, h⟩ := except_bind_eq_ok.mp h
    cases h
    exact .cons ⟨_, _, hf⟩ (ih hrest)

/-- The code of a function is the one definition of its symbol, in any list of the code of each function
in order. -/
theorem Program.WellTyped.definition {p : Program} (hw : p.WellTyped) {κ : Type}
    {name : κ → String} {R : FnDef → κ → Prop} {codes : List κ}
    (h : List.Forall₂ R p.functions codes) (hname : ∀ f code, R f code → name code = f.linkage)
    (hg : g ∈ p.functions) :
    ∃ code, (codes.filter fun c => name c == g.linkage) = [code] ∧ R g code := by
  have hfilter : List.Forall₂ R (p.functions.filter fun f => f.linkage == g.linkage)
      (codes.filter fun c => name c == g.linkage) := by
    refine List.rel_filter (fun f code hf => ?_) h
    show (f.linkage == g.linkage) = true ↔ (name code == g.linkage) = true
    rw [hname f code hf]
  rw [hw.filter_linkage hg, List.forall₂_cons_left_iff] at hfilter
  obtain ⟨code, rest, hcode, hrest, hcodes⟩ := hfilter
  rw [List.forall₂_nil_left_iff.mp hrest] at hcodes
  exact ⟨code, hcodes, hcode⟩

namespace Ssa

variable {m : Module}

/-- The code is what lowering a function of the program gives. -/
def LoweredFrom (p : Program) (f : FnDef) (code : Function) : Prop :=
  ∃ before after, lowerFunction ⟨p.analyze.typeTable, p.analyze.declaredIn, p.symbols⟩ before f =
    .ok (code, after)

theorem LoweredFrom.functionCode (h : LoweredFrom p f code) :
    ∃ before after, FunctionCode (.ofFindings p.findings) before f code after := by
  obtain ⟨before, after, h⟩ := h
  exact ⟨before, after, functionCode_of_eq_ok h⟩

theorem LoweredFrom.name (h : LoweredFrom p f code) : code.name = f.linkage := by
  obtain ⟨_, _, hcode⟩ := h.functionCode
  cases hcode
  rfl

/-- The code is the only one that the module has under the symbol of the function, and it is what
lowering the function gives. -/
structure Module.Defines (m : Module) (p : Program) (f : FnDef) (code : Function) : Prop where
  found : m.function? f.linkage = some code
  only : (m.functions.filter fun c => c.name == f.linkage) = [code]
  lowered : LoweredFrom p f code

theorem loweredFrom_of_ofProgram (h : Module.ofProgram name p p.analyze = .ok m) :
    List.Forall₂ (LoweredFrom p) p.functions m.functions := by
  rw [Module.ofProgram] at h
  obtain ⟨_, _, h⟩ := except_bind_eq_ok.mp h
  obtain ⟨_, _, h⟩ := except_bind_eq_ok.mp h
  obtain ⟨⟨functions, _⟩, hfunctions, h⟩ := except_bind_eq_ok.mp h
  cases h
  exact forall₂_of_inTurn (fun _ => rfl) (fun _ _ _ => rfl) hfunctions

/-- Every function of an accepted program has its definition. -/
theorem exists_defines {name : String} (hw : p.WellTyped)
    (h : Module.ofProgram name p p.analyze = .ok m) (hf : f ∈ p.functions) :
    ∃ code, m.Defines p f code := by
  obtain ⟨code, honly, hcode⟩ :=
    hw.definition (loweredFrom_of_ofProgram h) (fun _ _ => LoweredFrom.name) hf
  refine ⟨code, ?_, honly, hcode⟩
  rw [Module.function?, ← List.head?_filter, honly, List.head?_cons]

/-- Each block of the definition of a function calls the symbols of the calls that are made in it. -/
theorem Module.Defines.called (h : m.Defines p f code) (k : Nat) : Reach p.analyze.typeTable p.symbols
      (calledIn code.blocks k) (madeIn k (placedCalls f.body)) := by
  obtain ⟨_, _, hcode⟩ := h.lowered.functionCode
  exact hcode.called k

/-- The foreign functions of a module are those that the program declares. -/
theorem exists_foreign_of_mem_lowerForeigns (h : lowerForeigns seen ds = .ok gs) :
    ∀ g ∈ gs, ∃ d ∈ ds, d.name = g.name := by
  induction ds generalizing seen gs with
  | nil =>
    cases h
    simp
  | cons d rest ih =>
    rw [lowerForeigns] at h
    split at h
    · intro g hg
      obtain ⟨d', hd', hname⟩ := ih h g hg
      exact ⟨d', List.mem_cons_of_mem d hd', hname⟩
    · obtain ⟨params, _, h⟩ := except_bind_eq_ok.mp h
      obtain ⟨ret, _, h⟩ := except_bind_eq_ok.mp h
      obtain ⟨gs', hrest, h⟩ := except_bind_eq_ok.mp h
      cases h
      intro g hg
      rcases List.mem_cons.mp hg with rfl | hg
      · exact ⟨d, List.mem_cons_self, rfl⟩
      · obtain ⟨d', hd', hname⟩ := ih hrest g hg
        exact ⟨d', List.mem_cons_of_mem d hd', hname⟩

/-- A module declares and defines one symbol exactly if a foreign function and a function of the program
share one. -/
theorem declared_or_defined_iff (h : Module.ofProgram name p p.analyze = .ok m) :
    (∀ d ∈ m.foreigns, ∀ code ∈ m.functions, d.name ≠ code.name) ↔ p.NoSharedSymbol := by
  have hforeigns := (lowers_of_eq_ok h).foreigns
  have hfunctions := loweredFrom_of_ofProgram h
  constructor
  · intro hnone d hd g hg
    obtain ⟨d', hd', hname⟩ := exists_mem_lowerForeigns hforeigns d hd (by simp)
    obtain ⟨code, hcode, hlowered⟩ := exists_of_forall₂ hfunctions.flip hg
    rw [← hname, ← LoweredFrom.name hlowered]
    exact hnone d' hd' code hcode
  · intro hnone d hd code hcode
    obtain ⟨d', hd', hname⟩ := exists_foreign_of_mem_lowerForeigns hforeigns d hd
    obtain ⟨g, hg, hlowered⟩ := exists_of_forall₂ hfunctions hcode
    rw [← hname, hlowered.name]
    exact hnone d' hd' g hg

/-- A symbol without a function of the program is not defined. -/
theorem function?_eq_none (h : Module.ofProgram name p p.analyze = .ok m)
    (hfree : ∀ g ∈ p.functions, g.linkage ≠ symbol) : m.function? symbol = none := by
  refine List.find?_eq_none.mpr fun code hcode => ?_
  obtain ⟨g, hg, hlowered⟩ := exists_of_forall₂ (loweredFrom_of_ofProgram h) hcode
  rw [hlowered.name]
  simpa using hfree g hg

end Ssa

namespace Flat

variable {m : Module}

def LoweredFrom (p : Program) (f : FnDef) (code : Function) : Prop :=
  ∃ before after, lowerFunction ⟨p.analyze.typeTable, p.symbols, p.layouts⟩ before f =
    .ok (code, after)

theorem LoweredFrom.functionCode (h : LoweredFrom p f code) :
    ∃ before after, FunctionCode (.ofFindings p.findings p.layouts) before f code after := by
  obtain ⟨before, after, h⟩ := h
  exact ⟨before, after, functionCode_of_eq_ok h⟩

theorem LoweredFrom.name (h : LoweredFrom p f code) : code.name = f.linkage := by
  obtain ⟨_, _, hcode⟩ := h.functionCode
  cases hcode
  rfl

structure Module.Defines (m : Module) (p : Program) (f : FnDef) (code : Function) : Prop where
  found : m.function? f.linkage = some code
  only : (m.functions.filter fun c => c.name == f.linkage) = [code]
  lowered : LoweredFrom p f code

theorem loweredFrom_of_ofProgram (h : Module.ofProgram p p.analyze = .ok m) :
    List.Forall₂ (LoweredFrom p) p.functions m.functions := by
  rw [Module.ofProgram] at h
  obtain ⟨⟨functions, _⟩, hfunctions, h⟩ := except_bind_eq_ok.mp h
  cases h
  exact forall₂_of_inTurn (fun _ => rfl) (fun _ _ _ => rfl) hfunctions

/-- Every function of an accepted program has its definition. -/
theorem exists_defines (hw : p.WellTyped) (h : Module.ofProgram p p.analyze = .ok m)
    (hf : f ∈ p.functions) : ∃ code, m.Defines p f code := by
  obtain ⟨code, honly, hcode⟩ :=
    hw.definition (loweredFrom_of_ofProgram h) (fun _ _ => LoweredFrom.name) hf
  refine ⟨code, ?_, honly, hcode⟩
  rw [Module.function?, ← List.head?_filter, honly, List.head?_cons]

/-- The definition of a function calls the symbols of the calls in its body, in the same order. -/
theorem Module.Defines.called (h : m.Defines p f code) (hw : p.WellTyped) (hf : f ∈ p.functions) :
    Reach p.analyze.typeTable p.symbols code.called f.body.calls := by
  obtain ⟨_, _, hcode⟩ := h.lowered.functionCode
  exact (hcode.passes hw.symbols (fun _ _ hd => hw.layout hd) (hw.bodies f hf)).calls

/-- A symbol without a function of the program is not defined. -/
theorem function?_eq_none (h : Module.ofProgram p p.analyze = .ok m)
    (hfree : ∀ g ∈ p.functions, g.linkage ≠ symbol) : m.function? symbol = none := by
  refine List.find?_eq_none.mpr fun code hcode => ?_
  obtain ⟨g, hg, hlowered⟩ := exists_of_forall₂ (loweredFrom_of_ofProgram h) hcode
  rw [hlowered.name]
  simpa using hfree g hg

end Flat

/-! ## Calls of functions of the program -/

theorem exists_of_toBool {ε α : Type} {r : Except ε α} (h : r.toBool = true) : ∃ a, r = .ok a := by
  cases r with
  | error e => cases h
  | ok a => exact ⟨a, rfl⟩

/-- The symbols that some code calls are those of the given calls, one for one. What a module has under the
symbol of a call that means a function of the program is the code of this function. -/
def Program.CallsArrive (p : Program) {κ : Type} (defines : FnDef → κ → Prop) (called : List String)
    (sites : List CallSite) : Prop :=
  List.Forall₂ (fun symbol c => c.symbol? p.analyze.typeTable p.symbols = some symbol ∧
    ∀ f, c.callee? p.analyze.typeTable p.symbols = some (.user f) →
      ∃ k ∈ p.functions, k.toFnHeader = f ∧ k.linkage = symbol ∧ ∃ code, defines k code) called sites

/-- Calls arrive if the code calls the symbols of the calls and every function is defined. -/
theorem Program.CallsArrive.of_reach {p : Program} (h : Reach p.analyze.typeTable p.symbols called sites)
    (hdefined : ∀ k ∈ p.functions, ∃ code, defines k code) : p.CallsArrive defines called sites := by
  rw [Reach, ← List.forall₂_eq_eq_eq, List.forall₂_map_left_iff, List.forall₂_map_right_iff] at h
  refine h.imp fun symbol c hsymbol => ⟨hsymbol.symm, fun f hf => ?_⟩
  rw [CallSite.symbol?, hf, Option.map_some, Option.some.injEq] at hsymbol
  obtain ⟨ts, _, hresolve⟩ := CallSite.callee?_eq_some_iff.mp hf
  rcases Symbols.resolve_eq_ok hresolve with ⟨d, _, hd, -⟩ | ⟨f', hmem, hf', -⟩
  · cases hd
  · cases hf'
    obtain ⟨k, hk, rfl⟩ := List.mem_map.mp hmem
    exact ⟨k, hk, rfl, hsymbol.symm, hdefined k hk⟩

/-- Every call that means a function of the program reaches the code of that function: the symbol at the
place of the call is that of the function, and what a module has under this symbol is the lowered function
and nothing else. In SSA code the place of a call is that among the calls which the body makes in the same
block, and every call of the body is made in some block. In flat code it is that among all calls of the
body. -/
theorem Program.calls_reach_definitions {p : Program} (hp : p.Sourced)
    (h : p.analyze.hasErrors = false) :
    (∀ name m, Ssa.Module.ofProgram name p p.analyze = .ok m → ∀ g ∈ p.functions,
      (Ssa.placedCalls g.body).map Prod.snd = g.body.calls ∧ ∃ code, m.Defines p g code ∧
        ∀ block, p.CallsArrive (m.Defines p) (Ssa.calledIn code.blocks block)
          (Ssa.madeIn block (Ssa.placedCalls g.body))) ∧
    ∀ m, Flat.Module.ofProgram p p.analyze = .ok m → ∀ g ∈ p.functions,
      ∃ code, m.Defines p g code ∧ p.CallsArrive (m.Defines p) code.called g.body.calls := by
  have hw := hp.grammatical.wellTyped h
  constructor
  · intro name m hm g hg
    obtain ⟨code, hcode⟩ := Ssa.exists_defines hw hm hg
    exact ⟨Ssa.map_snd_placeBlock _ g.body, code, hcode, fun block =>
      .of_reach (hcode.called block) fun k => Ssa.exists_defines hw hm⟩
  · intro m hm g hg
    obtain ⟨code, hcode⟩ := Flat.exists_defines hw hm hg
    exact ⟨code, hcode, .of_reach (hcode.called hw hg) fun k => Flat.exists_defines hw hm⟩

/-- A program whose entry point calls a method. -/
def Program.methodSource : String :=
  "struct P { x: i32 } fn P.f() -> i32 { return 1 } fn main() -> i32 { return new P(1).f() }"

/-- The method call reaches the method in SSA code and in flat code. -/
theorem Program.calls_reach_definitions_method : ∃ p next m m',
    Program.parse methodSource 0 0 = .ok (p, next) ∧ p.analyze.hasErrors = false ∧
      Ssa.Module.ofProgram "method" p p.analyze = .ok m ∧
      Flat.Module.ofProgram p p.analyze = .ok m' ∧
      ∃ g ∈ p.functions, ∃ c ∈ g.body.calls, ∃ k ∈ p.functions,
        c.callee? p.analyze.typeTable p.symbols = some (.user k.toFnHeader) ∧
        (∃ caller code block, m.Defines p g caller ∧ c ∈ Ssa.madeIn block (Ssa.placedCalls g.body) ∧
          k.linkage ∈ Ssa.calledIn caller.blocks block ∧ m.Defines p k code) ∧
        ∃ caller code, m'.Defines p g caller ∧ k.linkage ∈ caller.called ∧ m'.Defines p k code := by
  obtain ⟨p, next, hparse, h, htest⟩ := exists_of_accepts
    (show accepts methodSource (fun p => (Ssa.Module.ofProgram "method" p p.analyze).toBool &&
      (Flat.Module.ofProgram p p.analyze).toBool && p.functions.any fun g => g.body.calls.any fun c =>
        (c.callee? p.analyze.typeTable p.symbols).any Callee.hasReceiver) = true by decide +kernel)
  rw [Bool.and_eq_true, Bool.and_eq_true] at htest
  obtain ⟨⟨hm, hm'⟩, hcalls⟩ := htest
  obtain ⟨m, hm⟩ := exists_of_toBool hm
  obtain ⟨m', hm'⟩ := exists_of_toBool hm'
  obtain ⟨g, hg, hcalls⟩ := List.any_eq_true.mp hcalls
  obtain ⟨c, hc, hcallee⟩ := List.any_eq_true.mp hcalls
  obtain ⟨callee, hcallee, hmethod⟩ := (Option.any_eq_true _ _).mp hcallee
  cases callee with
  | foreign d => cases hmethod
  | user f =>
    obtain ⟨hssa, hflat⟩ := calls_reach_definitions (.parsed hparse) h
    obtain ⟨-, caller, hcaller, harrive⟩ := hssa "method" m hm g hg
    obtain ⟨block, hblock⟩ := Ssa.exists_mem_madeIn hc
    obtain ⟨_, hcalled, -, harrive⟩ := exists_of_forall₂ (harrive block) hblock
    obtain ⟨k, hk, rfl, rfl, code, hcode⟩ := harrive f hcallee
    obtain ⟨caller', hcaller', harrive'⟩ := hflat m' hm' g hg
    obtain ⟨_, hcalled', -, harrive'⟩ := exists_of_forall₂ harrive' hc
    obtain ⟨k', hk', heq, rfl, code', hcode'⟩ := harrive' _ hcallee
    have hw := (Sourced.parsed hparse).grammatical.wellTyped h
    obtain rfl := hw.linkage_inj hk' hk (congrArg FnHeader.linkage heq)
    exact ⟨p, next, m, m', hparse, h, hm, hm', g, hg, c, hc, k', hk, hcallee,
      ⟨caller, code, block, hcaller, hblock, hcalled, hcode⟩, caller', code', hcaller', hcalled', hcode'⟩

/-! ## Calls of foreign functions -/

/-- A function of the program has the symbol of a foreign function exactly if both are the entry point,
or if the name of the one is the words of the other. -/
theorem FnHeader.linkage_eq_foreign {g : FnHeader} {d : ForeignDecl} :
    g.linkage = d.name ↔ (g.name = entryPoint ∧ d.name = entryPoint) ∨
      (g.name ≠ entryPoint ∧ g.words = nameWords d.name) := by
  by_cases hmain : g.name = entryPoint
  · simp [FnHeader.linkage_eq_entryPoint.mpr hmain, hmain, eq_comm]
  · rw [← String.toList_inj, ← splitOn_inj, g.splitOn_linkage hmain]
    simp [hmain, nameWords]

/-- A call that means a foreign function means one that the program declares, and the code of the
function in which it stands calls the symbol of that one. -/
def Program.CallsForeigns (p : Program) {κ : Type} (defines : FnDef → κ → Prop)
    (called : κ → List String) : Prop :=
  ∀ g ∈ p.functions, ∀ c ∈ g.body.calls, ∀ d,
    c.callee? p.analyze.typeTable p.symbols = some (.foreign d) →
      d ∈ p.foreigns ∧ ∃ code, defines g code ∧ (Callee.foreign d).linkage ∈ called code

theorem CallSite.mem_foreigns {p : Program} {c : CallSite}
    (h : c.callee? p.analyze.typeTable p.symbols = some (.foreign d)) : d ∈ p.foreigns := by
  obtain ⟨ts, _, hresolve⟩ := CallSite.callee?_eq_some_iff.mp h
  rcases Symbols.resolve_eq_ok hresolve with ⟨d', hmem, hd, -⟩ | ⟨f, _, hf, -⟩
  · cases hd
    exact hmem
  · cases hf

/-- Where a call of a foreign function arrives. If no function of the program has its symbol, the foreign
function runs; if one has, that one runs instead, and the SSA module both declares and defines the symbol.
Which of the two it is can be told from the names. -/
theorem Program.foreign_calls_arrive {p : Program} (hp : p.Sourced)
    (h : p.analyze.hasErrors = false) :
    (∀ d ∈ p.foreigns, ∀ g ∈ p.functions, g.linkage = d.name ↔
      (g.name = entryPoint ∧ d.name = entryPoint) ∨
        (g.name ≠ entryPoint ∧ g.words = nameWords d.name)) ∧
    (∀ name m, Ssa.Module.ofProgram name p p.analyze = .ok m →
      ((∀ d ∈ m.foreigns, ∀ code ∈ m.functions, d.name ≠ code.name) ↔ p.NoSharedSymbol) ∧
      p.CallsForeigns (m.Defines p) Ssa.Function.called ∧
      ∀ d ∈ p.foreigns,
        ((∀ g ∈ p.functions, g.linkage ≠ d.name) → ∀ budget depth args,
          Ssa.callAt m budget depth (Callee.foreign d).linkage args = Ssa.callForeign m d.name args) ∧
        ∀ g ∈ p.functions, g.linkage = d.name → ∃ code, m.Defines p g code ∧
          ∀ budget depth args, Ssa.callAt m budget (depth + 1) (Callee.foreign d).linkage args =
            Ssa.runBlocks m (Ssa.callAt m budget depth) code args budget [] 0) ∧
    ∀ m, Flat.Module.ofProgram p p.analyze = .ok m →
      p.CallsForeigns (m.Defines p) Flat.Function.called ∧ ∀ d ∈ p.foreigns,
      ((∀ g ∈ p.functions, g.linkage ≠ d.name) → ∀ budget depth args,
        Flat.callAt m budget depth (Callee.foreign d).linkage args = Flat.callForeign d.name args) ∧
      ∀ g ∈ p.functions, g.linkage = d.name → ∃ code, m.Defines p g code ∧
        ∀ budget depth args, Flat.callAt m budget (depth + 1) (Callee.foreign d).linkage args =
          if args.length ≠ code.params.length then
            Flat.fault (.argumentCount code.name args.length)
          else
            Flat.bindParams m [] code.params args >>= fun temps =>
              Flat.runFrom m (Flat.callAt m budget depth) code budget temps code.body := by
  have hw := hp.grammatical.wellTyped h
  have hlinkage (d : ForeignDecl) : (Callee.foreign d).linkage = d.name := by
    simp [Callee.linkage, linkageName]
  refine ⟨fun _ _ _ _ => FnHeader.linkage_eq_foreign, fun name m hm => ?_, fun m hm => ?_⟩
  · refine ⟨Ssa.declared_or_defined_iff hm, fun g hg c hc d hd => ⟨CallSite.mem_foreigns hd, ?_⟩,
      fun d _ => ⟨fun hfree budget depth args => ?_, ?_⟩⟩
    · obtain ⟨code, hcode⟩ := Ssa.exists_defines hw hm hg
      obtain ⟨k, hk⟩ := Ssa.exists_mem_madeIn hc
      exact ⟨code, hcode, Ssa.Function.mem_called ((hcode.called k).mem hk hd)⟩
    · rw [hlinkage, Ssa.callAt, Ssa.function?_eq_none hm hfree]
    · intro g hg hshared
      obtain ⟨code, hcode⟩ := Ssa.exists_defines hw hm hg
      refine ⟨code, hcode, fun budget depth args => ?_⟩
      rw [hlinkage, ← hshared, Ssa.callAt, hcode.found]
  · refine ⟨fun g hg c hc d hd => ⟨CallSite.mem_foreigns hd, ?_⟩,
      fun d _ => ⟨fun hfree budget depth args => ?_, ?_⟩⟩
    · obtain ⟨code, hcode⟩ := Flat.exists_defines hw hm hg
      exact ⟨code, hcode, (hcode.called hw hg).mem hc hd⟩
    · rw [hlinkage, Flat.callAt, Flat.function?_eq_none hm hfree]
    · intro g hg hshared
      obtain ⟨code, hcode⟩ := Flat.exists_defines hw hm hg
      refine ⟨code, hcode, fun budget depth args => ?_⟩
      rw [hlinkage, ← hshared, Flat.callAt, hcode.found]

/-- A program with a foreign function and a function of its own of the same name; the call means the
foreign one. -/
def Program.sharedSource : String :=
  "extern fn f(n: i32) -> i32 fn f() -> i32 { return 7 } fn main() -> i32 { return f(1) }"

/-- Checking accepts the program, and the call of the foreign function runs the other one. -/
theorem Program.foreign_calls_arrive_shared : ∃ p next m m',
    Program.parse sharedSource 0 0 = .ok (p, next) ∧ p.analyze.hasErrors = false ∧
      Ssa.Module.ofProgram "shared" p p.analyze = .ok m ∧
      Flat.Module.ofProgram p p.analyze = .ok m' ∧
      ∃ d ∈ p.foreigns, ∃ g ∈ p.functions, g.linkage = d.name ∧
        (∃ d ∈ m.foreigns, ∃ code ∈ m.functions, d.name = code.name) ∧
        (∃ code, m.Defines p g code ∧ ∀ budget depth args,
          Ssa.callAt m budget (depth + 1) (Callee.foreign d).linkage args =
            Ssa.runBlocks m (Ssa.callAt m budget depth) code args budget [] 0) ∧
        ∃ code, m'.Defines p g code ∧ ∀ budget depth args,
          args.length ≠ code.params.length →
          Flat.callAt m' budget (depth + 1) (Callee.foreign d).linkage args =
            Flat.fault (.argumentCount code.name args.length) := by
  obtain ⟨p, next, hparse, h, htest⟩ := exists_of_accepts
    (show accepts sharedSource (fun p => (Ssa.Module.ofProgram "shared" p p.analyze).toBool &&
      (Flat.Module.ofProgram p p.analyze).toBool && p.foreigns.any fun d => p.functions.any fun g =>
        g.linkage == d.name) = true by decide +kernel)
  rw [Bool.and_eq_true, Bool.and_eq_true] at htest
  obtain ⟨⟨hm, hm'⟩, hshared⟩ := htest
  obtain ⟨m, hm⟩ := exists_of_toBool hm
  obtain ⟨m', hm'⟩ := exists_of_toBool hm'
  obtain ⟨d, hd, hshared⟩ := List.any_eq_true.mp hshared
  obtain ⟨g, hg, hshared⟩ := List.any_eq_true.mp hshared
  have hshared : g.linkage = d.name := beq_iff_eq.mp hshared
  obtain ⟨-, hssa, hflat⟩ := foreign_calls_arrive (.parsed hparse) h
  obtain ⟨hboth, -, hssa⟩ := hssa "shared" m hm
  obtain ⟨code', hcode', hflat⟩ := ((hflat m' hm').2 d hd).2 g hg hshared
  refine ⟨p, next, m, m', hparse, h, hm, hm', d, hd, g, hg, hshared, ?_,
    (hssa d hd).2 g hg hshared, code', hcode', fun budget depth args hargs => ?_⟩
  · by_contra hnone
    push Not at hnone
    exact hboth.mp hnone d hd g hg hshared.symm
  · rw [hflat, if_pos hargs]

end StructLang
