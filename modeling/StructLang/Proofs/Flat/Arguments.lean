import StructLang.Proofs.Acceptance
import StructLang.Proofs.Flat.Functions
import StructLang.Proofs.Loading

/-!
# Arguments and the temporaries they arrive in

A function takes each argument over into a temporary named after its parameter. The body assigns none of
these temporaries, and two of them coincide only where a method has a parameter with the name of its
receiver.
-/

namespace StructLang

def FnHeader.HidesReceiver (g : FnHeader) : Prop :=
  g.receiver.isSome = true ∧ "self" ∈ g.params.map TypedName.name

namespace Flat

/-- Arguments as the parameters take them over, in order. -/
inductive TakenOver (m : Module) :
    List (Class × String) → List Value → Machine → List Value → Machine → Prop where
  | nil {s} : TakenOver m [] [] s [] s
  | cons {cls name params v args s w s1 ws s2} (hv : pass m cls v s = .ok w s1)
      (hrest : TakenOver m params args s1 ws s2) :
      TakenOver m ((cls, name) :: params) (v :: args) s (w :: ws) s2

theorem exists_takenOver
    (hlength : args.length = params.length) (h : bindParams m temps params args s = .ok temps' s') :
    ∃ ws, TakenOver m params args s ws s' ∧
      (∀ t, t ∉ params.map Prod.snd → temps'.lookup t = temps.lookup t) ∧
      ((params.map Prod.snd).Nodup → (params.map fun q => temps'.lookup q.2) = ws.map some) := by
  induction params generalizing args temps s with
  | nil =>
    cases List.length_eq_zero_iff.mp hlength
    cases h
    exact ⟨[], .nil, fun _ _ => rfl, fun _ => rfl⟩
  | cons q params ih =>
    cases args with
    | nil => cases hlength
    | cons v args =>
      obtain ⟨w, s1, hv, h⟩ := Execution.bind_eq_ok.mp h
      obtain ⟨ws, htaken, hframe, hfound⟩ := ih (Nat.succ.inj hlength) h
      refine ⟨w :: ws, .cons hv htaken, fun t ht => ?_, fun hnodup => ?_⟩
      · rw [List.map_cons, List.mem_cons, not_or] at ht
        rw [hframe t ht.2, Temps.lookup_assign, if_neg ht.1]
      · rw [List.map_cons, List.nodup_cons] at hnodup
        rw [List.map_cons, List.map_cons, hfound hnodup.2, hframe q.2 hnodup.1, Temps.lookup_assign,
          if_pos rfl]

theorem ReceiverCode.names (h : ReceiverCode env scope s receiver scope' params code s') :
    params.map Prod.snd = receiver.toList.map fun _ => incoming "self" := by
  cases h <;> rfl

namespace FunctionCode

variable (h : FunctionCode env d g f d')
include h

theorem params_eq : f.params.map Prod.snd =
    (g.receiver.toList.map fun _ => incoming "self") ++ g.params.map fun q => incoming q.name := by
  cases h with
  | mk hbody _ =>
    cases hbody with
    | mk hr hp _ => rw [List.map_append, hr.names, hp.classes.names]

theorem nodup_params (hnodup : (g.params.map TypedName.name).Nodup) :
    (f.params.map Prod.snd).Nodup ↔ ¬g.HidesReceiver := by
  have hparams : (g.params.map fun q => incoming q.name).Nodup := by
    simpa [Function.comp_def] using hnodup.map fun _ _ => incoming_inj
  have hself : incoming "self" ∈ g.params.map (fun q => incoming q.name) ↔
      "self" ∈ g.params.map TypedName.name := by
    simp only [List.mem_map]
    exact exists_congr fun q => and_congr_right fun _ => ⟨incoming_inj, congrArg incoming⟩
  rw [h.params_eq, FnHeader.HidesReceiver]
  cases g.receiver with
  | none => simpa using hparams
  | some ty =>
    simp only [Option.toList_some, List.map_singleton, List.singleton_append, List.nodup_cons, hself,
      hparams, and_true, Option.isSome_some, true_and]

theorem disjoint_params (hnames : ∀ q ∈ g.params, IsName q.name) :
    ∀ x ∈ f.params.map Prod.snd, x ∉ dests f.body := by
  have hfree : ∀ name, IsName name → incoming name ∉ dests f.body := by
    intro name hname hm
    obtain ⟨n, hcarries, -⟩ := h.wellBuilt.2.2.numbers _ hm
    generalize hx : incoming name = x at hcarries
    cases hcarries with
    | temp => exact incoming_ne_temp name n hx
    | slot hint => exact incoming_ne_slot hname hint n hx
  rw [h.params_eq]
  intro x hx
  rcases List.mem_append.mp hx with hx | hx
  · obtain ⟨_, -, rfl⟩ := List.mem_map.mp hx
    exact hfree _ isName_self
  · obtain ⟨q, hq, rfl⟩ := List.mem_map.mp hx
    exact hfree _ (hnames q hq)

end FunctionCode

/-- Every function of a lowered program takes its arguments over into temporaries that its body does not
assign. Unless the function hides its receiver they are different, and each argument is found in its own
one. -/
theorem arguments_kept_apart {p : Program} (hp : p.Sourced) (h : p.analyze.hasErrors = false)
    (hm : Module.ofProgram p p.analyze = .ok m) :
    ∀ f ∈ m.functions, ∃ g ∈ p.functions, f.name = g.linkage ∧
      (f.params.map Prod.snd =
        (g.receiver.toList.map fun _ => ".p.self") ++ g.params.map fun q => ".p." ++ q.name) ∧
      ((f.params.map Prod.snd).Nodup ↔ ¬g.HidesReceiver) ∧
      (∀ x ∈ f.params.map Prod.snd, x ∉ dests f.body) ∧
      ∀ args temps s s', args.length = f.params.length →
        bindParams m [] f.params args s = .ok temps s' → ∃ ws, TakenOver m f.params args s ws s' ∧
          (¬g.HidesReceiver → (f.params.map fun q => temps.lookup q.2) = ws.map some) := by
  obtain ⟨d, hcodes, -⟩ := ofProgram_eq_ok hm
  intro f hf
  obtain ⟨g, hg, _, _, hcode⟩ := hcodes.exists_code f hf
  have hnodup := hcode.nodup_params ((hp.grammatical.wellTyped h).params_nodup g hg)
  refine ⟨g, hg, by cases hcode; rfl, hcode.params_eq, hnodup,
    hcode.disjoint_params fun q hq => ((hp.grammatical.function hg).params q hq).1,
    fun args temps s s' hlength hbind => ?_⟩
  obtain ⟨ws, htaken, -, hfound⟩ := exists_takenOver hlength hbind
  exact ⟨ws, htaken, fun hhides => hfound (hnodup.mpr hhides)⟩

end Flat

/-- An accepted program with a method whose parameter has the name of the receiver. -/
def Program.hiddenReceiverSource : String :=
  "struct V { x: i32 } fn V.m(self: i32) -> i32 { return self }
  fn main() -> i32 { let v = new V(1) return v.m(7) }"

/-- Both arguments of the method arrive in one temporary. -/
theorem Flat.arguments_kept_apart_hidden : ∃ p next m,
    Program.parse Program.hiddenReceiverSource 0 0 = .ok (p, next) ∧ p.analyze.hasErrors = false ∧
      Flat.Module.ofProgram p p.analyze = .ok m ∧ ∃ f ∈ m.functions, ∃ g ∈ p.functions,
        f.name = g.linkage ∧ f.params.map Prod.snd = [".p.self", ".p.self"] ∧ g.HidesReceiver := by
  obtain ⟨p, next, hparse, h, htest⟩ := Program.exists_of_accepts
    (show Program.accepts Program.hiddenReceiverSource (fun p => decide
      ((Flat.Module.ofProgram p p.analyze).toOption.map (fun m => m.functions[0]?.map fun f =>
        f.params.map Prod.snd) = some (some [".p.self", ".p.self"]))) = true by decide +kernel)
  obtain ⟨m, hm, hparams⟩ := exists_of_toOption_map (of_decide_eq_true htest)
  obtain ⟨f, hf, hnames⟩ := Option.map_eq_some_iff.mp hparams
  obtain ⟨g, hg, hname, -, hnodup, -⟩ :=
    Flat.arguments_kept_apart (.parsed hparse) h hm f (List.mem_of_getElem? hf)
  rw [hnames] at hnodup
  refine ⟨p, next, m, hparse, h, hm, f, List.mem_of_getElem? hf, g, hg, hname, hnames, ?_⟩
  exact not_not.mp fun hhides => absurd (hnodup.mpr hhides) (by decide)

end StructLang
