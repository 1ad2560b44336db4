import StructLang.Proofs.Flat.Functions
import StructLang.Proofs.Linkage

/-!
# Calls in lowered programs

A module that a program without floats and foreign functions is lowered to: its structs have the sizes
that lowering counted with, its functions are the ones that symbols mean, and calling a function does what
the program means, however deep calls may nest.
-/

namespace StructLang

/-! ## Layouts -/

namespace Layouts

theorem order_measureFields {inner : String → Layouts → Extent × Layouts}
    (hinner : ∀ name l, (inner name l).2.order = l.order) (fields : List TypedName) (l : Layouts) :
    (measureFields inner fields l).2.order = l.order := by
  induction fields generalizing l with
  | nil => rfl
  | cons f rest ih =>
    cases hty : f.ty with
    | struct name =>
      simp only [measureFields, hty]
      rw [ih, hinner]
    | _ =>
      simp only [measureFields, hty]
      exact ih l

theorem order_measure (defs : List StructDef) (depth : Nat) (visiting : List String) (d : StructDef)
    (l : Layouts) : (measure defs depth visiting d l).2.order = l.order := by
  induction depth generalizing visiting d l with
  | zero =>
    unfold measure
    split
    · rfl
    · split <;> rfl
  | succ depth ih =>
    unfold measure
    split
    · rfl
    · split
      · rfl
      · refine order_measureFields (fun name l => ?_) d.fields l
        split
        · exact ih _ _ _
        · rfl

end Layouts

theorem Program.order_layouts (p : Program) : p.layouts.order = p.structs.map StructDef.name := by
  suffices h : ∀ (ds : List StructDef) (l : Layouts),
      (ds.foldl (fun l d => (Layouts.measure p.structs p.structs.length [] d l).2) l).order = l.order from
    h p.structs _
  intro ds
  induction ds with
  | nil => exact fun _ => rfl
  | cons d ds ih => exact fun l => (ih _).trans (Layouts.order_measure ..)

namespace Flat

/-- The module knows the sizes of the structs. -/
theorem sizes_of_ofProgram (hw : p.WellTyped) (h : Module.ofProgram p p.analyze = .ok m) :
    m.Sizes p.symbols p.layouts := by
  intro name d hd
  have hget := hw.layout hd
  have hnamed : ∀ {n sl}, p.layouts.get? n = some sl → sl.name = n :=
    fun hsl => by simpa using List.find?_some hsl
  have horder : name ∈ p.layouts.order := by
    rw [p.order_layouts]
    obtain ⟨hds, rfl⟩ := Symbols.struct?_eq_some hd
    exact List.mem_map_of_mem hds
  obtain ⟨-, -, -, htypes⟩ := ofProgram_eq_ok h
  cases htype : m.type? name with
  | none =>
    rw [Module.type?, htypes, List.find?_eq_none] at htype
    have hmem : p.layouts.packed d ∈ p.layouts.toList :=
      List.mem_filterMap.mpr ⟨name, horder, hget⟩
    exact absurd (beq_iff_eq.mpr (hnamed hget)) (htype _ (List.mem_map_of_mem hmem))
  | some t =>
    refine ⟨t, rfl, ?_⟩
    have hname : t.name = name := by simpa using List.find?_some htype
    have hmem := List.mem_of_find?_eq_some htype
    rw [htypes] at hmem
    obtain ⟨sl, hsl, rfl⟩ := List.mem_map.mp hmem
    obtain ⟨n, -, hn⟩ := List.mem_filterMap.mp hsl
    have hn' : n = name := (hnamed hn).symm.trans hname
    rw [hn'] at hn
    simp only [Layouts.sizeOf, Ty.structName?, Option.bind_some, hn]

/-! ## Functions -/

theorem FunctionCode.keeps_data (h : FunctionCode env d g F d') : d.data <+: d'.data := by
  cases h with
  | mk hb =>
    cases hb with
    | mk hr hp hb =>
      have hstart : Draft.Grows { d with slots := [], body := [] } _ :=
        .extend (hr.draws.append hp.draws)
      exact ((hstart.trans hb.grows).trans (.emitIfOpen _)).data

theorem FunctionsCode.keeps_data (h : FunctionsCode env d fns fs d') : d.data <+: d'.data := by
  induction h with
  | nil => exact List.prefix_rfl
  | cons hf _ ih => exact hf.keeps_data.trans ih

theorem FunctionsCode.function? (h : FunctionsCode env d fns fs d')
    (hg : (fns.find? fun g => g.linkage == name) = some g) :
    ∃ F before D, (fs.find? fun F => F.name == name) = some F ∧ FunctionCode env before g F D ∧
      D.data <+: d'.data := by
  induction h with
  | nil => cases hg
  | @cons d g' rest F' d1 gs d2 hf hrest ih =>
    have hname : F'.name = g'.linkage := by
      cases hf
      rfl
    rw [List.find?_cons] at hg ⊢
    rw [hname]
    cases heq : g'.linkage == name with
    | true =>
      rw [heq] at hg
      cases hg
      exact ⟨F', d, d1, rfl, hf, hrest.keeps_data⟩
    | false =>
      rw [heq] at hg
      exact ih hg

/-! ## Calls -/

theorem retains_callForeign (name : String) (args : List Value) :
    bridge.Retains (callForeign name args) := by
  refine retains_get.bind fun s => (retains_orFault _).bind fun text => ?_
  exact fun _ h => h

theorem retains_callAt (budget depth : Nat) (name : String) (args : List Value) :
    bridge.Retains (callAt m budget depth name args) := by
  induction depth generalizing name args with
  | zero =>
    rw [callAt]
    cases m.function? name with
    | none => exact retains_callForeign name args
    | some F => exact .throw _
  | succ depth ih =>
    rw [callAt]
    cases m.function? name with
    | none => exact retains_callForeign name args
    | some F =>
      dsimp only
      split
      · exact .throw _
      · exact (retains_bindParams _ _ _).bind fun _ => retains_runFrom ih _ _ _

theorem Passed.length_eq {receiver : Bool}
    (h : Passed s l stack P receiver ts vs ws) : ws.length = ts.length := by
  induction h with
  | nil => rfl
  | receiver _ _ ih | value _ _ ih => rw [List.length_cons, List.length_cons, ih]

theorem FunctionCode.length_params (h : FunctionCode env before g F D) :
    F.params.length = g.signature.length := by
  cases h with
  | mk hb =>
    cases hb with
    | mk hr hp _ =>
      have hreceiver : ∀ {env scope s receiver inner params code s'},
          ReceiverCode env scope s receiver inner params code s' →
            params.length = receiver.toList.length := by
        intro env scope s receiver inner params code s' hr
        cases hr <;> rfl
      rw [FnHeader.signature, List.length_append, List.length_append, List.length_map, hreceiver hr,
        hp.classes.length_eq]

theorem premises_of_ofProgram (hw : p.WellTyped) (hf : p.foreigns = []) (hfree : p.FloatFree)
    (hfit : p.SizesFit) (h : Module.ofProgram p p.analyze = .ok m) :
    Premises p.findings p.layouts m := by
  have hl : Measured p.symbols p.layouts := ⟨fun _ _ hd => hw.layout hd, hfit⟩
  exact ⟨hw.symbols, hf, hl, hw.packed_layouts, sizes_of_ofProgram hw h,
    fun ty hd hv hfloat => clearsTo_zero hl hw.grounded hw.symbols hfree.fields hd hv hfloat⟩

/-- Calls do what the program means, however deep they may nest. -/
theorem callAt_follows (hgram : p.Grammatical) (hw : p.WellTyped) (hf : p.foreigns = [])
    (hfree : p.FloatFree) (hfit : p.SizesFit) (hm : Module.ofProgram p p.analyze = .ok m)
    (hbudget : ∀ g ∈ p.functions, g.body.jumps < budget) (depth : Nat) :
    CallsFollow p.symbols p.layouts (Meaning.callAt p depth) (callAt m budget depth) := by
  have hpre := premises_of_ofProgram hw hf hfree hfit hm
  obtain ⟨d, hcode, hdata, -⟩ := ofProgram_eq_ok hm
  induction depth with
  | zero =>
    intro h hh vs ws mach hpassed
    obtain ⟨g, hg, rfl⟩ := List.mem_map.mp hh
    obtain ⟨F, _, _, hF, -⟩ := hcode.function? (hw.find?_linkage hg)
    have hmeaning : Meaning.callAt p 0 g.linkage vs = .error .callDepth := by
      rw [Meaning.callAt, hw.find?_linkage hg]
    have hcall : callAt m budget 0 g.linkage ws = fault .callDepth := by
      rw [callAt, Module.function?, hF]
    rw [hmeaning, hcall]
    exact .error rfl .callDepth
  | succ depth ih =>
    intro h hh vs ws mach hpassed
    obtain ⟨g, hg, rfl⟩ := List.mem_map.mp hh
    obtain ⟨F, before, D, hF, hcode, hD⟩ := hcode.function? (hw.find?_linkage hg)
    have hmeaning : Meaning.callAt p (depth + 1) g.linkage vs =
        Meaning.invoke p.findings (Meaning.callAt p depth) g vs := by
      rw [Meaning.callAt, hw.find?_linkage hg]
    have hlength : ws.length = F.params.length := hpassed.length_eq.trans hcode.length_params.symm
    have hcall : callAt m budget (depth + 1) g.linkage ws = bindParams m [] F.params ws >>=
        fun temps => runFrom m (callAt m budget depth) F budget temps F.body := by
      rw [callAt, Module.function?, hF]
      exact if_neg (fun hne => hne hlength)
    rw [hmeaning, hcall]
    have hsuited : Suited p.findings g :=
      ⟨hh, fun q hq => ((hgram.function hg).params q hq).1, hw.params_nodup g hg, hfree.bodies g hg,
        hw.bodies g hg⟩
    exact FunctionCode.follows hpre hsuited hcode (hdata ▸ hD) ih (retains_callAt budget depth) hpassed
      (hbudget g hg)

end Flat

end StructLang
