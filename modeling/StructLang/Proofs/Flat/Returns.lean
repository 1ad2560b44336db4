import StructLang.Proofs.Flat.ForwardFlow
import StructLang.Proofs.Paths

/-!
# Ways to the end of a flat function

Jumps go forward, so one reading of the code from front to back tells where control can get: at a label
all jumps to it were read. The code of a function with a result ends in a halt when nothing else ends it,
and control gets there only if some path through the body does not return.
-/

namespace StructLang.Flat

/-- What is known at the end of code: whether control gets there, to which labels it can have jumped, and
whether it can have got to a halt. -/
structure Flow where
  on : Bool
  jumps : List String
  halts : Bool

def Flow.step (c : Flow) : Instr → Flow
  | .label l => { c with on := c.on || c.jumps.contains l }
  | .halt => ⟨false, c.jumps, c.halts || c.on⟩
  | i => ⟨c.on && !i.isJump, if c.on then i.targets ++ c.jumps else c.jumps, c.halts⟩

/-- What is known at the end of code that control enters at its start. -/
def flow (code : List Instr) : Flow := code.foldl Flow.step ⟨true, [], false⟩

def Flow.front (c : Flow) (labels : Nat) : Front := ⟨labels, c.on = true, fun n => s!".L{n}" ∈ c.jumps⟩

theorem flow_concat (code : List Instr) (i : Instr) : flow (code ++ [i]) = (flow code).step i :=
  List.foldl_concat ..

variable {code : List Instr}

theorem Flow.step_straight (c : Flow) (h : i.IsStraight) : c.step i = c := by
  obtain ⟨hlabel, hjump⟩ := h
  cases i with
  | label => cases hlabel
  | jump | jumpIf | ret | halt => cases hjump
  | _ => simp [step, Instr.isJump, Instr.targets]

theorem Flow.foldl_straight (c : Flow) (h : Straight code) :
    code.foldl step c = c := by
  induction code with
  | nil => rfl
  | cons i rest ih =>
    obtain ⟨hi, hrest⟩ := List.forall_mem_cons.mp h
    rw [List.foldl_cons, c.step_straight hi, ih hrest]

/-! ## Drafts -/

namespace Draft

variable {d : Draft}

def flow (d : Draft) : Flow := Flat.flow d.body

theorem flow_emit (i : Instr) : (d.emit i).flow = d.flow.step i := flow_concat ..

theorem flow_bumpLabel (k : Nat) : (d.bumpLabel k).flow = d.flow := rfl

def front (d : Draft) : Front := d.flow.front d.nextLabel

theorem label_notMem (h : d.front.Bounded) (k : Nat) : d.label k ∉ d.flow.jumps :=
  fun hl => Nat.not_lt_of_le (Nat.le_add_right _ k) (h (d.nextLabel + k) hl)

/-- More code leads on from the labels that control gets to, and to no halt. -/
structure GoesOn (returns : Bool) (d d' : Draft) : Prop where
  front : d.front.GoesOn returns d'.front
  halts : d'.flow.halts = d.flow.halts

theorem GoesOn.refl : d.GoesOn false d := ⟨.refl, rfl⟩

theorem GoesOn.trans (h : d.GoesOn returns d') (h' : d'.GoesOn returns' d'') :
    d.GoesOn (returns || returns') d'' :=
  ⟨h.front.trans h'.front, h'.halts.trans h.halts⟩

theorem goesOn_extend (h : Draws d.supply code s) : d.GoesOn false (d.extend s code) := by
  have hflow : (d.extend s code).flow = d.flow :=
    (List.foldl_append ..).trans (d.flow.foldl_straight h.straight)
  have hfront : (d.extend s code).front = d.front := by
    rw [front, front, hflow]
    rfl
  exact ⟨hfront ▸ .refl, by rw [hflow]⟩

theorem goesOn_ret (v : Option Operand) : d.GoesOn true (d.emit (.ret v)) := by
  have hflow : (d.emit (.ret v)).flow = ⟨false, d.flow.jumps, d.flow.halts⟩ := by
    simp [flow_emit, Flow.step, Instr.isJump, Instr.targets]
  refine ⟨?_, by rw [hflow]⟩
  rw [front, front, hflow]
  exact ⟨Nat.le_refl _, id, fun _ _ => id, fun hon => absurd hon Bool.false_ne_true⟩

theorem goesOn_reopen (h : d.front.Bounded) : d.GoesOn false d.reopen := by
  unfold Draft.reopen
  split
  · have hflow : ((d.bumpLabel 1).emit (.label (d.label 0))).flow = d.flow := by
      simp [flow_emit, flow_bumpLabel, Flow.step, label_notMem h 0]
    refine ⟨?_, by rw [hflow]⟩
    rw [front, front, hflow]
    exact ⟨Nat.le_succ _, fun hb n hn => Nat.lt_succ_of_lt (hb n hn), fun _ _ => id, fun hon => ⟨hon, rfl⟩⟩
  · exact .refl

theorem flow_openBranch (h : d.front.Bounded) (v : Operand) :
    (d.openBranch v).flow = ⟨d.flow.on, if d.flow.on then d.label 0 :: d.label 1 :: d.flow.jumps
      else d.flow.jumps, d.flow.halts⟩ := by
  unfold Draft.openBranch
  rw [flow_emit, flow_emit, flow_bumpLabel]
  cases hon : d.flow.on <;> simp [Flow.step, hon, Instr.isJump, Instr.targets, label_notMem h 0]

theorem opens_openBranch (h : d.front.Bounded) (v : Operand) :
    d.front.Opens (d.openBranch v).front := by
  rw [front, front, flow_openBranch h]
  refine ⟨rfl, fun n (hn : _ ∈ ite _ _ _) => ?_, id⟩
  split at hn
  · next hon =>
    simp only [List.mem_cons] at hn
    rcases hn with hn | hn | hn
    · exact .inr ⟨hon, .inl (append_number_inj hn)⟩
    · exact .inr ⟨hon, .inr (append_number_inj hn)⟩
    · exact .inl hn
  · exact .inl hn

theorem on_of_isTerminated (h : d.isTerminated = true) : d.flow.on = false := by
  unfold Draft.isTerminated at h
  rcases List.eq_nil_or_concat' d.body with hbody | ⟨init, i, hbody⟩
  · simp [hbody] at h
  · have hjump : i.isJump = true := by simpa [hbody] using h
    rw [flow, hbody, flow_concat]
    cases i with
    | jump | jumpIf | ret | halt => simp [Flow.step, Instr.isJump]
    | _ => cases hjump

theorem flow_closeArm (next last : String) : (d.closeArm next last).flow =
    (⟨false, if d.flow.on then last :: d.flow.jumps else d.flow.jumps, d.flow.halts⟩ : Flow).step
      (.label next) := by
  unfold Draft.closeArm Draft.emitIfOpen
  rw [flow_emit]
  split
  · next hjump =>
    have hon := on_of_isTerminated hjump
    simp [Flow.step, hon]
  · rw [flow_emit]
    cases hon : d.flow.on <;> simp [Flow.step, hon, Instr.isJump, Instr.targets]

theorem closes_closeArm (next last : Nat) :
    d.front.Closes next last (d.closeArm s!".L{next}" s!".L{last}").front := by
  have hlabels : (d.closeArm s!".L{next}" s!".L{last}").nextLabel = d.nextLabel := by
    unfold Draft.closeArm Draft.emitIfOpen
    split <;> rfl
  rw [front, front, flow_closeArm, hlabels]
  refine ⟨rfl, fun n (hn : _ ∈ ite _ _ _) => ?_, fun hon => by simpa [Flow.front, Flow.step] using hon⟩
  split at hn
  · next hon => exact (List.mem_cons.mp hn).symm.imp_right fun hn => ⟨append_number_inj hn, hon⟩
  · exact .inl hn

theorem goesOn_branch (h : d.front.Bounded) (ht : (d.openBranch v).GoesOn returns d1)
    (he : (d1.closeArm (d.label 1) (d.label 2)).GoesOn returns' d2) :
    d.GoesOn (returns && returns') (d2.closeArm (d.label 2) (d.label 2)) := by
  refine ⟨Front.goesOn_branch h (opens_openBranch h v) ht.front (closes_closeArm _ _) he.front
    (closes_closeArm _ _), ?_⟩
  rw [flow_closeArm, Flow.step, he.halts, flow_closeArm, Flow.step, ht.halts, flow_openBranch h]

end Draft

section

open Draft

mutual

theorem StmtCode.goesOn (hd : d.front.Bounded) :
    StmtCode env scope stmt d scope' d' → d.GoesOn stmt.returns d'
  | .declare _ ha _ hv hs => goesOn_extend (ha.draws.append (hv.draws.append hs.draws))
  | .declareZero _ ha _ hz => goesOn_extend (ha.draws.append hz.draws)
  | .assign _ hv ha hs => goesOn_extend (hv.draws.append (ha.draws.append hs.draws))
  | .branch hv ht => by
    have hcond := goesOn_extend hv.draws
    have hstart := hcond.front.bounded hd
    have harm := ht.goesOn ((opens_openBranch hstart _).bounded hstart)
    have hbranch := goesOn_branch hstart harm .refl
    rw [Bool.and_false] at hbranch
    exact hcond.trans hbranch
  | @StmtCode.branchElse _ _ _ _ _ _ _ v _ _ _ _ hv ht he => by
    have hcond := goesOn_extend hv.draws
    have hstart := hcond.front.bounded hd
    have hopens := (opens_openBranch hstart v).bounded hstart
    have harm := ht.goesOn hopens
    have harm' := he.goesOn ((closes_closeArm (d.nextLabel + 1) (d.nextLabel + 2)).bounded
      harm.front.places (harm.front.bounded hopens))
    exact hcond.trans (goesOn_branch hstart harm harm')
  | .retNone => goesOn_ret _
  | .ret hv => (goesOn_extend hv.draws).trans (goesOn_ret _)
  | .expr hv => goesOn_extend hv.draws

theorem StmtsCode.goesOn (hd : d.front.Bounded) :
    StmtsCode env scope stmts d d' → d.GoesOn (stmtsReturn stmts) d'
  | .nil => .refl
  | .cons hs hrest => by
    have hopen := goesOn_reopen hd
    have hstmt := hs.goesOn (hopen.front.bounded hd)
    exact hopen.trans (hstmt.trans (hrest.goesOn (hstmt.front.bounded (hopen.front.bounded hd))))

theorem BlockCode.goesOn (hd : d.front.Bounded) : BlockCode env scope b d d' → d.GoesOn b.returns d'
  | .mk h => h.goesOn hd

end

end

/-- Control gets to a halt of a lowered function only if the function has a result and some path through
its body does not return. -/
theorem FunctionCode.halts (h : FunctionCode env d g f d') (hhalts : (flow f.body).halts = true) :
    g.ret ≠ .void ∧ g.body.returns = false := by
  obtain ⟨hsound, -, hbody⟩ := h.sound_lax
  have hslots : Straight d'.slots := fun i hi => (hsound.slots i hi).isStraight
  have hflow : flow f.body = d'.flow := by
    rw [hbody, flow, List.foldl_append, List.foldl_cons, Flow.foldl_straight _ hslots]
    rfl
  rw [hflow] at hhalts
  obtain ⟨⟨hr, hp, hb⟩, -⟩ := h
  have hcode := Draft.goesOn_extend (hr.draws.append hp.draws)
  have hon := hcode.trans (hb.goesOn (hcode.front.bounded nofun))
  have hbefore : _ = false := hon.halts
  unfold Draft.emitIfOpen at hhalts
  split at hhalts
  · exact absurd hhalts (by simp [hbefore])
  · rw [Draft.flow_emit] at hhalts
    by_cases hvoid : g.ret = .void
    · exact absurd hhalts (by simp [hvoid, Flow.step, hbefore])
    · refine ⟨hvoid, (hon.front.on ?_).2⟩
      simpa [hvoid, Flow.step, hbefore, Draft.front, Flow.front] using hhalts

/-! ## Runs -/

theorem flow_take_succ (h : code[n]? = some i) :
    flow (code.take (n + 1)) = (flow (code.take n)).step i := by
  rw [List.take_add_one, h]
  exact flow_concat ..

theorem Flow.le_step (c : Flow) (i : Instr) :
    c.jumps ⊆ (c.step i).jumps ∧ (c.halts = true → (c.step i).halts = true) := by
  cases i with
  | jump | jumpIf => cases hon : c.on <;> simp [step, hon, Instr.targets, List.subset_def]; tauto
  | _ => simp +contextual [step, Instr.targets]

theorem flow_le (h : n ≤ n') : (flow (code.take n)).jumps ⊆ (flow (code.take n')).jumps ∧
      ((flow (code.take n)).halts = true → (flow (code.take n')).halts = true) := by
  induction h with
  | refl => exact ⟨List.Subset.refl _, id⟩
  | @step n' _ ih =>
    cases hi : code[n']? with
    | none =>
      rw [List.take_add_one, hi, Option.toList_none, List.append_nil]
      exact ih
    | some i =>
      have hstep := (flow (code.take n')).le_step i
      rw [flow_take_succ hi]
      exact ⟨List.Subset.trans ih.1 hstep.1, hstep.2 ∘ ih.2⟩

def Arrives (code : List Instr) (n : Nat) : Prop :=
  (flow (code.take n)).on = true ∨ ∃ l, code[n]? = some (.label l) ∧ l ∈ (flow (code.take n)).jumps

/-- Control gets to the jump that ends a stretch. -/
theorem Arrives.on (h : Arrives code n) (hstretch : stretch (code.drop n) = k + 1)
    (hi : code[n + k]? = some i) (hjump : i.isJump = true) :
    (flow (code.take (n + k))).on = true := by
  induction k generalizing n with
  | zero =>
    rcases h with hon | ⟨l, hl, -⟩
    · exact hon
    · cases hi.symm.trans hl
      cases hjump
  | succ k ih =>
    have hlt : n < code.length := by
      have := (List.getElem?_eq_some_iff.mp hi).1
      omega
    rw [List.drop_eq_getElem_cons hlt, stretch] at hstretch
    split at hstretch
    · omega
    · next hj =>
      have hn : code[n]? = some code[n] := List.getElem?_eq_getElem hlt
      rw [← Nat.add_assoc, Nat.add_right_comm] at hi ⊢
      refine ih (.inl ?_) (Nat.succ.inj hstretch) hi
      rw [flow_take_succ hn]
      rcases h with hon | ⟨l, hl, hjumps⟩
      · cases hc : code[n] with
        | jump | jumpIf | ret | halt => simp [hc, Instr.isJump] at hj
        | _ => simp [Flow.step, hon, Instr.isJump]
      · rw [Option.some.inj (hn.symm.trans hl)]
        simp [Flow.step, hjumps]

open Execution

/-- A run gets to a halt only in a function with a result in which some path does not return. -/
theorem missesReturn_of_execute (h : Module.ofProgram p analysis = .ok m)
    (hrun : m.execute budget = .error (.fault (.halted g)) s) : p.MissesReturn g := by
  have hplain : ∀ e : Fault, e.isPlain = true →
      ∀ g, Stop.fault e = .fault (.halted g) → p.MissesReturn g := by
    rintro e he g ⟨⟩
    cases he
  obtain ⟨d, hcodes, -⟩ := ofProgram_eq_ok h
  refine stops_callAt (P := fun e => ∀ g, e = .fault (.halted g) → p.MissesReturn g) hplain
    (fun f hf call hcall temps => ?_) maxDepth entryPoint [] _ _ s hrun g rfl
  obtain ⟨g, hg, _, _, hcode⟩ := hcodes.exists_code f hf
  have hname : f.name = g.linkage := by
    cases hcode
    rfl
  refine stops_runFrom (I := fun _ n => Arrives f.body n) hplain hcall (by simp) ?_ ?_ (n := 0) (.inl rfl)
  · intro _ n k i l next hn hi hstretch hl hlabel
    have hlt := hcode.jumpsForward.lt hi hl hlabel
    refine .inr ⟨l, hlabel, (flow_le (Nat.succ_le_of_lt hlt)).1 ?_⟩
    rw [flow_take_succ hi]
    cases i with
    | jump | jumpIf =>
      have hon := hn.on hstretch hi rfl
      simp only [Flow.step, hon, if_true]
      exact List.mem_append_left _ hl
    | _ => cases hl
  · rintro _ n k hn hi hstretch _ ⟨⟩
    have hon := hn.on hstretch hi rfl
    have hhalts : (flow (f.body.take (n + k + 1))).halts = true := by
      rw [flow_take_succ hi]
      simp [Flow.step, hon]
    have hlt := (List.getElem?_eq_some_iff.mp hi).1
    have hhalts := (flow_le (Nat.succ_le_of_lt hlt)).2 hhalts
    rw [List.take_length] at hhalts
    exact ⟨g, hg, hname.symm, hcode.halts hhalts⟩

end StructLang.Flat
