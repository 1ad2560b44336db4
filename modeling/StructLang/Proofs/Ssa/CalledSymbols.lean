import StructLang.Proofs.CallSites
import StructLang.Proofs.Ssa.Growth

/-!
# Calls in SSA code

The blocks of a function are not in the order in which its body is written. The body alone says in which
block each of its calls is made, and each block of the code calls the symbols of the calls made in it, in
their order.
-/

namespace StructLang.Ssa

def Instr.symbol? : Instr → Option String
  | call _ func .. => some func
  | _ => none

def called (code : List Instr) : List String := code.filterMap Instr.symbol?

def Function.called (f : Function) : List String := f.blocks.flatMap fun b => Ssa.called b.instrs

/-- The symbols that a block calls. -/
def calledIn (blocks : List Block) (k : Nat) : List String :=
  called ((blocks[k]?.map Block.instrs).getD [])

theorem Function.mem_called {f : Function} (h : symbol ∈ calledIn f.blocks k) : symbol ∈ f.called := by
  unfold calledIn at h
  cases hb : f.blocks[k]? with
  | none => simp [hb, Ssa.called] at h
  | some b => exact List.mem_flatMap.mpr ⟨b, List.mem_of_getElem? hb, by simpa [hb] using h⟩

@[simp] theorem called_nil : called [] = [] := rfl

@[simp] theorem called_append (c c' : List Instr) : called (c ++ c') = called c ++ called c' :=
  List.filterMap_append

theorem called_cons_of_none (h : i.symbol? = none) (c : List Instr) : called (i :: c) = called c :=
  List.filterMap_cons_none h

theorem called_allocas (h : ∀ i ∈ code, i.IsAlloca) : called code = [] := by
  refine List.filterMap_eq_nil_iff.mpr fun i hi => ?_
  obtain ⟨r, ty, rfl⟩ := h i hi
  rfl

/-! ## Expressions -/

theorem ToValue.called (h : ToValue s low v code s') : called code = [] := by
  cases h <;> rfl

theorem ToAddress.called (h : ToAddress s low v code s') : called code = [] := by
  cases h <;> rfl

theorem SlotAddress.called (h : SlotAddress s slot v code s') : called code = [] := by
  cases h <;> rfl

theorem CastCode.called (h : CastCode v source target s w code s') : called code = [] := by
  cases h <;> rfl

theorem CallCode.called (h : CallCode callee params args s v code s') :
    called code = [callee.linkage] := by
  cases h <;> rfl

theorem symbol?_unaryInstr (op : UnaryOp) (ty : Ty) (v : Operand) (r : Register) :
    (unaryInstr op ty v r).symbol? = none := by
  cases op with
  | neg => cases h : ty.isFloat <;> simp [unaryInstr, h, Instr.symbol?]
  | not | bitNot => rfl

/-- Code calls the symbols of the given calls. -/
abbrev Calls (env : Env) (code : List Instr) (sites : List CallSite) : Prop :=
  StructLang.Calls Instr.symbol? env.types env.symbols code sites

mutual

theorem ExprCode.calls {s s' : Supply} {code : List Instr} :
    ExprCode env scope e s low code s' → Calls env code e.calls
  | .integer .. | .float .. | .bool .. | .text .. => .none rfl
  | .var _ _ ha => .none ha.called
  | .unary _ he hv _ => he.calls.appendNone (Calls.append (.none hv.called)
      (.cons (symbol?_unaryInstr ..) (.none rfl)))
  | .compare _ _ _ hl hv hr hw _ _ | .arith _ _ _ hl hv hr hw _ _ =>
    hl.calls.append (Calls.append (.none hv.called)
      (hr.calls.appendNone (Calls.append (.none hw.called) (.none rfl))))
  | .cast _ _ he hv hw => he.calls.appendNone (Calls.append (.none hv.called) (.none hw.called))
  | .call _ hts hcallee _ hargs hcall => by
    refine hargs.calls.append ?_
    change Reach _ _ (called _) _
    rw [hcall.called]
    exact .single (CallSite.symbol?_of_callee hts hcallee)
  | .construct _ hargs => hargs.calls.appendNone (.none rfl)
  | .access _ _ _ he ha => he.calls.appendNone (Calls.append (.none ha.called) (.none rfl))

theorem ArgsCode.calls {s s' : Supply} {code : List Instr} :
    ArgsCode env scope receiver es s args code s' → Calls env code (callsOf es)
  | .nil => .none rfl
  | .receiver he ha hes => he.calls.append (Calls.append (.none ha.called) hes.calls)
  | .value he hv _ _ hes => he.calls.append (Calls.append (.none hv.called) hes.calls)

theorem FieldsCode.calls {s s' : Supply} {code : List Instr} :
    FieldsCode env scope struct slot index es s code s' → Calls env code (callsOf es)
  | .nil => .none rfl
  | .cons _ _ he hv hes =>
    he.calls.append (Calls.append (.none hv.called) (.cons rfl (.cons rfl hes.calls)))

end

theorem ValueCode.calls (h : ValueCode env scope e s v code s') : Calls env code e.calls := by
  cases h with
  | mk he hv => exact he.calls.appendNone (.none hv.called)

theorem ParamsCode.called (h : ParamsCode index scope params s scope' code s') :
    called code = [] := by
  induction h with
  | nil => rfl
  | cons _ ih => rw [called_cons_of_none rfl, ih]

/-! ## Places of calls -/

/-- Where code goes: the current block, the number of blocks, and whether the current one has ended. -/
structure Place where
  current : Nat
  count : Nat
  ended : Bool

namespace Place

/-- What follows a return goes to a block of its own. -/
def reopen (p : Place) : Place := if p.ended then ⟨p.count, p.count + 1, false⟩ else p

/-- Calls that are made in the current block. -/
def calls (p : Place) (sites : List CallSite) : List (Nat × CallSite) :=
  sites.map fun c => (p.current, c)

end Place

mutual

/-- The calls of a statement with the numbers of the blocks in which they are made, and where code goes
behind the statement. The arms of a branch go to the next two blocks, and what follows goes to the
third. -/
def placeStmt (p : Place) : Stmt → List (Nat × CallSite) × Place
  | .declare d => (p.calls ((d.init.map Expr.calls).getD []), p)
  | .assign _ _ e | .expr e => (p.calls e.calls, p)
  | .branch _ cond t none =>
    let (first, q) := placeBlock ⟨p.count, p.count + 3, false⟩ t
    (p.calls cond.calls ++ first, ⟨p.count + 2, q.count, false⟩)
  | .branch _ cond t (some e) =>
    let (first, q) := placeBlock ⟨p.count, p.count + 3, false⟩ t
    let (second, q) := placeBlock ⟨p.count + 1, q.count, false⟩ e
    (p.calls cond.calls ++ first ++ second, ⟨p.count + 2, q.count, false⟩)
  | .ret _ e => (p.calls ((e.map Expr.calls).getD []), { p with ended := true })

def placeStmts (p : Place) : List Stmt → List (Nat × CallSite) × Place
  | [] => ([], p)
  | s :: rest =>
    let (first, q) := placeStmt p.reopen s
    let (second, q) := placeStmts q rest
    (first ++ second, q)

def placeBlock (p : Place) : StructLang.Block → List (Nat × CallSite) × Place
  | .mk _ stmts => placeStmts p stmts

end

/-- The calls of a body with the blocks in which they are made. -/
def placedCalls (body : StructLang.Block) : List (Nat × CallSite) := (placeBlock ⟨0, 1, false⟩ body).1

/-- The calls that are made in a block. -/
def madeIn (k : Nat) (placed : List (Nat × CallSite)) : List CallSite :=
  (placed.filter fun c => c.1 == k).map Prod.snd

@[simp] theorem madeIn_append (k : Nat) (xs ys : List (Nat × CallSite)) :
    madeIn k (xs ++ ys) = madeIn k xs ++ madeIn k ys := by
  simp [madeIn]

theorem Place.map_snd_calls (p : Place) (sites : List CallSite) : (p.calls sites).map Prod.snd = sites := by
  simp [Place.calls, Function.comp_def]

theorem madeIn_calls (k : Nat) (p : Place) (sites : List CallSite) :
    madeIn k (p.calls sites) = if p.current = k then sites else [] := by
  simp only [madeIn, Place.calls, List.filter_map, List.map_map, Function.comp_def]
  split <;> simp_all

mutual

theorem map_snd_placeStmt (p : Place) (s : Stmt) : (placeStmt p s).1.map Prod.snd = s.calls := by
  cases s with
  | declare | assign | ret | expr => exact p.map_snd_calls _
  | branch span cond t e =>
    cases e with
    | none =>
      simp only [placeStmt, Stmt.calls, List.map_append, p.map_snd_calls, map_snd_placeBlock _ t]
    | some e =>
      simp only [placeStmt, Stmt.calls, List.map_append, p.map_snd_calls, map_snd_placeBlock _ t,
        map_snd_placeBlock _ e]

theorem map_snd_placeStmts (p : Place) (ss : List Stmt) :
    (placeStmts p ss).1.map Prod.snd = callsOfStmts ss := by
  cases ss with
  | nil => rfl
  | cons s rest =>
    simp only [placeStmts, callsOfStmts, List.map_append, map_snd_placeStmt _ s,
      map_snd_placeStmts _ rest]

/-- Each call of a block has its place, in the order of the calls. -/
theorem map_snd_placeBlock (p : Place) (b : StructLang.Block) :
    (placeBlock p b).1.map Prod.snd = b.calls := by
  cases b with
  | mk n stmts => exact map_snd_placeStmts p stmts

end

theorem exists_mem_madeIn (h : c ∈ b.calls) : ∃ k, c ∈ madeIn k (placedCalls b) := by
  rw [← map_snd_placeBlock ⟨0, 1, false⟩ b] at h
  obtain ⟨⟨k, _⟩, hm, rfl⟩ := List.mem_map.mp h
  exact ⟨k, List.mem_map.mpr ⟨_, List.mem_filter.mpr ⟨hm, beq_self_eq_true k⟩, rfl⟩⟩

/-! ## Drafts -/

namespace Draft

/-- Where code goes next. -/
def place (d : Draft) : Place := ⟨d.current, d.blocks.length, d.isTerminated⟩

/-- The later draft calls in each block what the earlier one calls there, then the symbols of the calls
that are made in the block, and code goes on at the place behind them. -/
structure Follows (env : Env) (d : Draft) (placed : List (Nat × CallSite) × Place) (d' : Draft) : Prop where
  calls : ∀ k, ∃ new, calledIn d'.blocks k = calledIn d.blocks k ++ new ∧
    Reach env.types env.symbols new (madeIn k placed.1)
  place : d'.place = placed.2

variable {d : Draft}

theorem Open.place (h : d.Open) : d.place = ⟨d.current, d.blocks.length, false⟩ := by
  obtain ⟨b, hb, hopen⟩ := h
  simp [Draft.place, isTerminated, hb, hopen]

namespace Follows

theorem of_eq (h : ∀ k, calledIn d'.blocks k = calledIn d.blocks k) : d.Follows env ([], d'.place) d' :=
  ⟨fun k => ⟨[], by rw [h, List.append_nil], .nil⟩, rfl⟩

theorem trans (h : d.Follows env (placed, p) d') (h' : d'.Follows env (placed', p') d'') :
    d.Follows env (placed ++ placed', p') d'' := by
  refine ⟨fun k => ?_, h'.place⟩
  obtain ⟨new, hnew, hreach⟩ := h.calls k
  obtain ⟨new', hnew', hreach'⟩ := h'.calls k
  refine ⟨new ++ new', by rw [hnew', hnew, List.append_assoc], ?_⟩
  rw [madeIn_append]
  exact hreach.append hreach'

theorem transNone (h : d.Follows env (placed, p) d')
    (h' : ∀ k, calledIn d''.blocks k = calledIn d'.blocks k) :
    d.Follows env (placed, d''.place) d'' := by
  simpa using h.trans (.of_eq h')

end Follows

theorem calledIn_addBlock (d : Draft) (label : String) (k : Nat) :
    calledIn (d.addBlock label).blocks k = calledIn d.blocks k := by
  unfold calledIn addBlock
  rcases Nat.lt_trichotomy k d.blocks.length with hk | rfl | hk
  · rw [List.getElem?_append_left hk]
  · simp
  · have hlength : (d.blocks ++ [(⟨d.blocks.length, label, [], none⟩ : Block)]).length ≤ k := by
      rw [List.length_append]
      exact hk
    rw [List.getElem?_eq_none hlength, List.getElem?_eq_none (Nat.le_of_lt hk)]

theorem calledIn_terminate (d : Draft) (t : Terminator) (k : Nat) :
    calledIn (d.terminate t).blocks k = calledIn d.blocks k := by
  unfold calledIn terminate
  rw [List.getElem?_modify]
  split <;> cases d.blocks[k]? <;> rfl

theorem calledIn_terminateIfOpen (d : Draft) (t : Terminator) (k : Nat) :
    calledIn (d.terminateIfOpen t).blocks k = calledIn d.blocks k := by
  unfold terminateIfOpen
  split
  · rfl
  · exact d.calledIn_terminate t k

theorem calledIn_closeArm (d : Draft) (next last k : Nat) :
    calledIn (d.closeArm next last).blocks k = calledIn d.blocks k :=
  d.calledIn_terminateIfOpen (.jump last) k

theorem calledIn_openBranch (d : Draft) (v : Operand) (k : Nat) :
    calledIn (d.openBranch v).blocks k = calledIn d.blocks k := by
  refine (calledIn_terminate _ _ k).trans ?_
  rw [calledIn_addBlock, calledIn_addBlock, calledIn_addBlock]
  rfl

theorem length_closeArm (d : Draft) (next last : Nat) :
    (d.closeArm next last).blocks.length = d.blocks.length := by
  unfold closeArm terminateIfOpen
  split
  · rfl
  · exact List.length_modify ..

theorem Follows.reopen (hlt : d.current < d.blocks.length) :
    d.Follows env ([], d.place.reopen) d.reopen := by
  have hplace : d.reopen.place = d.place.reopen := by
    rw [(grows_reopen hlt).2.place]
    unfold Draft.reopen Place.reopen Draft.place
    split
    · simp [addBlock, bumpLabel, enter]
    · next hopen =>
      rw [Bool.not_eq_true] at hopen
      rw [hopen]
  rw [← hplace]
  refine .of_eq fun k => ?_
  unfold Draft.reopen
  split
  · exact calledIn_addBlock _ _ k
  · rfl

/-- Code in the current block. -/
theorem Follows.extend (ho : d.Open) (s : Supply) (h : Calls env code sites) :
    d.Follows env (d.place.calls sites, d.place) (d.extend s code) := by
  refine ⟨fun k => ?_, ?_⟩
  · rw [madeIn_calls]
    split
    · next hk =>
      subst hk
      obtain ⟨b, hb, -⟩ := ho
      refine ⟨called code, ?_, h⟩
      simp [calledIn, Draft.extend, Draft.place, hb, Block.append]
    · next hk =>
      refine ⟨[], ?_, .nil⟩
      rw [calledIn, Draft.extend, List.getElem?_modify_ne _ _ (show d.current ≠ k from hk), List.append_nil]
      rfl
  · rw [(ho.extend s code).place, ho.place, length_extend]
    rfl

/-- A return in the current block. -/
theorem Follows.terminate (ho : d.Open) (t : Terminator) :
    d.Follows env ([], { d.place with ended := true }) (d.terminate t) := by
  refine ⟨(Follows.of_eq (d.calledIn_terminate t)).calls, ?_⟩
  obtain ⟨b, hb, -⟩ := ho
  simp [Draft.place, Draft.terminate, isTerminated, hb]

end Draft

/-- A condition and the start of the branch on it. -/
theorem ValueCode.follows_test {d : Draft} (h : ValueCode env scope e d.supply v code s) (ho : d.Open) :
    d.Follows env (d.place.calls e.calls, ⟨d.place.count, d.place.count + 3, false⟩)
      ((d.extend s.bump (code ++ [.compare s.nextRegister .ne .i1 v (.int 0 .i1)])).openBranch
        (.register s.nextRegister)) := by
  refine ⟨((Draft.Follows.extend ho s.bump (h.calls.appendNone (.none rfl))).transNone
    (Draft.calledIn_openBranch _ _)).calls, ?_⟩
  rw [((ho.extend _ _).openBranch _).place, Draft.length_openBranch, Draft.length_extend]
  exact congrArg (fun n => Place.mk n _ _) (d.length_extend _ _)

/-! ## Statements -/

mutual

theorem StmtCode.follows (ho : d.Open) :
    StmtCode env scope stmt d scope' d' → d.Follows env.toEnv (placeStmt d.place stmt) d'
  | .declare _ _ hinit hv => by
    rw [placeStmt, hinit]
    exact .extend ho _ (hv.calls.appendNone (.none rfl))
  | .declareZero _ _ hinit => by
    rw [placeStmt, hinit]
    exact .extend ho _ (.none rfl)
  | .assign _ hv ha _ =>
    .extend ho _ (hv.calls.appendNone (Calls.append (.none ha.called) (.none rfl)))
  | @StmtCode.branch _ _ _ _ _ _ _ _ _ d1 hv ht => by
    have hb := hv.branches ho
    have hcond := hv.follows_test ho
    have hthen := ht.follows hb.lt
    rw [hcond.place] at hthen
    have hall := ((hcond.trans hthen).transNone (d1.calledIn_closeArm (d.blocks.length + 1)
      (d.blocks.length + 2))).transNone (Draft.calledIn_closeArm _ (d.blocks.length + 2)
      (d.blocks.length + 2))
    have hgrows := ht.grows hb.lt
    obtain ⟨label, hmerge⟩ := hb.merge hgrows (.refl (hb.open_else hgrows _).lt) (d.blocks.length + 2)
    refine ⟨hall.calls, ?_⟩
    rw [Draft.Open.place ⟨_, hmerge, rfl⟩, Draft.length_closeArm, Draft.length_closeArm]
    exact congrArg (fun n => Place.mk _ n _) (congrArg Place.count hthen.place)
  | @StmtCode.branchElse _ _ _ _ _ _ _ _ _ _ d1 d2 hv ht he => by
    have hb := hv.branches ho
    have hcond := hv.follows_test ho
    have hthen := ht.follows hb.lt
    rw [hcond.place] at hthen
    have hgrows := ht.grows hb.lt
    have hopen := hb.open_else hgrows (d.blocks.length + 2)
    have helse := he.follows hopen.lt
    rw [hopen.place, Draft.length_closeArm, show d1.blocks.length = _ from congrArg Place.count hthen.place]
      at helse
    have hall := (((hcond.trans hthen).transNone (d1.calledIn_closeArm (d.blocks.length + 1)
      (d.blocks.length + 2))).trans helse).transNone (d2.calledIn_closeArm (d.blocks.length + 2)
      (d.blocks.length + 2))
    obtain ⟨label, hmerge⟩ := hb.merge hgrows (he.grows hopen.lt) (d.blocks.length + 2)
    refine ⟨hall.calls, ?_⟩
    rw [Draft.Open.place ⟨_, hmerge, rfl⟩, Draft.length_closeArm]
    exact congrArg (fun n => Place.mk _ n _) (congrArg Place.count helse.place)
  | .retNone => .terminate ho _
  | @StmtCode.ret _ _ _ _ _ _ t v c s _ _ hv => by
    have hvalue := Draft.Follows.extend ho s hv.calls
    have hret : Draft.Follows env.toEnv .. := .terminate (ho.extend s c) (.ret (some (t, v)))
    rw [hvalue.place] at hret
    simpa [placeStmt] using hvalue.trans hret
  | .expr hv => .extend ho _ hv.calls

theorem StmtsCode.follows (hlt : d.current < d.blocks.length) :
    StmtsCode env scope stmts d d' → d.Follows env.toEnv (placeStmts d.place stmts) d'
  | .nil => .of_eq fun _ => rfl
  | .cons hs hrest => by
    obtain ⟨-, ho⟩ := Draft.grows_reopen hlt
    have hstmt := hs.follows ho
    have hrest := hrest.follows (hs.grows ho).lt
    have hopen : Draft.Follows env.toEnv .. := .reopen hlt
    rw [hopen.place] at hstmt
    rw [hstmt.place] at hrest
    exact (hopen.trans hstmt).trans hrest

theorem BlockCode.follows (hlt : d.current < d.blocks.length) :
    BlockCode env scope b d d' → d.Follows env.toEnv (placeBlock d.place b) d'
  | .mk h => h.follows hlt

end

/-! ## Functions -/

/-- The slots, which stand at the start of the entry block, are no calls. -/
theorem calledIn_withSlots (h : called slots = []) (blocks : List Block) (k : Nat) :
    calledIn (withSlots slots blocks) k = calledIn blocks k := by
  cases blocks with
  | nil => rfl
  | cons entry rest =>
    cases k with
    | zero => simp [calledIn, withSlots, h]
    | succ k => rfl

/-- Each block of a function calls the symbols of the calls of the body that are made in it. -/
theorem FunctionCode.called (h : FunctionCode env strings g lowered strings') (k : Nat) :
    Reach env.types env.symbols (calledIn lowered.blocks k) (madeIn k (placedCalls g.body)) := by
  cases h with
  | @mk params ret d hparams hret hbody =>
    cases hbody with
    | @mk scope c s1 declared s2 d1 hp hh hb =>
      have ho : (Draft.start strings).Open := ⟨_, rfl, rfl⟩
      have hopen := ho.extend s2 c
      have hstart : Draft.Follows env .. := .extend ho s2 (.none hp.called)
      have hbody := hb.follows hopen.lt
      rw [hstart.place] at hbody
      obtain ⟨new, hnew, hreach⟩ := ((hstart.trans hbody).transNone
        (d1.calledIn_terminateIfOpen (if ret = .void then .ret none else .unreachable))).calls k
      have hdraws : Draws (Draft.start strings).supply c s2 := by
        simpa using hp.draws.append hh.draws
      have hgrows := ((ho.grows_extend hdraws).trans (hb.grows hopen.lt)).trans
        (Draft.grows_terminateIfOpen (hb.grows hopen.lt).lt
          (if ret = .void then .ret none else .unreachable))
      obtain ⟨slots, hslots, -, halloca⟩ := hgrows.supply.slots
      have hempty : calledIn (Draft.start strings).blocks k = [] := by cases k <;> rfl
      rw [calledIn_withSlots (by rw [show Draft.slots _ = _ from hslots]; exact called_allocas halloca),
        hnew, hempty]
      exact hreach

end StructLang.Ssa
