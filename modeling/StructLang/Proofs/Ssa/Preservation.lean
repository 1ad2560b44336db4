import StructLang.Proofs.Ssa.Effects
import StructLang.Proofs.Ssa.Moments
import StructLang.Proofs.Ssa.ValueTypes

/-!
# Every turn keeps the types

While the code of a typed program runs, each register holds a value of the type that its instruction
gives, and each memory cell a value of the type for which it was made. Addresses lead to places of the
types that their kinds promise, which is kept since memory cells never change their types.
-/

namespace StructLang.Ssa

open Execution (Ensures)

/-- What a memory cell is for. -/
inductive Cell where
  | value (ty : Ty)
  /-- The cell holds the address of a receiver of a type. -/
  | holder (ty : Ty)

def Cell.ty : Cell → Ty
  | value ty => ty
  | holder _ => .ptr

/-- If the value is an address, it leads to a place for values of a type. -/
structure Points (m : Module) (cells : List Cell) (ty : Ty) (v : Value) : Prop where
  hasTy : HasTy m .ptr v
  place : ∀ a, v = .ptr a → ∃ i whole, a.base = .slot i ∧ cells[i]? = some (.value whole) ∧
    PathTo m whole a.path ty

def Promise (m : Module) (cells : List Cell) : Kind → Value → Prop
  | .value ty, v => HasTy m ty v
  | .place _ ty, v => Points m cells ty v
  | .holder ty, v => HasTy m .ptr v ∧
    ∀ a, v = .ptr a → ∃ i, a = ⟨.slot i, []⟩ ∧ cells[i]? = some (.holder ty)

def Cell.Admits (m : Module) (cells : List Cell) : Cell → Value → Prop
  | .value ty, v => HasTy m ty v
  | .holder ty, v => Points m cells ty v

/-- Every memory cell holds what it is for. -/
structure Machine.Stores (m : Module) (cells : List Cell) (s : Machine) : Prop where
  size : s.memory.size = cells.length
  admits : ∀ (i : Nat) (cell : Cell) (v : Value), cells[i]? = some cell → s.memory[i]? = some v →
    cell.Admits m cells v

def Param.Takes (m : Module) (cells : List Cell) (p : Param) (v : Value) : Prop :=
  if p.byReference then ∀ ty, Ty.ofSource p.source = .ok ty → Points m cells ty v
  else HasTy m p.ty v

/-- Arguments for parameters. The entry point is called without arguments. -/
inductive ArgsFit (m : Module) (cells : List Cell) : List Param → List Value → Prop where
  | missing {ps : List Param} : ArgsFit m cells ps []
  | cons {p : Param} {v : Value} {ps : List Param} {vs : List Value} (h : p.Takes m cells v)
      (hs : ArgsFit m cells ps vs) : ArgsFit m cells (p :: ps) (v :: vs)

section

variable {i : Nat} {cell : Cell}

theorem getElem?_append_cell (h : cells[i]? = some cell) (new : List Cell) :
    (cells ++ new)[i]? = some cell := by
  rw [List.getElem?_append_left (List.getElem?_eq_some_iff.mp h).1]
  exact h

theorem Points.grow (h : Points m cells ty v) (new : List Cell) : Points m (cells ++ new) ty v := by
  refine ⟨h.hasTy, fun a ha => ?_⟩
  obtain ⟨i, whole, hbase, hi, hpath⟩ := h.place a ha
  exact ⟨i, whole, hbase, getElem?_append_cell hi new, hpath⟩

theorem Promise.grow (h : Promise m cells k v) (new : List Cell) :
    Promise m (cells ++ new) k v := by
  cases k with
  | value => exact h
  | place => exact Points.grow h new
  | holder ty =>
    refine ⟨h.1, fun a ha => ?_⟩
    obtain ⟨i, hbase, hi⟩ := h.2 a ha
    exact ⟨i, hbase, getElem?_append_cell hi new⟩

theorem Cell.Admits.grow (h : cell.Admits m cells v) (new : List Cell) :
    cell.Admits m (cells ++ new) v := by
  cases cell with
  | value => exact h
  | holder => exact Points.grow h new

theorem ArgsFit.grow (h : ArgsFit m cells ps vs) (new : List Cell) :
    ArgsFit m (cells ++ new) ps vs := by
  induction h with
  | missing => exact .missing
  | @cons p v ps vs h _ ih =>
    refine .cons ?_ ih
    unfold Param.Takes at h ⊢
    split at h
    · next href =>
      rw [if_pos href]
      exact fun ty hty => (h ty hty).grow new
    · next href =>
      rw [if_neg href]
      exact h

theorem ArgsFit.getElem? (h : ArgsFit m cells ps vs) (hp : ps[i]? = some p) (hv : vs[i]? = some v) :
    p.Takes m cells v := by
  induction h generalizing i with
  | missing => cases hv
  | cons h _ ih =>
    cases i with
    | zero =>
      cases hp
      cases hv
      exact h
    | succ i => exact ih hp hv

theorem Machine.Stores.put {s : Machine} (h : s.Stores m cells) (hi : cells[i]? = some cell)
    (hw : cell.Admits m cells w) : (s.put i w).Stores m cells := by
  refine ⟨by simpa [Machine.put] using h.size, fun j cell' x hj hx => ?_⟩
  by_cases hij : i = j
  · subst hij
    cases hi.symm.trans hj
    have hlt : i < s.memory.size := h.size ▸ (List.getElem?_eq_some_iff.mp hi).1
    rw [Machine.getElem?_put hlt] at hx
    cases hx
    exact hw
  · rw [Machine.put, Array.getElem?_setIfInBounds_ne hij] at hx
    exact h.admits j cell' x hj hx

theorem Machine.Stores.push {s : Machine} (h : s.Stores m cells) (hw : cell.Admits m cells w) :
    Machine.Stores m (cells ++ [cell]) { s with memory := s.memory.push w } := by
  refine ⟨by simp [h.size], fun j cell' x hj hx => ?_⟩
  rw [Array.getElem?_push] at hx
  split at hx
  · next heq =>
    cases hx
    rw [heq, h.size, List.getElem?_concat_length] at hj
    cases hj
    exact hw.grow _
  · next hne =>
    have hlt := (Array.getElem?_eq_some_iff.mp hx).1
    rw [List.getElem?_append_left (by rw [← h.size]; exact hlt)] at hj
    exact (h.admits j cell' x hj hx).grow _

end

/-! ## Operands -/
variable {name : String}


theorem eval_kept (h : regs.Keep (Promise c.module cells) c before)
    (hargs : ArgsFit c.module cells c.params args) (o : Operand) :
    Ensures (eval c.module args regs o) s fun v s' =>
      s' = s ∧ ∀ k, OperandKind c before o k → Promise c.module cells k v := by
  cases o with
  | register r => exact (eval_ensures _).mono fun v s' hv => ⟨hv.1, fun k hk => h r k v hk (hv.2 r rfl)⟩
  | int v ty =>
    refine .pure ⟨rfl, fun k hk => ?_⟩
    cases hk with
    | int hty => exact hasTy_wrap hty v
  | float v ty =>
    refine .pure ⟨rfl, fun k hk => ?_⟩
    cases hk with
    | float hty => exact hasTy_float hty _
  | zero ty =>
    refine (zero_ensures ty).mono fun v s' hv => ⟨hv.1, fun k hk => ?_⟩
    cases hk with
    | zero => exact hasTy_zeroValue hv.2
  | global name =>
    refine .pure ⟨rfl, fun k hk => ?_⟩
    cases hk with
    | global => exact .ptr
  | param i =>
    rw [eval]
    split
    · next v hv =>
      refine .pure ⟨rfl, fun k hk => ?_⟩
      cases hk with
      | param hp href =>
        have ht := hargs.getElem? hp hv
        rwa [Param.Takes, href] at ht
      | reference hp href hty =>
        have ht := hargs.getElem? hp hv
        rw [Param.Takes, href] at ht
        exact ht _ hty
    · exact .throw _

theorem evalAddress_kept (h : regs.Keep (Promise c.module cells) c before)
    (hargs : ArgsFit c.module cells c.params args) (o : Operand) :
    Ensures (evalAddress c.module args regs o) s fun a s' =>
      s' = s ∧ ∀ k, OperandKind c before o k → Promise c.module cells k (.ptr a) := by
  refine (eval_kept h hargs o).bind fun v s' hv => ?_
  split
  · exact .pure hv
  · exact .throw _

/-- The arguments of a call are what the function takes. -/
theorem evalArgs_kept (h : regs.Keep (Promise c.module cells) c before)
    (hargs : ArgsFit c.module cells c.params args) (hp : paramsOf g = .ok params)
    (hk : ArgsKinded c before g.receiver.isSome g.signature operands) :
    Ensures (operands.mapM fun p => eval c.module args regs p.2) s fun vs s' =>
      s' = s ∧ ArgsFit c.module cells params vs := by
  have hvalues : ∀ {qs own operands}, List.Forall₂ (fun (q : TypedName) (p : Param) => ∃ t,
      Ty.ofSource q.ty = .ok t ∧ p = ⟨q.name, t, q.ty, false⟩) qs own →
      ArgsKinded c before false (qs.map TypedName.ty) operands →
      Ensures (operands.mapM fun p => eval c.module args regs p.2) s fun vs s' =>
        s' = s ∧ ArgsFit c.module cells own vs := by
    intro qs own operands hown hk
    induction hown generalizing operands with
    | nil =>
      cases hk
      exact .pure ⟨rfl, .missing⟩
    | cons hq _ ih =>
      obtain ⟨t, ht, rfl⟩ := hq
      cases hk with
      | value ht' hv hk =>
        cases ht.symm.trans ht'
        rw [List.mapM_cons]
        refine (eval_kept h hargs _).bind fun v s' hs => ?_
        rw [hs.1]
        exact (ih hk).bind fun vs s' hvs => .pure ⟨hvs.1, .cons (hs.2 _ hv) hvs.2⟩
  obtain ⟨own, rfl, hown⟩ := paramsOf_eq_ok hp
  rw [FnHeader.signature] at hk
  cases hr : g.receiver with
  | none =>
    rw [hr] at hk
    exact hvalues hown hk
  | some ty =>
    rw [hr] at hk
    cases hk with
    | receiver ht ha hk =>
      rw [List.mapM_cons]
      refine (eval_kept h hargs _).bind fun v s' hs => ?_
      rw [hs.1]
      refine (hvalues hown hk).bind fun vs s' hvs => .pure ⟨hvs.1, .cons (fun ty' hty' => ?_) hvs.2⟩
      cases ht.symm.trans hty'
      exact hs.2 _ ha

/-! ## Instructions -/

section

variable {c : KindEnv} {s : Machine} {call : Call}

/-- An instruction leaves the registers with values of their types. -/
structure Kept (c : KindEnv) (cells : List Cell) (before : List Instr) (i : Instr)
    (regs regs' : Registers) : Prop where
  keep : regs'.Keep (Promise c.module cells) c (before ++ [i])
  assigned : ∀ r v, regs'.lookup r = some v →
    regs.lookup r = some v ∨ i.dest? = some r ∧ HasTy c.module i.resultTy v

theorem ResultKind.hasTy (hk : ResultKind c before i k) (hv : Promise c.module cells k v) :
    HasTy c.module i.resultTy v := by
  cases hk with
  | receiver | field => exact Points.hasTy hv
  | load | computed => exact hv

theorem Kept.assign (h : regs.Keep (Promise c.module cells) c before)
    (hc : c.receiver.isSome = true → .alloca 0 .ptr ∈ c.slots) (hr : i.dest? = some r)
    (hfresh : r ∉ dests c.slots ++ dests before) (hk : ResultKind c before i k)
    (hv : ∀ k, ResultKind c before i k → Promise c.module cells k v) :
    Kept c cells before i regs (regs.assign r v) := by
  refine ⟨h.assign hr hc hfresh hv, fun r' w hw => ?_⟩
  rw [Registers.lookup_assign] at hw
  split at hw
  · next heq =>
    cases hw
    exact .inr ⟨heq ▸ hr, hk.hasTy (hv k hk)⟩
  · exact .inl hw

theorem Kept.compute (h : regs.Keep (Promise c.module cells) c before)
    (hc : c.receiver.isSome = true → .alloca 0 .ptr ∈ c.slots) (hr : i.dest? = some r)
    (hfresh : r ∉ dests c.slots ++ dests before) (hi : i.IsComputation)
    (hty : HasTy c.module i.resultTy v) : Kept c cells before i regs (regs.assign r v) := by
  refine .assign h hc hr hfresh (.computed hi) fun k hk => ?_
  cases hk with
  | computed => exact hty
  | receiver | load | field => cases hi

theorem Kept.pass (h : regs.Keep (Promise c.module cells) c before) (hi : i.dest? = none) :
    Kept c cells before i regs regs :=
  ⟨h.pass hi, fun _ _ hv => .inl hv⟩

theorem Machine.Stores.read (hs : s.Stores c.module cells)
    (ha : Promise c.module cells (.place own ty) (.ptr a)) {i : Nat} (hbase : a.base = .slot i)
    (hx : s.memory[i]? = some x) (hv : x.get a.path = .ok v) : HasTy c.module ty v := by
  obtain ⟨j, whole, hbase', hj, hpath⟩ := ha.place a rfl
  cases hbase.symm.trans hbase'
  exact HasTy.get (hs.admits i _ x hj hx) hpath hv

theorem Machine.Stores.held (hs : s.Stores c.module cells)
    (ha : Promise c.module cells (.holder ty) (.ptr a)) {i : Nat} (hbase : a.base = .slot i)
    (hx : s.memory[i]? = some x) (hv : x.get a.path = .ok v) : Points c.module cells ty v := by
  obtain ⟨j, rfl, hj⟩ := ha.2 a rfl
  cases hbase
  cases hv
  exact hs.admits i _ _ hj hx

theorem load_kept (h : regs.Keep (Promise c.module cells) c before)
    (hargs : ArgsFit c.module cells c.params args)
    (hc : c.receiver.isSome = true → .alloca 0 .ptr ∈ c.slots) (hs : s.Stores c.module cells)
    (hfresh : dest ∉ dests c.slots ++ dests before) (hk : ResultKind c before (.load dest ty a) k) :
    Ensures (step c.module call args regs (.load dest ty a)) s fun regs' s' =>
      s'.Stores c.module cells ∧ Kept c cells before (.load dest ty a) regs regs' := by
  refine (evalAddress_kept h hargs a).bind fun b s' hb => ?_
  obtain ⟨rfl, hb⟩ := hb
  refine (read_ensures b).bind fun v s' hv => .pure ?_
  obtain ⟨rfl, j, x, hbase, hx, hget⟩ := hv
  refine ⟨hs, .assign h hc rfl hfresh hk fun k' hk' => ?_⟩
  cases hk' with
  | receiver ha => exact hs.held (hb _ ha) hbase hx hget
  | load ha => exact hs.read (hb _ ha) hbase hx hget
  | computed hcomp => cases hcomp

/-- An instruction that is no call keeps the types. -/
theorem InstrKinded.kept (hi : InstrKinded c before i)
    (h : regs.Keep (Promise c.module cells) c before)
    (hargs : ArgsFit c.module cells c.params args)
    (hc : c.receiver.isSome = true → .alloca 0 .ptr ∈ c.slots)
    (hfresh : ∀ r, i.dest? = some r → r ∉ dests c.slots ++ dests before)
    (hs : s.Stores c.module cells)
    (hcall : ∀ dest name ret params operands, i ≠ .call dest name ret params operands) :
    Ensures (step c.module call args regs i) s fun regs' s' =>
      s'.Stores c.module cells ∧ Kept c cells before i regs regs' := by
  cases hi with
  | load ha => exact load_kept h hargs hc hs (hfresh _ rfl) (.load ha)
  | receiver ha => exact load_kept h hargs hc hs (hfresh _ rfl) (.receiver ha)
  | @store ty v a hv ha =>
    refine (eval_kept h hargs v).bind fun w s' hw => ?_
    obtain ⟨rfl, hw⟩ := hw
    refine (evalAddress_kept h hargs a).bind fun b s' hb => ?_
    obtain ⟨rfl, hb⟩ := hb
    refine (write_ensures b w).bind fun _ s' hs' => .pure ?_
    obtain ⟨j, x, y, hbase, hx, hset, rfl⟩ := hs'
    obtain ⟨j', whole, hbase', hj, hpath⟩ := (hb _ ha).place b rfl
    cases hbase.symm.trans hbase'
    exact ⟨hs.put hj (HasTy.set (hs.admits j _ x hj hx) hpath (hw _ hv) hset), .pass h rfl⟩
  | @hold v a ty own hv ha =>
    refine (eval_kept h hargs v).bind fun w s' hw => ?_
    obtain ⟨rfl, hw⟩ := hw
    refine (evalAddress_kept h hargs a).bind fun b s' hb => ?_
    obtain ⟨rfl, hb⟩ := hb
    refine (write_ensures b w).bind fun _ s' hs' => .pure ?_
    obtain ⟨j, x, y, hbase, hx, hset, rfl⟩ := hs'
    obtain ⟨j', rfl, hj⟩ := (hb _ ha).2 b rfl
    cases hbase
    cases hset
    exact ⟨hs.put hj (hw _ hv), .pass h rfl⟩
  | @arith dest op ty l r hl hr hop =>
    refine (eval_kept h hargs l).bind fun x s' hx => ?_
    obtain ⟨rfl, hx⟩ := hx
    refine (eval_kept h hargs r).bind fun y s' hy => ?_
    obtain ⟨rfl, hy⟩ := hy
    refine (orFault_ensures _).bind fun z s' hz => .pure ?_
    obtain ⟨rfl, hz⟩ := hz
    exact ⟨hs, .compute h hc rfl (hfresh dest rfl) True.intro (hasTy_arith hop (hx _ hl) (hy _ hr) hz)⟩
  | @compare dest pred ty l r hl hr hpred =>
    refine (eval_kept h hargs l).bind fun x s' hx => ?_
    obtain ⟨rfl, -⟩ := hx
    refine (eval_kept h hargs r).bind fun y s' hy => ?_
    obtain ⟨rfl, -⟩ := hy
    refine (orFault_ensures _).bind fun z s' hz => .pure ?_
    obtain ⟨rfl, hz⟩ := hz
    exact ⟨hs, .compute h hc rfl (hfresh dest rfl) True.intro (hasTy_compare hz)⟩
  | @cast dest op v source target hv hop =>
    refine (eval_kept h hargs v).bind fun x s' hx => ?_
    obtain ⟨rfl, -⟩ := hx
    refine (orFault_ensures _).bind fun z s' hz => .pure ?_
    obtain ⟨rfl, hz⟩ := hz
    exact ⟨hs, .compute h hc rfl (hfresh dest rfl) True.intro (hasTy_convert hop hz)⟩
  | @field dest struct base index own d ty hbase hd hindex =>
    refine (evalAddress_kept h hargs base).bind fun b s' hb => .pure ?_
    obtain ⟨rfl, hb⟩ := hb
    refine ⟨hs, .assign h hc rfl (hfresh dest rfl) (.field hbase hd hindex) fun k hk => ?_⟩
    cases hk with
    | computed hcomp => cases hcomp
    | field hplace hd' hi' =>
      refine ⟨.ptr, ?_⟩
      rintro _ ⟨⟩
      obtain ⟨j, whole, hj, hcell, hpath⟩ := (hb _ hplace).place b rfl
      exact ⟨j, whole, hj, hcell, hpath.field hd' hi'⟩
  | call => exact absurd rfl (hcall _ _ _ _ _)

end

/-! ## Invocations -/

/-- What is ahead of an invocation in its block, after some instructions of the block. -/
inductive Ahead (c : KindEnv) (ret : Ty) (last : Option Terminator) :
    List Instr → List Instr → Prop where
  | make {r : Register} {ty : Ty} {code : List Instr} (hslot : .alloca r ty ∈ c.slots)
      (h : Ahead c ret last [] code) : Ahead c ret last [] (.alloca r ty :: code)
  | run {before code : List Instr} (hcode : Coded (InstrKinded c) before code)
      (hnodup : (dests c.slots ++ dests (before ++ code)).Nodup)
      (hend : ∀ t, last = some t → EndKinded c ret (before ++ code) t) : Ahead c ret last before code

/-- Every register holds a value of the type that an instruction which assigns it gives. -/
def Frame.Typed (m : Module) (f : Frame) : Prop :=
  ∀ r v, f.regs.lookup r = some v →
    ∃ b ∈ f.func.blocks, ∃ i ∈ b.instrs, i.dest? = some r ∧ HasTy m i.resultTy v

/-- An invocation keeps to the types, with some instructions of its block behind it. -/
structure Frame.Sound (p : Program) (c : KindEnv) (cells : List Cell) (before : List Instr)
    (f : Frame) : Prop where
  symbols : c.symbols = p.symbols
  listed : f.func ∈ c.module.functions
  kinded : f.func.Kinded c
  args : ArgsFit c.module cells c.params f.args
  inside : ∃ b ∈ f.func.blocks, f.code <:+ b.instrs
  typed : f.Typed c.module
  ahead : Ahead c f.func.ret f.last before f.code
  keep : f.regs.Keep (Promise c.module cells) c before

/-- The invocations that wait, the last one for a result of a type. -/
inductive Waiting (p : Program) (m : Module) (cells : List Cell) : Ty → List Frame → Prop where
  | nil {ret : Ty} : Waiting p m cells ret []
  | cons {c : KindEnv} {before : List Instr} {f : Frame} {dest : Option Register} {name : String}
      {ret : Ty} {params : List Ty} {operands : List (Ty × Operand)} {code : List Instr}
      {callers : List Frame} (hm : c.module = m) (hf : f.Sound p c cells before)
      (hcode : f.code = .call dest name ret params operands :: code)
      (hs : Waiting p m cells f.func.ret callers) : Waiting p m cells ret (f :: callers)

/-- All invocations under way and the memory keep to the types. -/
inductive Moment.Sound (p : Program) (m : Module) (M : Moment) : Prop where
  | mk {c : KindEnv} {cells : List Cell} {before : List Instr} (hm : c.module = m)
      (top : M.top.Sound p c cells before) (callers : Waiting p m cells M.top.func.ret M.callers)
      (memory : M.machine.Stores m cells) (cells : M.cells = cells.map Cell.ty)

section

variable {code : List Instr} {f : Frame}

theorem Frame.Sound.grow (h : f.Sound p c cells before) (new : List Cell) :
    f.Sound p c (cells ++ new) before :=
  ⟨h.symbols, h.listed, h.kinded, h.args.grow new, h.inside, h.typed, h.ahead,
    h.keep.mono fun _ _ hv => hv.grow new⟩

theorem Waiting.grow (h : Waiting p m cells ret callers) (new : List Cell) :
    Waiting p m (cells ++ new) ret callers := by
  induction h with
  | nil => exact .nil
  | cons hm hf hcode _ ih => exact .cons hm (hf.grow new) hcode ih

theorem Ahead.nodup (h : Ahead c ret last before code) : (dests c.slots).Nodup := by
  induction h with
  | make _ _ ih => exact ih
  | run _ hnodup _ => exact (List.nodup_append.mp hnodup).1

theorem Ahead.front (hslots : ∀ i ∈ slots, i ∈ c.slots ∧ i.IsAlloca)
    (h : Ahead c ret last [] code) : Ahead c ret last [] (slots ++ code) := by
  induction slots with
  | nil => exact h
  | cons i rest ih =>
    obtain ⟨⟨hi, r, ty, rfl⟩, hrest⟩ := List.forall_mem_cons.mp hslots
    exact .make hi (ih hrest)

variable {F : Function} {regs : Registers}

theorem Function.Kinded.ahead (h : F.Kinded c) {k : Nat} {b : Block} (hb : F.blocks[k]? = some b) :
    Ahead c F.ret b.terminator [] b.instrs := by
  obtain ⟨code, hinstrs, hcode, hnodup, hend⟩ := h.blocks k b hb
  rw [hinstrs]
  refine .front (fun i hi => ?_) (.run hcode hnodup hend)
  unfold front at hi
  split at hi
  · obtain ⟨⟨r, ty, rfl, -⟩, -⟩ := h.slots i hi
    exact ⟨hi, r, ty, rfl⟩
  · cases hi

theorem Frame.Sound.enter {args : List Value} {k : Nat} (hsym : c.symbols = p.symbols)
    (hlisted : F ∈ c.module.functions) (hkinded : F.Kinded c)
    (hargs : ArgsFit c.module cells c.params args)
    (htyped : (Frame.enter F args regs b).Typed c.module)
    (hkeep : regs.Keep (Promise c.module cells) c []) (hb : F.blocks[k]? = some b) :
    (Frame.enter F args regs b).Sound p c cells [] :=
  ⟨hsym, hlisted, hkinded, hargs, ⟨b, List.mem_of_getElem? hb, List.suffix_rfl⟩, htyped,
    hkinded.ahead hb, hkeep⟩

theorem Frame.Sound.next {i : Instr} {before' : List Instr} (h : f.Sound p c cells before)
    (new : List Cell) (hcode : f.code = i :: code)
    (hassigned : ∀ r v, regs.lookup r = some v →
      f.regs.lookup r = some v ∨ i.dest? = some r ∧ HasTy c.module i.resultTy v)
    (hahead : Ahead c f.func.ret f.last before' code)
    (hkeep : regs.Keep (Promise c.module (cells ++ new)) c before') :
    Frame.Sound p c (cells ++ new) before' { f with regs, code } := by
  obtain ⟨b, hb, hsuffix⟩ := h.inside
  rw [hcode] at hsuffix
  refine ⟨h.symbols, h.listed, h.kinded, h.args.grow new,
    ⟨b, hb, (List.suffix_cons i code).trans hsuffix⟩, fun r v hv => ?_, hahead, hkeep⟩
  rcases hassigned r v hv with hv | ⟨hr, hty⟩
  · exact h.typed r v hv
  · exact ⟨b, hb, i, hsuffix.mem List.mem_cons_self, hr, hty⟩

theorem eq_of_dest? (h : (dests code).Nodup) (hi : i ∈ code) (hj : j ∈ code)
    (hir : i.dest? = some r) (hjr : j.dest? = some r) : i = j := by
  induction code with
  | nil => cases hi
  | cons x rest ih =>
    have hrest : (dests rest).Nodup := by
      rw [← List.singleton_append, dests_append] at h
      exact (List.nodup_append.mp h).2.1
    have hnot : x.dest? = some r → r ∉ dests rest := by
      intro hx
      rw [← List.singleton_append, dests_append] at h
      intro hr
      exact (List.nodup_append.mp h).2.2 r (mem_dests.mpr ⟨x, List.mem_singleton_self x, hx⟩) r hr rfl
    rcases List.mem_cons.mp hi with rfl | hi' <;> rcases List.mem_cons.mp hj with rfl | hj'
    · rfl
    · exact absurd (mem_dests.mpr ⟨j, hj', hjr⟩) (hnot hir)
    · exact absurd (mem_dests.mpr ⟨i, hi', hir⟩) (hnot hjr)
    · exact ih hrest hi' hj'

/-- What the cell of a slot is for. -/
theorem exists_cell (cells : List Cell) (hF : F.Kinded c) (hnodup : (dests c.slots).Nodup)
    (hslot : .alloca r ty ∈ c.slots) (hv : zeroValue c.module c.module.structs.length ty = .ok v) :
    ∃ cell : Cell, cell.ty = ty ∧ cell.Admits c.module cells v ∧
      ∀ (k : Kind) (cells' : List Cell) (i : Nat), cells'[i]? = some cell →
        OperandKind c [] (.register r) k → Promise c.module cells' k (.ptr ⟨.slot i, []⟩) := by
  by_cases hholder : c.receiver.isSome = true ∧ r = 0
  · obtain ⟨hsome, rfl⟩ := hholder
    obtain ⟨t, ht⟩ := Option.isSome_iff_exists.mp hsome
    cases eq_of_dest? hnodup hslot (hF.holder hsome) rfl rfl
    obtain rfl : v = .null := by
      cases hn : c.module.structs.length <;> rw [hn] at hv <;> cases hv <;> rfl
    refine ⟨.holder t, rfl, ⟨.null, nofun⟩, fun k cells' i hi hk => ?_⟩
    cases hk with
    | slot _ hr => exact absurd rfl (hr hsome)
    | holder ht' =>
      cases ht.symm.trans ht'
      refine ⟨.ptr, ?_⟩
      rintro _ ⟨⟩
      exact ⟨i, rfl, hi⟩
    | result h => simp at h
  · refine ⟨.value ty, rfl, hasTy_zeroValue hv, fun k cells' i hi hk => ?_⟩
    cases hk with
    | slot hslot' =>
      cases eq_of_dest? hnodup hslot hslot' rfl rfl
      refine ⟨.ptr, ?_⟩
      rintro _ ⟨⟩
      exact ⟨i, ty, rfl, hi, .nil⟩
    | holder ht' => exact absurd ⟨by simp [ht'], rfl⟩ hholder
    | result h => simp at h

theorem Frame.Sound.make {call : Call} (h : f.Sound p c cells before)
    (hcode : f.code = .alloca r ty :: code) (hslot : .alloca r ty ∈ c.slots)
    (hahead : Ahead c f.func.ret f.last [] code) (hs : s.Stores c.module cells) (hb : before = []) :
    Ensures (step c.module call f.args f.regs (.alloca r ty)) s fun regs s' =>
      ∃ cell : Cell, cell.ty = ty ∧ s'.Stores c.module (cells ++ [cell]) ∧
        Frame.Sound p c (cells ++ [cell]) [] { f with regs, code } := by
  subst hb
  refine (zero_ensures ty).bind fun v s' hv => ?_
  obtain ⟨rfl, hv⟩ := hv
  refine (allocate_ensures v).bind fun a s'' ha => .pure ?_
  obtain ⟨rfl, rfl⟩ := ha
  obtain ⟨cell, hty, hadmits, hpromise⟩ := exists_cell cells h.kinded hahead.nodup hslot hv
  have hnew : (cells ++ [cell])[s'.memory.size]? = some cell := by
    rw [hs.size, List.getElem?_concat_length]
  refine ⟨cell, hty, hs.push hadmits, h.next [cell] hcode (fun r' w hw => ?_) hahead ?_⟩
  · rw [Registers.lookup_assign] at hw
    split at hw
    · next heq =>
      cases hw
      exact .inr ⟨congrArg some heq.symm, .ptr⟩
    · exact .inl hw
  · exact (h.keep.mono fun _ _ hv => hv.grow _).make fun k hk => hpromise k _ _ hnew hk

def Exit.HasTy (m : Module) (ret : Ty) : Exit → Prop
  | .ret none => ret = .void
  | .ret (some v) => Ssa.HasTy m ret v
  | .goto _ => True

theorem exit_kept {args : List Value} (h : regs.Keep (Promise c.module cells) c before)
    (hargs : ArgsFit c.module cells c.params args)
    (hend : ∀ t, last = some t → EndKinded c ret before t) :
    Ensures (exit c.module F args regs last) s fun e s' => s' = s ∧ e.HasTy c.module ret := by
  cases last with
  | none => exact .throw _
  | some t =>
    cases hend t rfl with
    | retNone hret => exact .pure ⟨rfl, hret⟩
    | ret hv => exact (eval_kept h hargs _).bind fun v s' hs => .pure ⟨hs.1, hs.2 _ hv⟩
    | jump => exact .pure ⟨rfl, True.intro⟩
    | branch hv =>
      refine (eval_ensures _).bind fun v s' hs => ?_
      split
      · exact .pure ⟨hs.1, True.intro⟩
      · exact .throw _
    | unreachable => exact .throw _

theorem Frame.Sound.resume {dest : Option Register} {params : List Ty}
    (h : f.Sound p c cells before) (hcode : f.code = .call dest name ret params operands :: code)
    (hresult : Exit.HasTy c.module ret (.ret result)) :
    (f.resume result).Sound p c cells (before ++ [.call dest name ret params operands]) := by
  have hahead := h.ahead
  rw [hcode] at hahead
  cases hahead with
  | run hkinded hnodup hend =>
    have hfresh := fresh_of_nodup hnodup
    rw [List.append_cons] at hnodup hend
    have hahead := Ahead.run hkinded.2 hnodup hend
    have hkept : ∃ regs, f.resume result = { f with regs, code } ∧
        Kept c cells before (.call dest name ret params operands) f.regs regs := by
      rw [Frame.resume, hcode]
      cases dest with
      | none => exact ⟨f.regs, rfl, .pass h.keep rfl⟩
      | some r =>
        cases result with
        | some v =>
          exact ⟨_, rfl, .compute h.keep h.kinded.holder rfl (hfresh r rfl) True.intro hresult⟩
        | none =>
          cases hkinded.1 with
          | call _ _ hdest =>
            rw [hresult] at hdest
            cases hdest
    obtain ⟨regs, heq, hkept⟩ := hkept
    have hnext := h.next [] hcode hkept.assigned hahead (by simpa using hkept.keep)
    rw [heq]
    simpa using hnext

end

/-! ## Turns -/

def Turn.Sound (p : Program) (m : Module) (cells : List Ty) : Turn → Machine → Prop
  | .on top callers made, s => Moment.Sound p m ⟨top, callers, cells ++ made, s⟩
  | .over _, _ => True

section

variable {m : Module}

theorem Module.Lowers.callee (hl : m.Lowers p) (hw : p.WellTyped) (hf : p.foreigns = [])
    {callee : Callee} (hr : p.symbols.resolve name ts = .ok callee) : ∃ g : FnDef, ∃ G c,
      callee = .user g.toFnHeader ∧ g.signature = ts ∧ m.function? callee.linkage = some G ∧
      G.Kinded c ∧ c.module = m ∧ c.symbols = p.symbols ∧
      paramsOf g.toFnHeader = .ok c.params ∧ Ty.ofSource g.ret = .ok G.ret := by
  rcases Symbols.resolve_eq_ok hr with ⟨d, hd, -⟩ | ⟨h, hh, rfl, -, hsig⟩
  · rw [show p.symbols.foreigns = [] from hf] at hd
    cases hd
  · obtain ⟨g, hg, rfl⟩ := List.mem_map.mp hh
    obtain ⟨G, c, hc⟩ := hl.kinded_function hw hg
    exact ⟨g, G, c, rfl, hsig, hc⟩

variable {f : Frame}

theorem call_sound (hl : m.Lowers p) (hw : p.WellTyped) (hf : p.foreigns = []) (hm : c.module = m)
    (h : f.Sound p c cells before) (hcallers : Waiting p m cells f.func.ret callers)
    (hs : s.Stores m cells) (htys : tys = cells.map Cell.ty)
    (hcode : f.code = .call dest name ret params operands :: code)
    (hG : m.function? name = some G) :
    Ensures (begin G (f :: callers) =<< operands.mapM fun p => eval m f.args f.regs p.2) s
      (Turn.Sound p m tys) := by
  subst hm
  have hahead := h.ahead
  rw [hcode] at hahead
  cases hahead with
  | run hkinded =>
    cases hkinded.1 with
    | call hr hret hdest hargs =>
      rw [h.symbols] at hr
      obtain ⟨g, G', c', rfl, rfl, hG', hkinded', hm', hsym, hparams, hret'⟩ := hl.callee hw hf hr
      cases hG.symm.trans hG'
      cases hret.symm.trans hret'
      refine (evalArgs_kept h.keep h.args hparams hargs).bind fun values s' hvs => ?_
      obtain ⟨rfl, hvalues⟩ := hvs
      rw [begin]
      split
      · exact .throw _
      · split
        · exact .throw _
        · next b hb =>
          rw [← hm'] at hvalues
          refine .pure (.mk hm' (.enter hsym ?_ hkinded' hvalues (fun _ _ h => by cases h) .nil hb)
            (.cons rfl h hcode hcallers) hs (by simpa using htys))
          rw [hm']
          exact List.mem_of_find?_eq_some hG

theorem instr_sound (hl : m.Lowers p) (hw : p.WellTyped) (hf : p.foreigns = [])
    (hm : c.module = m) (h : f.Sound p c cells before)
    (hcallers : Waiting p m cells f.func.ret callers) (hs : s.Stores m cells)
    (htys : tys = cells.map Cell.ty) (hcode : f.code = i :: code) (hi : i.callee? m = none) :
    Ensures (step m (callForeign m) f.args f.regs i >>= fun regs =>
      pure (.on { f with regs, code } callers i.made)) s (Turn.Sound p m tys) := by
  subst hm
  have hahead := h.ahead
  rw [hcode] at hahead
  generalize hb : before = b at hahead
  generalize hi' : i :: code = all at hahead
  cases hahead with
  | @make r ty rest hslot hahead =>
    cases hi'
    refine (h.make hcode hslot hahead hs hb).bind fun regs s' hs' => ?_
    obtain ⟨cell, hty, hstores, hsound⟩ := hs'
    refine .pure (.mk rfl hsound (hcallers.grow [cell]) hstores ?_)
    simp [htys, Instr.made, hty]
  | run hkinded hnodup hend =>
    subst hb
    subst hi'
    have hcall : ∀ dest name ret params operands, i ≠ .call dest name ret params operands := by
      rintro dest name ret params operands rfl
      cases hkinded.1 with
      | call hr =>
        rw [h.symbols] at hr
        obtain ⟨g, G, c', -, -, hG, -⟩ := hl.callee hw hf hr
        cases (Option.map_eq_none_iff.mp hi).symm.trans hG
    refine (hkinded.1.kept h.keep h.args h.kinded.holder (fresh_of_nodup hnodup) hs hcall).bind
      fun regs s' hs' => ?_
    rw [List.append_cons] at hnodup hend
    have hnext := h.next [] hcode hs'.2.assigned (.run hkinded.2 hnodup hend)
      (by simpa using hs'.2.keep)
    have hmade : i.made = [] := by
      cases hkinded.1 <;> rfl
    refine .pure (.mk rfl hnext (hcallers.grow []) (by simpa using hs'.1) ?_)
    simp [htys, hmade]

theorem leave_sound (hm : c.module = m) (h : f.Sound p c cells before)
    (hcallers : Waiting p m cells f.func.ret callers) (hs : s.Stores m cells)
    (htys : tys = cells.map Cell.ty) (hcode : f.code = []) :
    Ensures (exit m f.func f.args f.regs f.last >>= leave f callers) s (Turn.Sound p m tys) := by
  subst hm
  have hahead := h.ahead
  rw [hcode] at hahead
  cases hahead with
  | run _ _ hend =>
    rw [List.append_nil] at hend
    refine (exit_kept h.keep h.args hend).bind fun e s' he => ?_
    obtain ⟨rfl, he⟩ := he
    cases e with
    | goto k =>
      rw [leave]
      split
      · exact .throw _
      · next b hb =>
        exact .pure (.mk rfl (.enter h.symbols h.listed h.kinded h.args h.typed h.keep.restart hb)
          hcallers hs (by simpa using htys))
    | ret v =>
      cases hcallers with
      | nil => exact .pure True.intro
      | cons hm' hcaller hcode' hrest =>
        rw [← hm'] at he
        refine .pure (.mk hm' (hcaller.resume hcode' he) ?_ hs (by simpa using htys))
        rw [Frame.func_resume]
        exact hrest

theorem Moment.Sound.next (hl : m.Lowers p) (hw : p.WellTyped) (hf : p.foreigns = [])
    {M M' : Moment} (h : M.Sound p m) (hM : Next m M M') : M'.Sound p m := by
  obtain ⟨hm, htop, hcallers, hs, htys⟩ := h
  have hturn : Ensures (Ssa.turn m M.top M.callers) M.machine (Turn.Sound p m M.cells) := by
    unfold Ssa.turn
    split
    · next hcode => exact leave_sound hm htop hcallers hs htys hcode
    · next i code hcode =>
      split
      · next G operands hcallee =>
        cases i with
        | call dest name ret params operands' =>
          obtain ⟨G', hG, heq⟩ := Option.map_eq_some_iff.mp hcallee
          cases heq
          exact call_sound hl hw hf hm htop hcallers hs htys hcode hG
        | _ => cases hcallee
      · next hcallee => exact instr_sound hl hw hf hm htop hcallers hs htys hcode hcallee
  cases hM with
  | mk hM => exact hturn _ _ hM

theorem Module.Passes.sound (hl : m.Lowers p) (hw : p.WellTyped) (hf : p.foreigns = [])
    {M : Moment} (h : m.Passes M) : M.Sound p m := by
  obtain ⟨hF, hb, hreaches⟩ := h
  have hlisted := List.mem_of_find?_eq_some hF
  obtain ⟨g, hg, c, hkinded, -, rfl, hsym, -⟩ := hl.kinded hw hlisted
  induction hreaches with
  | refl =>
    have hstores : Machine.Stores c.module [] ⟨#[], ""⟩ := ⟨rfl, nofun⟩
    exact .mk rfl (.enter hsym hlisted hkinded .missing nofun .nil hb) .nil hstores rfl
  | tail _ hnext ih => exact ih.next hl hw hf hnext

end

end StructLang.Ssa
