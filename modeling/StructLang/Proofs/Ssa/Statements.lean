import StructLang.Proofs.Ssa.Expressions
import StructLang.Proofs.Ssa.Modules

/-!
# Running the code of statements

What a function does from a place in its code on, where the place is given by the draft in which lowering
was when it got there. The code of a statement does what the statement means and then goes on as the code
after it.
-/

namespace StructLang.Ssa

namespace Activation

variable (c : Activation)

/-- Run the rest of a block and what comes after it. -/
def finish (F : Function) (budget : Nat) (regs : Registers) (code : List Instr)
    (t : Option Terminator) : Exec (Option Value) := do
  let regs ← c.steps regs code
  match ← exit c.module F c.args regs t with
  | .ret v => return v
  | .goto next => runBlocks c.module c.call F c.args budget regs next

/-- Run a function from the end of a draft on: the code that the final draft has beyond it. -/
def resume (F : Function) (D d : Draft) (budget : Nat) (regs : Registers) : Exec (Option Value) :=
  match d.blocks[d.current]?, D.blocks[d.current]? with
  | some b, some b' => c.finish F budget regs (b'.instrs.drop b.instrs.length) b'.terminator
  | _, _ => fault .missingBlock

/-- The function is what the final draft says. -/
structure Code (F : Function) (D : Draft) : Prop where
  blocks : F.blocks = withSlots D.slots D.blocks
  final : c.final = D.supply

end Activation

namespace Activation

variable {c : Activation} {d' : Draft}

theorem resume_eq (hb : d.blocks[d.current]? = some b) (hb' : D.blocks[d.current]? = some b') :
    c.resume F D d budget regs =
      c.finish F budget regs (b'.instrs.drop b.instrs.length) b'.terminator := by
  rw [resume, hb, hb']

theorem resume_extend (ho : d.Open) (hle : (d.extend s code).Le D) : c.resume F D d budget regs =
      c.steps regs code >>= fun regs => c.resume F D (d.extend s code) budget regs := by
  obtain ⟨b, hb, hopen⟩ := ho
  have hext : (d.extend s code).blocks[(d.extend s code).current]? = some (b.append code) := by
    simp [Draft.extend, List.getElem?_modify_eq, hb]
  obtain ⟨b', hb', hle⟩ := hle.blocks _ _ hext
  have hinstrs : ∃ more, b'.instrs = b.instrs ++ (code ++ more) := by
    rcases hle with rfl | ⟨-, more, t, rfl⟩
    · exact ⟨[], by simp [Block.append]⟩
    · exact ⟨more, by simp [Block.append]⟩
  obtain ⟨more, hmore⟩ := hinstrs
  rw [resume_eq hb hb', hmore, List.drop_left, finish, steps_append, bind_assoc]
  refine congrArg _ (funext fun regs' => ?_)
  rw [resume_eq hext hb', hmore, ← List.append_assoc,
    show (b.append code).instrs = b.instrs ++ code from rfl, List.drop_left]
  rfl

theorem resume_end (hb : d.blocks[d.current]? = some b)
    (hend : d'.blocks[d.current]? = some { b with terminator := some t }) (hle : d'.Le D) :
    c.resume F D d budget regs = c.finish F budget regs [] (some t) := by
  obtain ⟨b', hb', hle⟩ := hle.blocks _ _ hend
  rcases hle with rfl | ⟨hopen, -⟩
  · rw [resume_eq hb hb', List.drop_length]
  · cases hopen

theorem resume_terminate (ho : d.Open) (hle : (d.terminate t).Le D) :
    c.resume F D d budget regs = c.finish F budget regs [] (some t) := by
  obtain ⟨b, hb, -⟩ := ho
  exact resume_end hb (by simp [Draft.terminate, List.getElem?_modify_eq, hb]) hle

theorem runBlocks_eq (hc : c.Code F D) (hb : d.blocks[d.current]? = some ⟨k, label, [], none⟩)
    (hpos : 0 < d.current) (hle : d.Le D) :
    runBlocks c.module c.call F c.args (budget + 1) regs d.current = c.resume F D d budget regs := by
  obtain ⟨b', hb', -⟩ := hle.blocks _ _ hb
  have hF : F.blocks[d.current]? = some b' := by
    rw [hc.blocks, ← hb']
    cases hblocks : D.blocks with
    | nil => rfl
    | cons entry rest =>
      obtain ⟨k, hk⟩ := Nat.exists_eq_succ_of_ne_zero (Nat.ne_of_gt hpos)
      rw [hk, withSlots]
      rfl
  rw [resume_eq hb hb', runBlocks, hF]
  rfl

theorem finish_jump (target : Nat) :
    c.finish F budget regs [] (some (.jump target)) =
      runBlocks c.module c.call F c.args budget regs target := by
  simp only [finish, steps, Ssa.steps, exit, pure_bind]

theorem finish_branch (h : c.eval regs o = pure (.ofBool b)) :
    c.finish F budget regs [] (some (.branch o t e)) =
      runBlocks c.module c.call F c.args budget regs (if b then t else e) := by
  simp only [eval] at h
  simp only [finish, steps, Ssa.steps, exit, pure_bind, h, Value.ofBool]
  cases b <;> rfl

theorem finish_ret (h : c.eval regs o = pure w) :
    c.finish F budget regs [] (some (.ret (some (t, o)))) = pure (some w) := by
  simp only [eval] at h
  simp only [finish, steps, Ssa.steps, exit, pure_bind, h]

end Activation

/-! ## States between statements -/

namespace Activation

variable (c : Activation)

/-- The variables have their values in slots of their own, and what was there before the call is as it
was. -/
structure Holding (s : Supply) (slots : List Slot) (store : List Meaning.Value) (regs : Registers)
    (mach : Machine) : Prop where
  running : c.Running s regs mach
  stored : c.Stored slots store mach
  distinct : (slots.map Slot.address).Nodup
  kept : c.entry.Keeps 0 0 mach

/-- What holds between two statements. -/
structure At (s : Supply) (slots : List Slot) (store : List Meaning.Value) (regs : Registers)
    (mach : Machine) : Prop extends c.Holding s slots store regs mach where
  given : c.housed ≤ s.slots.length

/-- Every declaration has a slot for a variable, and no two have the same. -/
structure Homes (declared : List (Nat × Register)) : Prop where
  home : ∀ id r, declared.lookup id = some r →
    ∃ k t, c.final.slots[k]? = some (.alloca r t) ∧ k < c.housed
  distinct : ∀ id id' r, declared.lookup id = some r → declared.lookup id' = some r → id = id'

/-- After statements that may declare some variables, control is at the end of their draft, and the slots
of the variables keep a rule. -/
def Continues (F : Function) (D : Draft) (declared : List (Nat × Register)) (ids : List Nat)
    (slots : List Slot) (budget : Nat) (d : Draft) (rule : Scope Nat → List Slot → Prop)
    (places : Scope Nat) (store : List Meaning.Value) (y : Exec (Option Value)) (mach : Machine) :
    Prop :=
  ∃ b regs later, y = c.resume F D d b regs ∧ budget ≤ b ∧ d.Open ∧
    (∀ slot ∈ later, ∃ id ∈ ids, declared.lookup id = some slot.address) ∧
    rule places (slots ++ later) ∧ c.At d.supply (slots ++ later) store regs mach

def Ends (ret : StructLang.Ty) (v : Meaning.Value) (result : Option Value) (mach : Machine) : Prop :=
  c.entry.Keeps 0 0 mach ∧ Returned c.symbols ret v result

end Activation

namespace Activation

variable {c : Activation}

theorem At.ran (h : c.At s slots store regs mach)
    (hr : c.Ran s.slots.length regs mach s' regs' mach') : c.At s' slots store regs' mach' := by
  have hkept := h.kept.all_trans hr.memory (Nat.le_add_right _ _)
  exact ⟨⟨hr.running, h.stored.ran hr h.given, h.distinct, hkept⟩, Nat.le_trans h.given hr.given⟩

theorem Variable.put (h : c.Variable mach v slot) (hk : c.final.slots[k]? = some (.alloca r t))
    (hne : slot.address ≠ r) (w : Value) : c.Variable (mach.put (c.base + k) w) v slot := by
  have hkeeps := mach.keeps_put (c.base + k) w
  obtain ⟨j, t', hj, hlt, h⟩ := h
  have hjk : j ≠ k := by
    rintro rfl
    cases hk.symm.trans hj
    exact hne rfl
  refine ⟨j, t', hj, hlt, ?_⟩
  by_cases href : slot.byReference = true
  · rw [if_pos href] at h ⊢
    obtain ⟨a, ha, hholds⟩ := h
    have hsize := (Array.getElem?_eq_some_iff.mp ha).1
    have hframe : mach.Keeps c.base (c.base + k + 1) (mach.put (c.base + k) w) :=
      ⟨hkeeps.size, fun i hi hout => hkeeps.cells i hi (by omega), hkeeps.output⟩
    exact ⟨a, (hkeeps.cells _ hsize (by omega)).trans ha, hholds.keeps hframe⟩
  · rw [if_neg href] at h ⊢
    obtain ⟨i, x, w', hbase, hi, hx, hget, hstands⟩ := h
    cases hbase
    have hsize := (Array.getElem?_eq_some_iff.mp hx).1
    exact ⟨_, x, w', rfl, hi, (hkeeps.cells _ hsize (by omega)).trans hx, hget, hstands⟩

theorem store_variable (hr : c.Running s regs mach)
    (hk : c.final.slots[k]? = some (.alloca slot.address t')) (hlt : k < c.housed)
    (hdirect : slot.byReference = false) (hd : c.Denotes regs o slot.ty v) :
    ∃ w, c.steps regs [.store t o (.register slot.address)] mach =
        .ok regs (mach.put (c.base + k) w) ∧
      c.Variable (mach.put (c.base + k) w) v slot := by
  obtain ⟨w, hw, hstands⟩ := hd
  have haddr : c.eval regs (.register slot.address) = pure (.ptr ⟨.slot (c.base + k), []⟩) := by
    simp [eval, Ssa.eval, hr.placed k _ _ hk]
  have hroom := hr.room
  have hslots := (List.getElem?_eq_some_iff.mp hk).1
  have hsize : c.base + k < mach.memory.size := by omega
  refine ⟨w, steps_store hw haddr (Array.getElem?_eq_getElem hsize) rfl, k, t', hk, hlt, ?_⟩
  rw [if_neg (by simp [hdirect])]
  exact ⟨_, w, w, rfl, by omega, Machine.getElem?_put hsize w, rfl, hstands⟩

theorem At.skip (h : c.At s slots store regs mach) (hle : s.Le s') : c.At s' slots store regs mach :=
  ⟨⟨h.running.skip hle, h.stored, h.distinct, h.kept⟩, Nat.le_trans h.given hle.length⟩

theorem Holding.put (h : c.Holding s slots store regs mach) (hlt : k < s.slots.length)
    (hstored : c.Stored slots' store' (mach.put (c.base + k) w))
    (hdistinct : (slots'.map Slot.address).Nodup) :
    c.Holding s slots' store' regs (mach.put (c.base + k) w) := by
  have hkeeps := mach.keeps_put (c.base + k) w
  exact ⟨h.running.keeps hkeeps (by omega), hstored, hdistinct,
    h.kept.all_trans hkeeps (Nat.le_add_right _ _)⟩

theorem Holding.snoc (h : c.Holding s slots store regs mach)
    (hk : c.final.slots[k]? = some (.alloca slot.address t)) (hlt : k < s.slots.length)
    (hnew : slot.address ∉ slots.map Slot.address)
    (hvar : c.Variable (mach.put (c.base + k) w) v slot) :
    c.Holding s (slots ++ [slot]) (store ++ [v]) regs (mach.put (c.base + k) w) := by
  refine h.put hlt (h.stored.snoc hvar fun v' slot' hm hv' => ?_) ?_
  · refine hv'.put hk (fun heq => hnew ?_) w
    exact heq ▸ List.mem_map_of_mem hm
  · rw [List.map_append, List.nodup_append]
    refine ⟨h.distinct, by simp, fun r hr r' hr' => ?_⟩
    rw [List.mem_singleton.mp hr']
    exact fun heq => hnew (heq ▸ hr)

theorem At.declare (h : c.At s slots store regs mach)
    (hk : c.final.slots[k]? = some (.alloca slot.address t')) (hlt : k < c.housed)
    (hdirect : slot.byReference = false) (hnew : slot.address ∉ slots.map Slot.address)
    (hd : c.Denotes regs o slot.ty v) :
    ∃ mach', c.steps regs [.store t o (.register slot.address)] mach = .ok regs mach' ∧
      c.At s (slots ++ [slot]) (store ++ [v]) regs mach' := by
  obtain ⟨w, hsteps, hvar⟩ := store_variable h.running hk hlt hdirect hd
  exact ⟨_, hsteps, h.snoc hk (Nat.lt_of_lt_of_le hlt h.given) hnew hvar, h.given⟩

theorem At.assign (h : c.At s slots store regs mach) (hi : slots[i]? = some slot)
    (hdirect : slot.byReference = false) (hd : c.Denotes regs o slot.ty v) :
    ∃ mach', c.steps regs [.store t o (.register slot.address)] mach = .ok regs mach' ∧
      c.At s slots (store.set i v) regs mach' := by
  obtain ⟨-, -, k, t', hk, hlt, -⟩ := h.stored.lookup hi
  obtain ⟨w, hsteps, hvar⟩ := store_variable h.running hk hlt hdirect hd
  refine ⟨_, hsteps, h.put (Nat.lt_of_lt_of_le hlt h.given)
    (h.stored.set hi hvar fun j v' slot' hne hj hv' => ?_) h.distinct, h.given⟩
  refine hv'.put hk (fun heq => hne ?_) w
  have hmap : ∀ {m : Nat} {x : Slot}, slots[m]? = some x →
      (slots.map Slot.address)[m]? = some x.address := by
    intro m x hx
    rw [List.getElem?_map, hx]
    rfl
  have hlen := (List.getElem?_eq_some_iff.mp (hmap hj)).1
  exact (List.getElem?_inj hlen h.distinct).mp ((hmap hj).trans (heq ▸ (hmap hi).symm))

end Activation

/-! ## Statements -/

/-- What the code of statements can rely on. -/
structure Activation.Setting (c : Activation) (F : Function) (D : Draft)
    (declared : List (Nat × Register)) (meaning : Meaning.Call) : Prop where
  sound : c.Sound meaning
  code : c.Code F D
  homes : c.Homes declared

section

variable {c : Activation} {d : Draft}

open Activation

theorem ValueCode.follows (hc : c.Sound meaning) (hl : c.Located names storage places slots)
    (h : Typed c.findings names e ty)
    (hcode : ValueCode (.ofFindings c.findings) storage e s o code s') (hle : s'.Le c.final)
    (hat : c.At s slots store regs mach) :
    bridge.Follows (Meaning.eval c.findings meaning places store e) (c.steps regs code) mach
      (c.Valued s.slots.length regs mach s' ty o) := by
  cases hcode with
  | mk he hv =>
    exact follows_toValue (he.follows hc hl hat.given hat.running hat.stored h
      (hv.draws.le.trans hle)) hv hle

theorem goes_extend
    {Next : Scope Nat → List Meaning.Value → Exec (Option Value) → Machine → Prop} (ho : d.Open)
    (hle : (d.extend s code).Le D) (h : bridge.Follows r (c.steps regs code) mach Q)
    (hk : ∀ v regs' mach', Q v regs' mach' →
      bridge.Goes (k v) (c.resume F D (d.extend s code) b regs') mach' (c.Ends ret) Next) :
    bridge.Goes (r >>= k) (c.resume F D d b regs) mach (c.Ends ret) Next := by
  rw [resume_extend ho hle]
  exact .after h (fun _ => retains _) hk

theorem follows_test
    (h : bridge.Follows r (c.steps regs code) mach (c.Valued kept regs mach s .bool o))
    (hle : s.bump.Le c.final) :
    bridge.Follows r (c.steps regs (code ++ [.compare s.nextRegister .ne .i1 o (.int 0 .i1)])) mach
      fun v regs' mach' => c.Ran kept regs mach s.bump regs' mach' ∧
        ∃ b, v = .bool b ∧ c.eval regs' (.register s.nextRegister) = pure (.ofBool b) := by
  refine follows_extend h fun v regs' mach' hm => ?_
  obtain ⟨hran, w, hw, hstands⟩ := hm
  cases hstands with
  | @bool b =>
    have hcmp : compare .ne (.int (if b then 1 else 0)) (.int (wrap 0 .i1)) = .ok (.ofBool b) := by
      cases b <;> rfl
    obtain ⟨hran', heval⟩ := hran.running.assign hle (.ofBool b)
    exact ⟨_, mach', steps_compare hw rfl hcmp, hran.trans hran', b, rfl, heval⟩

theorem goes_next (ho : d.Open)
    (hnew : ∀ slot ∈ later, ∃ id ∈ ids, declared.lookup id = some slot.address) (hb : budget ≤ b)
    (hl : rule places (slots ++ later)) (hat : c.At d.supply (slots ++ later) store regs mach) :
    bridge.Goes (.ok (.next places store)) (c.resume F D d b regs) mach (c.Ends ret)
      (c.Continues F D declared ids slots budget d rule) :=
  .next rfl fun _ => ⟨b, regs, later, rfl, hb, ho, hnew, hl, hat⟩

theorem goes_declared (ho : d.Open)
    (hl : c.Located names storage places slots) (hlen : store.length = slots.length)
    (hdeclared : ty.Declared c.findings.symbols)
    (hr : declared.lookup decl.node.id = some slot.address) (hty : slot.ty = ty)
    (hdirect : slot.byReference = false) (hb : budget ≤ b)
    (hat' : c.At s (slots ++ [slot]) (store ++ [v]) regs mach') :
    bridge.Goes (.ok (.next (places.define decl.name store.length) (store ++ [v])))
      (c.resume F D (d.extend s code) b regs) mach' (c.Ends ret)
      (c.Continues F D declared (Stmt.declare decl).declIds slots budget (d.extend s code)
        (c.Located (names.define decl.name ⟨ty, decl.isMutable, false⟩)
          (storage.define decl.name slot))) := by
  refine goes_next (ho.extend s code) ?_ hb ?_ hat'
  · intro slot' hm
    rw [List.mem_singleton.mp hm]
    exact ⟨_, List.mem_singleton_self _, hr⟩
  · rw [hlen]
    exact hl.define decl.name hdeclared hty hdirect

theorem goes_on (ho : d.Open) (hb : budget ≤ b) (hl : rule places slots)
    (hat : c.At d.supply slots store regs mach) :
    bridge.Goes (.ok (.next places store)) (c.resume F D d b regs) mach (c.Ends ret)
      (c.Continues F D declared ids slots budget d rule) := by
  rw [← List.append_nil slots] at hl hat
  exact .next rfl fun _ => ⟨b, regs, [], rfl, hb, ho, nofun, hl, hat⟩

/-! ### Branches -/

theorem getElem?_closeArm (ho : d.Open) (next last : Nat) : ∃ blk, d.blocks[d.current]? = some blk ∧
    (d.closeArm next last).blocks[d.current]? =
      some { blk with terminator := some (.jump last) } := by
  obtain ⟨blk, hblk, hopen⟩ := ho
  have hterm : d.isTerminated = false := by simp [Draft.isTerminated, hblk, hopen]
  refine ⟨blk, hblk, ?_⟩
  simp [Draft.closeArm, Draft.terminateIfOpen, hterm, Draft.terminate, Draft.enter,
    List.getElem?_modify_eq, hblk]

theorem getElem?_openBranch_current (ho : d.Open) (o : Operand) :
    ∃ blk, d.blocks[d.current]? = some blk ∧ (d.openBranch o).blocks[d.current]? =
      some { blk with terminator := some (.branch o d.blocks.length (d.blocks.length + 1)) } := by
  have hlt := ho.lt
  obtain ⟨blk, hblk, -⟩ := ho
  refine ⟨blk, hblk, ?_⟩
  simp only [Draft.openBranch, Draft.addBlock, Draft.bumpLabel, Draft.terminate, Draft.enter,
    List.append_assoc, List.getElem?_modify_eq, List.getElem?_append_left hlt, hblk]
  rfl

theorem goes_arm (hc : c.Code F D)
    (h : bridge.Goes r x mach (c.Ends ret) (c.Continues F D declared ids slots (budget + 1) d1 rule))
    (hids : ids ⊆ ids') (hclosed : (d1.closeArm next d'.current).Le D)
    (hmerge : d'.blocks[d'.current]? = some ⟨k, label, [], none⟩) (hpos : 0 < d'.current)
    (hle : d'.Le D) (hsupply : d1.supply.Le d'.supply) (hl : c.Located names storage places slots) :
    bridge.Goes (r >>= fun o => pure (o.leave places)) x mach (c.Ends ret)
      (c.Continues F D declared ids' slots budget d'
        (c.Located names storage)) := by
  refine h.leave fun places' store y s hn => ?_
  obtain ⟨b, regs, later, rfl, hb, ho, hnew, -, hat⟩ := hn
  obtain ⟨b, rfl⟩ := Nat.exists_eq_add_of_le' (Nat.le_trans (Nat.le_add_left 1 budget) hb)
  obtain ⟨blk, hblk, hend⟩ := getElem?_closeArm ho next d'.current
  refine ⟨c.resume F D d' b regs, ?_, b, regs, later, rfl, by omega, ⟨_, hmerge, rfl⟩,
    fun slot hm => ?_, hl.append later, hat.skip hsupply⟩
  · rw [resume_end hblk hend hclosed, finish_jump, runBlocks_eq hc hmerge hpos hle]
  · obtain ⟨id, hid, hr⟩ := hnew slot hm
    exact ⟨id, hids hid, hr⟩

theorem goes_branch {cond : Expr} (hset : c.Setting F D declared meaning) (ho : d.Open)
    (hl : c.Located names storage places slots) (hcond : Typed c.findings names cond .bool)
    (hv : ValueCode (.ofFindings c.findings) storage cond d.supply o code s)
    (h1 : ((d.extend s.bump (code ++ [.compare s.nextRegister .ne .i1 o (.int 0 .i1)])).openBranch
      (.register s.nextRegister)).Grows d1)
    (h2 : (d1.closeArm (d.blocks.length + 1) (d.blocks.length + 2)).Grows d2)
    (hle : (d2.closeArm (d.blocks.length + 2) (d.blocks.length + 2)).Le D)
    (hat : c.At d.supply slots store regs mach) (hb : budget + (j1 + j2 + 2) ≤ b)
    (hthen : ∀ {b' regs' mach'}, budget + 1 + j1 ≤ b' →
      c.At s.bump slots store regs' mach' → bridge.Goes r1 (c.resume F D
        ((d.extend s.bump (code ++ [.compare s.nextRegister .ne .i1 o (.int 0 .i1)])).openBranch
          (.register s.nextRegister)) b' regs') mach' (c.Ends ret)
        (c.Continues F D declared ids1 slots (budget + 1) d1 rule1))
    (helse : ∀ {b' regs' mach'}, budget + 1 + j2 ≤ b' →
      c.At (d1.closeArm (d.blocks.length + 1) (d.blocks.length + 2)).supply slots store regs' mach' →
      bridge.Goes r2 (c.resume F D
        (d1.closeArm (d.blocks.length + 1) (d.blocks.length + 2)) b' regs') mach' (c.Ends ret)
        (c.Continues F D declared ids2 slots (budget + 1) d2 rule2))
    (hids1 : ids1 ⊆ ids) (hids2 : ids2 ⊆ ids) :
    bridge.Goes (Meaning.eval c.findings meaning places store cond >>= fun v => match v with
        | .bool true => r1 >>= fun o => pure (o.leave places)
        | _ => r2 >>= fun o => pure (o.leave places)) (c.resume F D d b regs) mach (c.Ends ret)
      (c.Continues F D declared ids slots budget
        (d2.closeArm (d.blocks.length + 2) (d.blocks.length + 2)) (c.Located names storage)) := by
  have hbranches := hv.branches ho
  have hle2 := (Draft.le_closeArm h2.lt _ _).trans hle
  have hleElse := h2.le.trans hle2
  have hle1 := (Draft.le_closeArm h1.lt _ _).trans hleElse
  have hleThen := h1.le.trans hle1
  have hopen := ho.extend s.bump (code ++ [.compare s.nextRegister .ne .i1 o (.int 0 .i1)])
  have hle0 := (hopen.grows_openBranch (.register s.nextRegister)).le.trans hleThen
  have hfinal : s.bump.Le c.final := by
    rw [hset.code.final]
    exact hle0.supply
  have htest := follows_test (hv.follows hset.sound hl hcond (Supply.Le.bump.trans hfinal) hat) hfinal
  obtain ⟨labelMerge, hmerge⟩ := hbranches.merge h1 h2 (d.blocks.length + 2)
  obtain ⟨labelElse, harm⟩ := hbranches.arm h1 1 (by omega) (by omega) (d.blocks.length + 1)
    (d.blocks.length + 2)
  obtain ⟨labelThen, hstart⟩ := hbranches.arms 0 (by omega)
  obtain ⟨blk, hblk, hend⟩ := getElem?_openBranch_current hopen (.register s.nextRegister)
  refine goes_extend ho hle0 htest fun v regs' mach' hm => ?_
  obtain ⟨hran, cond, rfl, heval⟩ := hm
  have hat' := hat.ran hran
  obtain ⟨b, rfl⟩ := Nat.exists_eq_add_of_le' (show 1 ≤ b by omega)
  rw [resume_end hblk hend hleThen, finish_branch heval, Draft.length_extend]
  have hsupply1 := (Draft.le_closeArm h1.lt (d.blocks.length + 1) (d.blocks.length + 2)).supply
  have hsupply2 := (Draft.le_closeArm h2.lt (d.blocks.length + 2) (d.blocks.length + 2)).supply
  have hpos : 0 < d.blocks.length := Nat.lt_of_le_of_lt (Nat.zero_le _) ho.lt
  cases cond with
  | true =>
    have hstarts := hbranches.starts
    have hgoes := hthen (show budget + 1 + j1 ≤ b by omega) hat'
    rw [← runBlocks_eq hset.code (by rw [hstarts]; exact hstart) (by rw [hstarts]; exact hpos) hleThen,
      hstarts] at hgoes
    exact goes_arm hset.code hgoes hids1 hleElse hmerge (Nat.succ_pos _) hle
      (hsupply1.trans (h2.supply.trans hsupply2)) hl
  | false =>
    have hskip : s.bump.Le (d1.closeArm (d.blocks.length + 1) (d.blocks.length + 2)).supply :=
      (show s.bump.Le d1.supply from h1.supply).trans hsupply1
    have hgoes := helse (show budget + 1 + j2 ≤ b by omega) (hat'.skip hskip)
    rw [← runBlocks_eq hset.code harm (Nat.succ_pos _) hleElse] at hgoes
    exact goes_arm hset.code hgoes hids2 hle hmerge (Nat.succ_pos _) hle hsupply2 hl

theorem stands_void {symbols : Symbols} (h : Stands symbols .void v w) : v = .unit ∧ w = .null := by
  cases h
  exact ⟨rfl, rfl⟩

theorem goes_skip (places : Scope Nat) (ho : d.Open)
    (hb : budget + 0 ≤ b) (hat : c.At d.supply slots store regs mach) :
    bridge.Goes (.ok (.next places store)) (c.resume F D d b regs) mach (c.Ends ret)
      (c.Continues F D declared [] slots budget d fun _ _ => True) :=
  goes_on ho hb True.intro hat

def Unused (declared : List (Nat × Register)) (ids : List Nat) (slots : List Slot) : Prop :=
  ids.Nodup ∧ ∀ id ∈ ids, ∀ r, declared.lookup id = some r → r ∉ slots.map Slot.address

theorem Unused.left (h : Unused declared (ids ++ ids') slots) : Unused declared ids slots :=
  ⟨(List.nodup_append.mp h.1).1, fun id hid => h.2 id (List.mem_append_left _ hid)⟩

theorem Unused.right (h : Unused declared (ids ++ ids') slots) : Unused declared ids' slots :=
  ⟨(List.nodup_append.mp h.1).2.1, fun id hid => h.2 id (List.mem_append_right _ hid)⟩

mutual

/-- The code of a statement does what the statement means. -/
theorem StmtCode.goes (hset : c.Setting F D declared meaning) {d d' : Draft}
    (ho : d.Open) (hl : c.Located names storage places slots)
    (hat : c.At d.supply slots store regs mach) :
    StmtCode ⟨.ofFindings c.findings, declared⟩ storage stmt d storage' d' →
    StmtTyped c.findings ret names stmt names' → d'.Le D → budget + stmt.jumps ≤ b →
    Unused declared stmt.declIds slots →
    bridge.Goes (Meaning.exec c.findings meaning places store stmt) (c.resume F D d b regs) mach
      (c.Ends ret) (c.Continues F D declared stmt.declIds slots budget d'
        (c.Located names' storage'))
  | .declare hslot ht hinit' hv, .declare hty hdeclared _ hinit _, hle, hb, hnew => by
    obtain ⟨hr, hslotTy, hdirect⟩ := declaredSlot_eq hslot hty
    obtain ⟨k, t', hk, hlt⟩ := hset.homes.home _ _ hr
    have hfresh := hnew.2 _ (List.mem_singleton_self _) _ hr
    have hv := hv.follows hset.sound hl (hinit _ hinit') (hset.code.final ▸ hle.supply) hat
    rw [Meaning.exec, hinit']
    refine goes_extend ho hle (follows_extend hv fun v regs' mach' hm => ?_)
      fun v regs' mach' hm => goes_declared ho hl hat.stored.length hdeclared hr hslotTy hdirect hb hm
    obtain ⟨mach'', hsteps, hat'⟩ := (hat.ran hm.1).declare hk hlt hdirect hfresh (hslotTy ▸ hm.2)
    exact ⟨regs', mach'', hsteps, hat'⟩
  | .declareZero hslot ht hinit', .declare hty hdeclared _ _ _, hle, hb, hnew => by
    obtain ⟨hr, hslotTy, hdirect⟩ := declaredSlot_eq hslot hty
    obtain ⟨k, t', hk, hlt⟩ := hset.homes.home _ _ hr
    have hfresh := hnew.2 _ (List.mem_singleton_self _) _ hr
    subst hslotTy
    obtain ⟨w, hw, hstands⟩ := hset.sound.zero _ _ hdeclared ht
    obtain ⟨mach'', hsteps, hat'⟩ := hat.declare hk hlt hdirect hfresh
      (show c.Denotes regs (.zero _) _ _ from ⟨w, hw, hstands⟩)
    rw [Meaning.exec, hinit', Meaning.typeAt, hty, Option.getD_some]
    exact goes_extend ho hle (.ok hsteps fun _ => hat') fun v regs' mach' hm =>
      goes_declared ho hl hat.stored.length hdeclared hr rfl hdirect hb hm
  | .assign hslot hv ha ht, .assign hname hrec hvalue, hle, hb, _ => by
    have hstorage := lookup?_of_storage hslot
    obtain ⟨slot', hslot', hslotTy⟩ := hl.bound _ _ hname
    cases hstorage.symm.trans hslot'
    obtain ⟨i, hi, hslots, href⟩ := hl.located _ _ _ hname hstorage
    have hdirect := href.trans hrec
    cases ha with
    | reference h => cases h.symm.trans hdirect
    | direct =>
      have hv := hv.follows hset.sound hl hvalue (hset.code.final ▸ hle.supply) hat
      rw [Meaning.exec, hi]
      refine goes_extend ho hle (follows_extend hv fun v regs' mach' hm => ?_)
        fun v regs' mach' hm => goes_on (ho.extend _ _) hb hl hm
      obtain ⟨mach'', hsteps, hat'⟩ := (hat.ran hm.1).assign hslots hdirect (hslotTy ▸ hm.2)
      exact ⟨regs', mach'', hsteps, hat'⟩
  | .branch hv hct, .branch hcond ht, hle, hb, hnew => by
    rw [Stmt.declIds] at hnew ⊢
    have h1 := hct.grows (hv.branches ho).lt
    have hopen := (hv.branches ho).open_else h1 (d.blocks.length + 2)
    have hle1 := (Draft.le_closeArm h1.lt _ _).trans ((Draft.le_closeArm hopen.lt _ _).trans hle)
    rw [Meaning.exec]
    exact goes_branch hset ho hl hcond hv h1 (.refl hopen.lt) hle hat hb
      (fun hb' hat' => hct.goes hset ((ho.extend _ _).openBranch _) hl.push hat' ht hle1 hb' hnew)
      (goes_skip places hopen) (List.Subset.refl _) (List.nil_subset _)
  | .branchElse hv hct hce, .branchElse hcond ht he, hle, hb, hnew => by
    rw [Stmt.declIds] at hnew ⊢
    have h1 := hct.grows (hv.branches ho).lt
    have hopen := (hv.branches ho).open_else h1 (d.blocks.length + 2)
    have h2 := hce.grows hopen.lt
    have hle2 := (Draft.le_closeArm h2.lt _ _).trans hle
    have hle1 := (Draft.le_closeArm h1.lt _ _).trans (h2.le.trans hle2)
    rw [Meaning.exec]
    exact goes_branch hset ho hl hcond hv h1 h2 hle hat hb
      (fun hb' hat' => hct.goes hset ((ho.extend _ _).openBranch _) hl.push hat' ht hle1 hb' hnew.left)
      (fun hb' hat' => hce.goes hset hopen hl.push hat' he hle2 hb' hnew.right)
      (List.subset_append_left _ _) (List.subset_append_right _ _)
  | .retNone, .retNone hvoid, hle, _, _ => by
    rw [Meaning.exec, resume_terminate ho hle]
    refine fun _ => ⟨none, mach, rfl, hat.kept, ?_⟩
    rw [Returned, if_pos hvoid]
    exact ⟨rfl, fun w hw => by cases hw⟩
  | .ret hty ht hv, .ret hvalue, hle, _, _ => by
    have hle1 := ((ho.extend _ _).grows_terminate _).le.trans hle
    rw [Meaning.exec]
    refine goes_extend ho hle1 (hv.follows hset.sound hl hvalue (hset.code.final ▸ hle.supply) hat)
      fun v regs' mach' hm => ?_
    obtain ⟨hran, w, hw, hstands⟩ := hm
    rw [resume_terminate (ho.extend _ _) hle, finish_ret hw]
    refine fun _ => ⟨some w, mach', rfl, (hat.ran hran).kept, ?_⟩
    rw [Returned]
    split
    · next hvoid =>
      obtain ⟨hv, hw⟩ := stands_void (hvoid ▸ hstands)
      exact ⟨hv, fun w' hw' => (Option.some.inj hw').symm.trans hw⟩
    · exact ⟨w, rfl, hstands⟩
  | .expr hv, .expr hvalue, hle, hb, _ => by
    rw [Meaning.exec]
    refine goes_extend ho hle (hv.follows hset.sound hl hvalue (hset.code.final ▸ hle.supply) hat)
      fun v regs' mach' hm => goes_on (ho.extend _ _) hb hl (hat.ran hm.1)

theorem StmtsCode.goes (hset : c.Setting F D declared meaning) {d d' : Draft}
    (ho : d.Open)
    (hl : c.Located names storage places slots) (hat : c.At d.supply slots store regs mach) :
    StmtsCode ⟨.ofFindings c.findings, declared⟩ storage stmts d d' →
    StmtsTyped c.findings ret names stmts → d'.Le D → budget + jumpsOf stmts ≤ b →
    Unused declared (declIdsOf stmts) slots →
    bridge.Goes (Meaning.execStmts c.findings meaning places store stmts) (c.resume F D d b regs) mach
      (c.Ends ret) (c.Continues F D declared (declIdsOf stmts) slots budget d' fun _ _ => True)
  | .nil, _, _, hb, _ => goes_on ho hb True.intro hat
  | @StmtsCode.cons _ _ _ stmt rest _ _ _ hs hsrest, .cons h hrest, hle, hb, hnew => by
    rw [declIdsOf] at hnew ⊢
    rw [jumpsOf] at hb
    have hreopen : d.reopen = d := by
      obtain ⟨blk, hblk, hopen⟩ := ho
      simp [Draft.reopen, Draft.isTerminated, hblk, hopen]
    have ho' := hreopen.symm ▸ ho
    have hle1 := (hsrest.grows (hs.grows ho').lt).le.trans hle
    have hstmt := hs.goes hset ho' hl (hreopen.symm ▸ hat) h hle1
      (show budget + jumpsOf rest + stmt.jumps ≤ b by omega) hnew.left
    rw [hreopen] at hstmt
    rw [Meaning.execStmts]
    refine hstmt.seq fun places' store' y mach' hn => ?_
    obtain ⟨b', regs', later, rfl, hb', hopen, hlater, hl', hat'⟩ := hn
    have hnew2 : Unused declared (declIdsOf rest) (slots ++ later) := by
      refine ⟨hnew.right.1, fun id hid r hr hm => ?_⟩
      rw [List.map_append, List.mem_append] at hm
      rcases hm with hm | hm
      · exact hnew.right.2 id hid r hr hm
      · obtain ⟨slot, hslot, rfl⟩ := List.mem_map.mp hm
        obtain ⟨id', hid', hr'⟩ := hlater slot hslot
        exact (List.nodup_append.mp hnew.1).2.2 id' hid' id hid (hset.homes.distinct _ _ _ hr' hr)
    refine (hsrest.goes hset hopen hl' hat' hrest hle hb' hnew2).mono fun places'' store'' y mach'' hn => ?_
    obtain ⟨b'', regs'', later', rfl, hb'', hopen', hlater', -, hat''⟩ := hn
    rw [List.append_assoc] at hat''
    refine ⟨b'', regs'', later ++ later', rfl, hb'', hopen', fun slot hm => ?_, True.intro, hat''⟩
    rcases List.mem_append.mp hm with hm | hm
    · obtain ⟨id, hid, hr⟩ := hlater slot hm
      exact ⟨id, List.mem_append_left _ hid, hr⟩
    · obtain ⟨id, hid, hr⟩ := hlater' slot hm
      exact ⟨id, List.mem_append_right _ hid, hr⟩

theorem BlockCode.goes (hset : c.Setting F D declared meaning) {d d' : Draft}
    (ho : d.Open)
    (hl : c.Located names storage places slots) (hat : c.At d.supply slots store regs mach) :
    BlockCode ⟨.ofFindings c.findings, declared⟩ storage blk d d' →
    BlockTyped c.findings ret names blk → d'.Le D → budget + blk.jumps ≤ b →
    Unused declared blk.declIds slots →
    bridge.Goes (Meaning.execBlock c.findings meaning places store blk) (c.resume F D d b regs) mach
      (c.Ends ret) (c.Continues F D declared blk.declIds slots budget d' fun _ _ => True)
  | .mk hs, .mk _ h, hle, hb, hnew => hs.goes hset ho hl hat h hle hb hnew

end

end

end StructLang.Ssa
