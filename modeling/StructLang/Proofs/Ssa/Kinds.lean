import StructLang.Proofs.Ssa.Structure
import StructLang.Proofs.VoidValues

/-!
# What registers hold

The type of a register that holds an address does not say what stands there. A kind does: a place for a
value of a type, in a slot that the invocation made itself or anywhere, or the slot that holds the
address of the receiver. In the code of a typed program every instruction takes operands of the kinds
that it needs, and values are stored only into places that the invocation made itself: a receiver cannot
be assigned. Every slot is for an address or for a value of a declared type, so that it has a zero value
to start with. Where nothing of type `void` is passed or returned, no operand is of this type either.
-/

namespace StructLang.Ssa

/-- What an operand is. -/
inductive Kind where
  | value (ty : Ty)
  /-- The address of a place for a value; an own one is in a slot that the invocation made. -/
  | place (own : Bool) (ty : Ty)
  /-- The address of the slot that holds the address of the receiver, which is of a type. -/
  | holder (ty : Ty)

/-- What the kinds of a function's operands depend on. -/
structure KindEnv where
  module : Module
  symbols : Symbols
  params : List Param
  slots : List Instr
  /-- The type of the receiver, whose address the first slot holds. -/
  receiver : Option Ty
  /-- Nothing of type `void` is stored, passed or returned. -/
  strict : Prop

def KindEnv.Declares (c : KindEnv) (ty : Ty) : Prop :=
  ∃ source, StructLang.Ty.Declared c.symbols source ∧ Ty.ofSource source = .ok ty

variable {c : KindEnv}

def Instr.IsComputation : Instr → Prop
  | arith .. | compare .. | cast .. | call .. => True
  | alloca .. | load .. | store .. | field .. => False

mutual

/-- An operand has a kind after some instructions of its block. -/
inductive OperandKind (c : KindEnv) : List Instr → Operand → Kind → Prop where
  | slot {before r ty} (h : .alloca r ty ∈ c.slots) (hr : c.receiver.isSome = true → r ≠ 0) :
      OperandKind c before (.register r) (.place true ty)
  | holder {before ty} (h : c.receiver = some ty) : OperandKind c before (.register 0) (.holder ty)
  | result {before pre i post r k} (h : before = pre ++ i :: post) (hr : i.dest? = some r)
      (hk : ResultKind c pre i k) : OperandKind c before (.register r) k
  | int {before v ty} (h : ty.isInt = true) : OperandKind c before (.int v ty) (.value ty)
  | float {before v ty} (h : ty.isFloat = true) : OperandKind c before (.float v ty) (.value ty)
  | zero {before ty} (h : c.Declares ty) : OperandKind c before (.zero ty) (.value ty)
  | param {before index p} (h : c.params[index]? = some p) (hp : p.byReference = false) :
      OperandKind c before (.param index) (.value p.ty)
  | reference {before index p ty} (h : c.params[index]? = some p) (hp : p.byReference = true)
      (hty : Ty.ofSource p.source = .ok ty) : OperandKind c before (.param index) (.place false ty)
  | global {before name} (h : c.strict → (c.module.string? name).isSome = true) :
      OperandKind c before (.global name) (.value .ptr)

/-- What an instruction assigns has a kind, after some instructions of its block. -/
inductive ResultKind (c : KindEnv) : List Instr → Instr → Kind → Prop where
  | receiver {before r a ty} (ha : OperandKind c before a (.holder ty)) :
      ResultKind c before (.load r .ptr a) (.place false ty)
  | load {before r ty a own} (ha : OperandKind c before a (.place own ty)) :
      ResultKind c before (.load r ty a) (.value ty)
  | field {before r struct base index own d ty}
      (hb : OperandKind c before base (.place own (.struct struct)))
      (hd : c.module.struct? struct = some d) (hi : d.fields[index]? = some ty) :
      ResultKind c before (.field r struct base index) (.place own ty)
  | computed {before i} (hi : i.IsComputation) : ResultKind c before i (.value i.resultTy)

end

/-- Arguments have the kinds that a signature asks for; a receiver is passed by address. -/
inductive ArgsKinded (c : KindEnv) (before : List Instr) :
    Bool → List StructLang.Ty → List (Ty × Operand) → Prop where
  | nil {receiver} : ArgsKinded c before receiver [] []
  | receiver {ty ts t a own args} (ht : Ty.ofSource ty = .ok t)
      (ha : OperandKind c before a (.place own t)) (hargs : ArgsKinded c before false ts args) :
      ArgsKinded c before true (ty :: ts) ((.ptr, a) :: args)
  | value {ty ts t v args} (ht : Ty.ofSource ty = .ok t) (hv : OperandKind c before v (.value t))
      (hargs : ArgsKinded c before false ts args) :
      ArgsKinded c before false (ty :: ts) ((t, v) :: args)

/-- An instruction takes operands of the kinds that it needs. -/
inductive InstrKinded (c : KindEnv) (before : List Instr) : Instr → Prop where
  | load {dest ty a own} (ha : OperandKind c before a (.place own ty)) :
      InstrKinded c before (.load dest ty a)
  | receiver {dest a ty} (ha : OperandKind c before a (.holder ty)) :
      InstrKinded c before (.load dest .ptr a)
  | store {ty v a} (hv : OperandKind c before v (.value ty))
      (ha : OperandKind c before a (.place true ty)) : InstrKinded c before (.store ty v a)
  | hold {v a ty own} (hv : OperandKind c before v (.place own ty))
      (ha : OperandKind c before a (.holder ty)) : InstrKinded c before (.store .ptr v a)
  | arith {dest op ty l r} (hl : OperandKind c before l (.value ty))
      (hr : OperandKind c before r (.value ty))
      (hop : (if op.isFloat then ty.isFloat else ty.isInt) = true) :
      InstrKinded c before (.arith dest op ty l r)
  | compare {dest pred ty l r} (hl : OperandKind c before l (.value ty))
      (hr : OperandKind c before r (.value ty))
      (hpred : (if pred.isFloat then ty.isFloat else ty.isInt) = true) :
      InstrKinded c before (.compare dest pred ty l r)
  | cast {dest op v source target} (hv : OperandKind c before v (.value source))
      (hop : op.admits source target = true) : InstrKinded c before (.cast dest op v source target)
  | field {dest struct base index own d ty}
      (hb : OperandKind c before base (.place own (.struct struct)))
      (hd : c.module.struct? struct = some d) (hi : d.fields[index]? = some ty) :
      InstrKinded c before (.field dest struct base index)
  | call {dest ret params args name ts callee} (hr : c.symbols.resolve name ts = .ok callee)
      (hret : Ty.ofSource callee.ret = .ok ret) (hdest : dest.isSome = (ret != .void))
      (hargs : ArgsKinded c before callee.hasReceiver ts args)
      (hparams : paramTypes callee = .ok params) (hts : c.strict → ∀ ty ∈ ts, ty ≠ .void) :
      InstrKinded c before (.call dest callee.linkage ret params args)

def Instr.Holdable (symbols : Symbols) (i : Instr) : Prop :=
  ∃ r t, i = .alloca r t ∧ (t = .ptr ∨ ∃ ty, StructLang.Ty.Declared symbols ty ∧ Ty.ofSource ty = .ok t)

/-- All slots of a supply are for addresses or for values of declared types. -/
def Supply.Holdable (symbols : Symbols) (s : Supply) : Prop := ∀ i ∈ s.slots, i.Holdable symbols

def KindEnv.Houses (c : KindEnv) (i : Instr) : Prop :=
  i.Holdable c.symbols ∧ (c.strict → ∀ r, i ≠ .alloca r .void)

/-- Code that keeps to the kinds and whose slots have a zero value to start with. -/
def housing (c : KindEnv) : Discipline := ⟨InstrKinded c, c.Houses⟩

theorem OperandKind.append (h : OperandKind c before v k) (code : List Instr) :
    OperandKind c (before ++ code) v k := by
  cases h with
  | slot h hr => exact .slot h hr
  | holder h => exact .holder h
  | result h hr hk => exact .result (by rw [h, List.append_assoc]; rfl) hr hk
  | int h => exact .int h
  | float h => exact .float h
  | zero h => exact .zero h
  | param h hp => exact .param h hp
  | reference h hp hty => exact .reference h hp hty
  | global h => exact .global h

theorem OperandKind.anywhere (h : OperandKind c [] v k) : OperandKind c before v k :=
  h.append before

theorem OperandKind.last (hk : ResultKind c before i k) (hr : i.dest? = some r) :
    OperandKind c (before ++ [i]) (.register r) k :=
  .result rfl hr hk

def KindEnv.Past (c : KindEnv) (s : Supply) : Prop := c.receiver.isSome = true → 0 < s.nextRegister

theorem KindEnv.Past.draws (h : c.Past s) (hd : Draws s code s') : c.Past s' :=
  fun hr => Nat.lt_of_lt_of_le (h hr) hd.registers

theorem OperandKind.allocated (hp : c.Past s) (hw : (s.allocate ty).slots ⊆ c.slots) :
    OperandKind c before (.register s.nextRegister) (.place true ty) :=
  .slot (hw (by simp [Supply.allocate])) fun hr => Nat.ne_of_gt (hp hr)

theorem Emitted.made (h : ty = .ptr ∨ c.Declares ty) (hne : c.strict → ty ≠ .void) :
    Emitted (housing c) before s [] (s.allocate ty) := by
  refine .allocate ⟨⟨_, _, rfl, h⟩, fun hc r heq => hne hc ?_⟩
  cases heq
  rfl

def Supply.Within (c : KindEnv) (s : Supply) : Prop :=
  s.slots ⊆ c.slots ∧ (c.strict → ∀ k ∈ s.strings, (c.module.string? k.name).isSome = true)

theorem Draws.within (h : Draws s code s') (hw : s'.Within c) : s.Within c :=
  ⟨h.subset hw.1, fun hc k hk => hw.2 hc k (h.strings.subset hk)⟩

/-! ## Lowered expressions -/

def ValueKinded (c : KindEnv) (before : List Instr) (v : Operand) (ty : StructLang.Ty) : Prop :=
  ∀ t, Ty.ofSource ty = .ok t → OperandKind c before v (.value t)

def PlaceKinded (c : KindEnv) (before : List Instr) (a : Operand) (ty : StructLang.Ty) : Prop :=
  ∀ t, Ty.ofSource ty = .ok t → ∃ own, OperandKind c before a (.place own t)

def Lowered.Kinded (c : KindEnv) (before : List Instr) (ty : StructLang.Ty) : Lowered → Prop
  | .value ty' v => ty' = ty ∧ ValueKinded c before v ty
  | .place ty' a => ty' = ty ∧ PlaceKinded c before a ty

theorem PlaceKinded.append (h : PlaceKinded c before a ty) (code : List Instr) :
    PlaceKinded c (before ++ code) a ty := by
  intro t ht
  obtain ⟨own, ha⟩ := h t ht
  exact ⟨own, ha.append code⟩

theorem valueKinded_of_eq (ht : Ty.ofSource ty = .ok t) (h : OperandKind c before v (.value t)) :
    ValueKinded c before v ty := by
  intro t' ht'
  cases ht.symm.trans ht'
  exact h

theorem ToValue.kinded (h : ToValue s low v code s') (hlow : low.Kinded c before ty) :
    Leaves (housing c) before s code s' fun before => ValueKinded c before v ty := by
  cases h with
  | value => exact .nil rfl hlow.2
  | load ht =>
    obtain ⟨rfl, ha⟩ := hlow
    obtain ⟨own, ha⟩ := ha _ ht
    exact .assign (.load ha) (valueKinded_of_eq ht (.last (.load ha) rfl))

theorem ToAddress.kinded (h : ToAddress s low v code s') (hp : c.Past s) (hw : s'.Within c)
    (hd : ty.Declared c.symbols) (hne : ty ≠ .void) (hlow : low.Kinded c before ty) :
    Leaves (housing c) before s code s' fun before => PlaceKinded c before v ty := by
  cases h with
  | place => exact .nil rfl hlow.2
  | @spill _ _ t ht =>
    obtain ⟨rfl, hv⟩ := hlow
    have hslot : ∀ before, OperandKind c before (.register s.nextRegister) (.place true t) :=
      fun _ => .allocated hp hw.1
    refine ⟨(Emitted.made (.inr ⟨_, hd, ht⟩) fun _ => ofSource_ne_void ht hne).append
      (.single (.store ?_ (hslot _)) rfl), fun t' ht' => ?_⟩
    · simpa using hv t ht
    · cases ht.symm.trans ht'
      exact ⟨true, hslot _⟩

theorem CastCode.kinded (h : CastCode v source target s w code s')
    (hv : ValueKinded c before v source) :
    Leaves (housing c) before s code s' fun before => ValueKinded c before w target := by
  cases h with
  | same heq =>
    subst heq
    exact .nil rfl hv
  | test hne hs hint hbool =>
    subst hbool
    exact .assign (.compare (hv _ hs) (.int (isInt_of_ofSource hs hint)) (isInt_of_ofSource hs hint))
      (valueKinded_of_eq rfl (.last (.computed True.intro) rfl))
  | convert hne hs ht htest hop =>
    exact .assign (.cast (hv _ hs) (admits_of_ofSource hne hs ht hop))
      (valueKinded_of_eq ht (.last (.computed True.intro) rfl))

theorem CallCode.kinded (h : CallCode callee params args s v code s')
    (hr : c.symbols.resolve name ts = .ok callee)
    (hargs : ArgsKinded c before callee.hasReceiver ts args)
    (hparams : paramTypes callee = .ok params) (hts : c.strict → ∀ ty ∈ ts, ty ≠ .void) :
    Leaves (housing c) before s code s' fun before => ValueKinded c before v callee.ret := by
  cases h with
  | void hret => exact ⟨.single (.call hr hret rfl hargs hparams hts) rfl,
      valueKinded_of_eq hret (.zero ⟨.void, .of_scalar (by simp [StructLang.Ty.Proper]) rfl, rfl⟩)⟩
  | result hret hne =>
    exact .assign (.call hr hret (by simpa using hne) hargs hparams hts)
      (valueKinded_of_eq hret (.last (.computed True.intro) rfl))

theorem unaryInstr_kinded (hm : Typing.meets ty (Typing.unaryDemand op) = true)
    (ht : Ty.ofSource ty = .ok t) (hv : OperandKind c before v (.value t)) :
    InstrKinded c before (unaryInstr op t v r) ∧
      OperandKind c (before ++ [unaryInstr op t v r]) (.register r) (.value t) := by
  cases op with
  | neg =>
    cases hf : t.isFloat with
    | true =>
      simp only [unaryInstr, hf, if_true]
      exact ⟨.arith (.float hf) hv hf, .last (.computed True.intro) rfl⟩
    | false =>
      have hint : t.isInt = true := by cases ty <;> cases hm <;> cases ht <;> cases hf <;> rfl
      simp only [unaryInstr, hf, Bool.false_eq_true, if_false]
      exact ⟨.arith (.int hint) hv hint, .last (.computed True.intro) rfl⟩
  | not =>
    have hbool : t = .i1 := by
      cases ty <;> cases hm
      cases ht
      rfl
    subst hbool
    exact ⟨.arith hv (.int rfl) rfl, .last (.computed True.intro) rfl⟩
  | bitNot =>
    have hint := isInt_of_ofSource ht hm
    exact ⟨.arith hv (.int hint) hint, .last (.computed True.intro) rfl⟩

/-! ## Names -/

def Slot.Kinded (c : KindEnv) (slot : Slot) : Prop :=
  ∃ t, Ty.ofSource slot.ty = .ok t ∧
    OperandKind c [] (.register slot.address) (if slot.byReference then .holder t else .place true t)

/-- Names in scope have slots of their kinds, and only a receiver is held by reference. -/
structure Sheltered (c : KindEnv) (f : Findings) (names : Scope Binding) (storage : Scope Slot) :
    Prop extends Fits Slot.ty f names storage where
  slots : ∀ name slot, storage.lookup? name = some slot → slot.Kinded c
  receivers : ∀ name b slot, names.lookup? name = some b → storage.lookup? name = some slot →
    slot.byReference = b.isReceiver

namespace Sheltered

theorem push (h : Sheltered c f names storage) : Sheltered c f names.push storage.push :=
  ⟨h.toFits.push, h.slots, h.receivers⟩

theorem empty (h : f.symbols.Sound) : Sheltered c f Scope.empty.push Scope.empty.push :=
  ⟨.empty h, nofun, nofun⟩

theorem define (h : Sheltered c f names storage) (name : String)
    (hd : b.ty.Declared f.symbols) (hty : slot.ty = b.ty) (hslot : slot.Kinded c)
    (href : slot.byReference = b.isReceiver) :
    Sheltered c f (names.define name b) (storage.define name slot) := by
  refine ⟨h.toFits.define name hd hty, fun other slot' hl => ?_, fun other b' slot' hb hl => ?_⟩
  · rw [Scope.lookup?_define] at hl
    split at hl
    · cases hl
      exact hslot
    · exact h.slots other slot' hl
  · rw [Scope.lookup?_define] at hb hl
    split at hl
    · next heq =>
      rw [if_pos heq] at hb
      cases hl
      cases hb
      exact href
    · next hne =>
      rw [if_neg hne] at hb
      exact h.receivers other b' slot' hb hl

end Sheltered

theorem SlotAddress.kinded (h : SlotAddress s slot a code s') (hs : slot.Kinded c) :
    Leaves (housing c) before s code s' fun before => PlaceKinded c before a slot.ty := by
  obtain ⟨t, ht, hslot⟩ := hs
  cases h with
  | direct href =>
    rw [href] at hslot
    refine .nil rfl fun t' ht' => ⟨true, ?_⟩
    cases ht.symm.trans ht'
    exact hslot.anywhere
  | reference href =>
    rw [href] at hslot
    refine .assign (.receiver hslot.anywhere) fun t' ht' => ⟨false, ?_⟩
    cases ht.symm.trans ht'
    exact .last (.receiver hslot.anywhere) rfl

/-! ## Expressions -/

def KindEnv.Knows (c : KindEnv) (f : Findings) : Prop :=
  c.symbols = f.symbols ∧ ∀ name d, f.symbols.struct? name = some d →
    ∃ s, c.module.struct? name = some s ∧ lowerStruct d = .ok s

theorem KindEnv.Knows.field (h : c.Knows f) (hd : f.symbols.struct? name = some d) {index : Nat}
    (hg : d.fields[index]? = some g) (ht : Ty.ofSource g.ty = .ok t) :
    ∃ s, c.module.struct? name = some s ∧ s.fields[index]? = some t := by
  obtain ⟨s, hs, hlower⟩ := h.2 name d hd
  have hfields := (lowerStruct_eq_ok hlower).2
  obtain ⟨hlt, rfl⟩ := List.getElem?_eq_some_iff.mp hg
  have hlt' : index < s.fields.length := hfields.length_eq ▸ hlt
  have ht' := hfields.get hlt hlt'
  refine ⟨s, hs, ?_⟩
  rw [List.getElem?_eq_getElem hlt']
  exact congrArg some (Except.ok.inj (ht'.symm.trans ht))

section

theorem Interned.mem (h : Interned text s name s') : ∃ k ∈ s'.strings, k.name = name := by
  cases h with
  | old h => exact ⟨_, List.mem_of_find?_eq_some h, rfl⟩
  | new => exact ⟨_, List.mem_append_right _ (List.mem_singleton_self _), rfl⟩

mutual

/-- The code of a typed expression keeps to the kinds. -/
theorem ExprCode.kinded (hk : c.Knows f) (hs : Sheltered c f names storage) {code : List Instr}
    (before : List Instr) :
    ExprCode (.ofFindings f) storage e s low code s' →
    Typed f names e ty → (c.strict → NoVoid f.types e.callArgs) → c.Past s → s'.Within c →
      Leaves (housing c) before s code s' fun before => low.Kinded c before ty
  | .integer hty ht, .integer hn, _, _, _ => by
    cases TypeTable.typeOf_unique hty hn
    exact .nil rfl ⟨rfl, valueKinded_of_eq ht (.int (isInt_of_ofSource ht (by split <;> rfl)))⟩
  | .float hty ht, .float hn, _, _, _ => by
    cases TypeTable.typeOf_unique hty hn
    exact .nil rfl ⟨rfl, valueKinded_of_eq ht
      (.float ((isFloat_of_ofSource ht).trans (by split <;> rfl)))⟩
  | .bool hty, .bool hn, _, _, _ => by
    cases TypeTable.typeOf_unique hty hn
    exact .nil rfl ⟨rfl, valueKinded_of_eq rfl (.int rfl)⟩
  | .text hty hname, .text hn, _, _, hw => by
    cases TypeTable.typeOf_unique hty hn
    obtain ⟨k, hk, rfl⟩ := hname.mem
    exact ⟨hname.emitted, rfl, valueKinded_of_eq rfl (.global fun hc => hw.2 hc k hk)⟩
  | .var hty hslot haddr, .var hn hname, _, _, _ => by
    cases TypeTable.typeOf_unique hty hn
    obtain ⟨slot, hslot', hslotTy⟩ := hs.storage_eq hname
    cases hslot.symm.trans hslot'
    have hplace : Leaves (housing c) before _ _ _ _ :=
      haddr.kinded (hs.slots _ _ (lookup?_of_storage hslot))
    exact ⟨hplace.toEmitted, rfl, hslotTy ▸ hplace.known⟩
  | .unary hty hce hv ht, .unary hn he hop, ha, hp, hw => by
    cases TypeTable.typeOf_unique hty hn
    exact (hce.kinded hk hs before he ha hp (hv.draws.within hw)).bind fun hlow =>
      (hv.kinded hlow).bind fun hval =>
        have ⟨hi, hres⟩ := unaryInstr_kinded hop ht (hval _ ht)
        .assign hi ⟨rfl, valueKinded_of_eq ht hres⟩
  | .compare hty hop ht hcl hv hcr hv' hcmp hpred, .binary hn hl hr _, ha, hp, hw => by
    cases TypeTable.typeOf_unique hty hn
    cases hop.symm.trans hl.typeOf
    rw [Expr.callArgs, noVoid_append, imp_and] at ha
    have hw3 := hv'.draws.within hw
    refine (hcl.kinded hk hs before hl ha.1 hp (hv.draws.within (hcr.draws.within hw3))).bind fun hlow =>
      (hv.kinded hlow).bind fun hval =>
      (hcr.kinded hk hs _ hr ha.2 (hp.draws (hcl.draws.append hv.draws)) hw3).bind fun hlow' =>
      (hv'.kinded hlow').bind fun hval' => .assign
        (.compare (((hval _ ht).append _).append _) (hval' _ ht) (suits_predicate hpred)) ⟨rfl, ?_⟩
    rw [if_pos hcmp]
    exact valueKinded_of_eq rfl (.last (.computed True.intro) rfl)
  | .arith hty hop' ht hcl hv hcr hv' hcmp ho, .binary hn hl hr hop, ha, hp, hw => by
    cases TypeTable.typeOf_unique hty hn
    cases hop'.symm.trans hl.typeOf
    rw [Expr.callArgs, noVoid_append, imp_and] at ha
    have hw3 := hv'.draws.within hw
    refine (hcl.kinded hk hs before hl ha.1 hp (hv.draws.within (hcr.draws.within hw3))).bind fun hlow =>
      (hv.kinded hlow).bind fun hval =>
      (hcr.kinded hk hs _ hr ha.2 (hp.draws (hcl.draws.append hv.draws)) hw3).bind fun hlow' =>
      (hv'.kinded hlow').bind fun hval' => .assign
        (.arith (((hval _ ht).append _).append _) (hval' _ ht) (suits_arithOp ht hcmp hop ho)) ⟨rfl, ?_⟩
    rw [if_neg (by simp [hcmp])]
    exact valueKinded_of_eq ht (.last (.computed True.intro) rfl)
  | .cast hty hsource hce hv hcast, .cast hn he _, ha, hp, hw => by
    cases TypeTable.typeOf_unique hty hn
    cases hsource.symm.trans he.typeOf
    exact (hce.kinded hk hs before he ha hp ((hv.draws.append hcast.draws).within hw)).bind fun hlow =>
      (hv.kinded hlow).bind fun hval =>
        have hres := hcast.kinded hval
        ⟨hres.toEmitted, rfl, hres.known⟩
  | .call hty hts hcallee hparams hcargs hcall, .call hn hargs hr, ha, hp, hw => by
    cases TypeTable.typeOf_unique hty hn
    cases hts.symm.trans hargs.typesOf
    cases hcallee.symm.trans (Symbols.callee_eq_ok hr)
    rw [Expr.callArgs, noVoid_append, imp_and] at ha
    exact (hcargs.kinded hk hs before hargs (hs.symbols.receiver_ne_void hr) ha.2 hp
      (hcall.draws.within hw)).bind fun hkinds =>
        have hres := hcall.kinded (hk.1 ▸ hr) hkinds hparams fun hc => hargs.ne_void (ha.1 hc)
        ⟨hres.toEmitted, rfl, hres.known⟩
  | .construct hty hcargs, .construct hn hd hargs, ha, hp, hw => by
    have hdeclared := hk.1 ▸ (Typed.construct hn hd hargs).declared hs.symbols hs.scope
    cases TypeTable.typeOf_unique hty hn
    have hw0 := hcargs.draws.within hw
    have hslot : ∀ before, OperandKind c before (.register s.nextRegister) (.place true _) :=
      fun _ => .allocated hp hw0.1
    have hfields := hcargs.kinded hk hs (before ++ []) hargs ha hd (fun _ g hg => by simpa using hg)
      (hslot []) (fun _ => Nat.succ_pos _) hw
    refine ⟨((Emitted.made (.inr ⟨_, hdeclared, rfl⟩) nofun).append hfields).append
      (.assign (.load (hslot _))), rfl, valueKinded_of_eq rfl ?_⟩
    rw [← List.append_assoc]
    exact .last (.load (hslot _)) rfl
  | .access hty hobject hmember hce haddr, .access hn he hf, ha, hp, hw => by
    cases TypeTable.typeOf_unique hty hn
    cases hobject.symm.trans he.typeOf
    cases hmember.symm.trans (exists_memberOf hf)
    obtain ⟨d, g, hd, -, hg, rfl⟩ := Symbols.field?_eq_some hf
    obtain ⟨t, ht⟩ := exists_ofSource (hs.symbols.field hf).1.proper
    obtain ⟨layout, hlayout, hi⟩ := hk.field hd hg ht
    refine (hce.kinded hk hs before he ha hp (haddr.draws.within hw)).bind fun hlow =>
      (haddr.kinded (hp.draws hce.draws) hw (hk.1 ▸ he.declared hs.symbols hs.scope) (by simp)
        hlow).bind fun hplace => ?_
    obtain ⟨own, ha⟩ := hplace _ rfl
    refine .assign (.field ha hlayout hi) ⟨rfl, fun t' ht' => ⟨own, ?_⟩⟩
    cases ht.symm.trans ht'
    exact .last (.field ha hlayout hi) rfl

theorem ArgsCode.kinded (hk : c.Knows f) (hs : Sheltered c f names storage)
    (before : List Instr) :
    ArgsCode (.ofFindings f) storage receiver es s args code s' → TypedAll f names es ts →
    (receiver = true → ∀ ty ∈ ts.head?, ty ≠ .void) → (c.strict → NoVoid f.types (callArgsOf es)) →
    c.Past s → s'.Within c →
      Leaves (housing c) before s code s' fun before => ArgsKinded c before receiver ts args
  | .nil, .nil, _, _, _, _ => .nil rfl .nil
  | .receiver hce haddr hces, .cons he hes, hrec, ha, hp, hw => by
    rw [callArgsOf, noVoid_append, imp_and] at ha
    have hw' := hces.draws.within hw
    have hp1 := hp.draws hce.draws
    obtain ⟨t, ht⟩ := exists_ofSource (hs.toFits.proper he)
    exact (hce.kinded hk hs before he ha.1 hp (haddr.draws.within hw')).bind fun hlow =>
      (haddr.kinded hp1 hw' (hk.1 ▸ he.declared hs.symbols hs.scope) (hrec rfl _ rfl)
        hlow).bind fun hplace =>
        have hrest := hces.kinded hk hs _ hes nofun ha.2 (hp1.draws haddr.draws) hw
        have ⟨_, ha⟩ := hplace.append _ t ht
        ⟨hrest.toEmitted, .receiver ht ha hrest.known⟩
  | .value hce hv hty ht hces, .cons he hes, _, ha, hp, hw => by
    cases hty.symm.trans he.typeOf
    rw [callArgsOf, noVoid_append, imp_and] at ha
    exact (hce.kinded hk hs before he ha.1 hp (hv.draws.within (hces.draws.within hw))).bind fun hlow =>
      (hv.kinded hlow).bind fun hval =>
        have hrest := hces.kinded hk hs _ hes nofun ha.2 (hp.draws (hce.draws.append hv.draws)) hw
        ⟨hrest.toEmitted, .value ht ((hval _ ht).append _) hrest.known⟩

theorem FieldsCode.kinded (hk : c.Knows f) (hs : Sheltered c f names storage) {code : List Instr}
    (before : List Instr) :
    FieldsCode (.ofFindings f) storage struct slot index es s code s' →
    TypedAll f names es ts → (c.strict → NoVoid f.types (callArgsOf es)) →
    f.symbols.struct? struct = some d →
    (∀ k ty, ts[k]? = some ty → (d.fields.map TypedName.ty)[index + k]? = some ty) →
    OperandKind c [] (.register slot) (.place true (.struct struct)) → c.Past s → s'.Within c →
      Emitted (housing c) before s code s'
  | .nil, _, _, _, _, _, _, _ => .nil rfl
  | .cons hty ht hce hv hces, .cons he hes, ha, hd, hts, hslot, hp, hw => by
    cases hty.symm.trans he.typeOf
    rw [callArgsOf, noVoid_append, imp_and] at ha
    obtain ⟨g, hg, hgty⟩ := by simpa using hts 0 _ rfl
    obtain ⟨layout, hlayout, hi⟩ := hk.field hd hg (hgty ▸ ht)
    have hp2 := hp.draws (hce.draws.append hv.draws)
    exact (hce.kinded hk hs before he ha.1 hp (hv.draws.within (hces.draws.within hw))).seq fun hlow =>
      (hv.kinded hlow).seq fun hval => .cons (.assign (.field hslot.anywhere hlayout hi))
        (.cons (.single (.store ((hval _ ht).append _) (.last (.field hslot.anywhere hlayout hi) rfl)) rfl)
          (hces.kinded hk hs _ hes ha.2 hd (fun k ty hty => by
              rw [Nat.add_assoc, Nat.add_comm 1]
              exact hts (k + 1) ty hty) hslot (fun hr => Nat.lt_succ_of_lt (hp2 hr)) hw))

end

end

end StructLang.Ssa
