import StructLang.Proofs.FloatFree
import StructLang.Proofs.Flat.Activation

/-!
# Running the flat code of expressions

The flat code of a typed expression without floats gives what the expression means: it ends in an operand
that stands for the value, or that is its address, or it fails as the expression does. A struct is handled
by an address whose bytes the rest of the expression leaves alone.
-/

namespace StructLang.Flat

open scoped CoreNumbers

/-! ## Calls -/

/-- Arguments as a call passes them: a receiver by its address. -/
inductive Passed (s : Symbols) (l : Layouts) (stack : Array UInt8) (P : Ty → Nat → Prop) :
    Bool → List Ty → List Meaning.Value → List Value → Prop where
  | nil {receiver} : Passed s l stack P receiver [] [] []
  | receiver {x ty v ts vs ws} (h : Leads s l stack (P ty) ty v x)
      (hs : Passed s l stack P false ts vs ws) :
      Passed s l stack P true (ty :: ts) (v :: vs) (.int x :: ws)
  | value {x ty v ts vs ws} (h : Gives s l stack (P ty) ty v x)
      (hs : Passed s l stack P false ts vs ws) :
      Passed s l stack P false (ty :: ts) (v :: vs) (.int x :: ws)

/-- What a function of a result type returned stands for a value. -/
def Returned (s : Symbols) (l : Layouts) (stack : Array UInt8) (ty : Ty) (v : Meaning.Value)
    (result : Option Value) : Prop :=
  if ty = .void then v = .unit ∧ ∀ w, result = some w → w = .int 0
  else ∃ x, result = some (.int x) ∧ Gives s l stack (fun _ => True) ty v x

/-- Calls do what the meaning says, and leave the stack as it was. -/
def CallsFollow (s : Symbols) (l : Layouts) (meaning : Meaning.Call) (call : Call) : Prop :=
  ∀ g ∈ s.functions, ∀ vs ws mach,
    Passed s l mach.memory.stack (fun _ _ => True) g.receiver.isSome g.signature vs ws →
    bridge.Follows (meaning g.linkage vs) (call g.linkage ws) mach fun v result mach' =>
      mach.Keeps 0 0 mach' ∧ Returned s l mach'.memory.stack g.ret v result

section

variable {receiver : Bool}

theorem Passed.imp (h : Passed s l stack P receiver ts vs ws)
    (hP : ∀ ty start, P ty start → P' ty start) : Passed s l stack P' receiver ts vs ws := by
  induction h with
  | nil => exact .nil
  | receiver h _ ih => exact .receiver (h.imp (hP _)) ih
  | value h _ ih => exact .value (h.imp (hP _)) ih

def Module.Sizes (m : Module) (s : Symbols) (l : Layouts) : Prop :=
  ∀ name d, s.struct? name = some d →
    ∃ t, m.type? name = some t ∧ t.size = l.sizeOf (.struct name)

def Machine.grow (mach : Machine) (size align : Nat) : Machine :=
  { mach with memory := (mach.memory.allocate size align).2 }

theorem Machine.size_grow (mach : Machine) (size align : Nat) :
    (mach.grow size align).memory.stack.size = mach.memory.aligned align + max size 1 :=
  mach.memory.size_allocate size align

theorem Machine.keeps_grow (mach : Machine) (size align : Nat) :
    mach.Keeps 0 0 (mach.grow size align) := by
  have hlow := mach.memory.le_aligned align
  have hsize := mach.size_grow size align
  exact ⟨by omega, fun i hi _ => mach.memory.getElem?_allocate size align hi, rfl⟩

theorem allocate_eq (mach : Machine) (size align : Nat) : allocate size align mach =
    .ok (stackBase + mach.memory.aligned align) (mach.grow size align) := rfl

/-- Passing a value: a struct is copied to fresh stack space. -/
theorem pass_eq (hl : Measured s l)
    (hm : m.Sizes s l) (hc : Class.passed ty = .ok cls) (h : Gives s l mach.memory.stack Q ty v x) :
    ∃ w mach', pass m cls (.int x) mach = .ok w mach' ∧ mach.Keeps 0 0 mach' ∧
      (mach'.Small → ∃ y, w = .int y ∧
        Gives s l mach'.memory.stack (fun start => mach.memory.stack.size ≤ start) ty v y) := by
  cases ty with
  | struct name =>
    cases hc
    have hleads := h.leads
    obtain ⟨d, hd⟩ : ∃ d, s.struct? name = some d := by
      obtain ⟨_, -, -, -, hholds⟩ := hleads
      cases hholds with
      | scalar hs => cases hs.isStruct_eq_false
      | struct hd => exact ⟨_, hd⟩
    obtain ⟨t, ht, hsize⟩ := hm name d hd
    have hgrow := mach.keeps_grow t.size 8
    have hlow := mach.memory.le_aligned 8
    have hroom := mach.size_grow t.size 8
    have hleads' := hleads.keeps hl hgrow.size fun start i _ _ hi =>
      hgrow.bytes _ hi (.inr (Nat.zero_le _))
    obtain ⟨bytes, hlen, hcopy, hholds⟩ := hleads'.copy hl hsize.symm
      (show _ = stackBase + mach.memory.aligned 8 from rfl) (by omega)
    have hput := (mach.grow t.size 8).keeps_put (mach.memory.aligned 8) bytes
    have hfinal := (mach.grow t.size 8).size_put (mach.memory.aligned 8) bytes
    have hchange : changeMemory (fun memory => memory.copy (addressOf x)
        (stackBase + mach.memory.aligned 8) t.size) (mach.grow t.size 8) =
          .ok () ((mach.grow t.size 8).put (mach.memory.aligned 8) bytes) := by
      rw [changeMemory, hcopy]
      rfl
    refine ⟨.ofAddress (stackBase + mach.memory.aligned 8), _, ?_, hgrow.all_trans hput hlow,
      fun hsmall => ?_⟩
    · simp only [pass, copyAggregate, ht]
      rw [Execution.bind_of_ok (allocate_eq mach t.size 8),
        show orFault (Value.int x).asAddress = pure (addressOf x) from rfl, pure_bind,
        Execution.bind_of_ok hchange]
      rfl
    · unfold Machine.Small at hsmall
      obtain ⟨y, hy, haddr⟩ := ofAddress_eq
        (show stackBase + mach.memory.aligned 8 < 2 ^ (64 : Nat) by unfold stackBase; omega)
      exact ⟨y, hy, mach.memory.aligned 8, haddr, by omega, hlow, hholds⟩
  | _ =>
    cases hc
    all_goals exact ⟨.int x, mach, rfl, .refl, fun _ => ⟨x, rfl, h.stands rfl⟩⟩

end

/-! ## Parts of expressions -/

namespace Activation

variable {c : Activation}

theorem Running.result (hr : c.Running s temps mach)
    (hrun : c.run temps [i] mach = .ok (temps.assign s.temp (.int x)) mach)
    (hstands : Stands ty v x) : ∃ temps', c.run temps [i] mach = .ok temps' mach ∧
      c.Ran (c.spot s.slots.length) temps mach s.bump temps' mach ∧
      c.Denotes temps' mach (c.spot s.bump.slots.length) (.temp s.temp) ty v := by
  obtain ⟨hran, heval⟩ := hr.assign (.int x)
  refine ⟨_, hrun, hran, x, heval, ?_⟩
  rw [Gives, if_neg (by simp [hstands.isStruct_eq_false])]
  exact hstands

theorem toValue (h : ToValue s low o code s') (hr : c.Running s temps mach)
    (hm : c.Means temps mach (c.spot s.slots.length) ty v low) :
    ∃ temps', c.run temps code mach = .ok temps' mach ∧
      c.Ran (c.spot s.slots.length) temps mach s' temps' mach ∧
      c.Denotes temps' mach (c.spot s'.slots.length) o ty v := by
  cases h with
  | value => exact ⟨temps, rfl, .refl hr, hm.2⟩
  | struct =>
    obtain ⟨rfl, x, hx, hleads⟩ := hm
    exact ⟨temps, rfl, .refl hr, x, hx, hleads⟩
  | load hs hc =>
    obtain ⟨rfl, hpoints⟩ := hm
    obtain ⟨x, hrun, hstands⟩ := hpoints.run_load (t := s.temp) hs hc
    exact hr.result hrun hstands

theorem spill (ha : Allocated c.env ty hint s slot s')
    (hcode : StoreCode c.env o (.temp slot) ty code) (hle : s'.Le c.final)
    (hr : c.Running s temps mach) (hd : c.Denotes temps mach (c.spot s.slots.length) o ty v) :
    ∃ mach', c.run temps code mach = .ok temps mach' ∧
      c.Ran (c.spot s.slots.length) temps mach s' temps mach' ∧
      c.Points temps mach' (c.spot s'.slots.length) (.temp slot) ty v := by
  cases ha with
  | @mk align halign =>
    have hframed := hr.framed
    obtain ⟨x, hx, haddr, hroom, htop⟩ := hr.slot (slots_allocate hle)
    obtain ⟨bytes, hlen, hrun, hholds⟩ := run_store hframed.laid hcode hd hx haddr
      (Nat.le_trans hroom htop)
    have hkeeps := mach.keeps_put (c.spot s.slots.length) bytes
    have hlength := length_allocate (s := s) hint align (c.env.layouts.sizeOf ty)
    refine ⟨_, hrun, ⟨(hr.allocate _ _ _).put _ _, ?_, .refl _, ?_⟩, x, hx,
      c.spot s.slots.length, haddr, ?_, .inl ?_, hholds⟩
    · rw [hlength]
      exact hframed.mono (Nat.le_succ _)
    · rw [hlength]
      exact hkeeps.mono (Nat.le_refl _) (by rw [hlen]; exact hroom)
    · rw [Machine.size_put]
      exact Nat.le_trans hroom htop
    · rw [hlength]
      exact hroom

theorem toAddress (h : ToAddress c.env s low o code s') (hle : s'.Le c.final)
    (hr : c.Running s temps mach) (hm : c.Means temps mach (c.spot s.slots.length) ty v low) :
    ∃ mach', c.run temps code mach = .ok temps mach' ∧
      c.Ran (c.spot s.slots.length) temps mach s' temps mach' ∧
      c.Points temps mach' (c.spot s'.slots.length) o ty v := by
  cases h with
  | place => exact ⟨mach, rfl, .refl hr, hm.2⟩
  | struct =>
    obtain ⟨rfl, x, hx, hgives⟩ := hm
    exact ⟨mach, rfl, .refl hr, x, hx, hgives⟩
  | spill _ ha hs =>
    obtain ⟨rfl, hd⟩ := hm
    exact spill ha hs hle hr hd

theorem cast (h : CastCode o source target s w code s')
    (hc : source = target ∨ source.castsTo target = true) (hfloat : target.isFloat = false)
    (hr : c.Running s temps mach) (hd : c.Denotes temps mach (c.spot s.slots.length) o source v) :
    ∃ temps', c.run temps code mach = .ok temps' mach ∧
      c.Ran (c.spot s.slots.length) temps mach s' temps' mach ∧
      c.Denotes temps' mach (c.spot s'.slots.length) w target (Meaning.cast source target v) := by
  cases h with
  | same heq =>
    subst heq
    refine ⟨temps, rfl, .refl hr, ?_⟩
    rw [Meaning.cast, if_pos rfl]
    exact hd
  | convert hne hop =>
    have hcast := hc.resolve_left hne
    obtain ⟨x, hx, hgives⟩ := hd
    have hs : source.isStruct = false := by
      cases source <;> first | rfl | cases hcast
    rw [Meaning.cast, if_neg hne]
    obtain ⟨ws, y, hws, happly, hstands⟩ :=
      castOp_eq hne hcast hfloat hop hx (hgives.stands hs) mach.memory
    exact hr.result (run_assign hws happly) hstands

/-! ## Variables -/

end Activation

def Slot.stored (slot : Slot) : Ty := if slot.byReference then .i64 else slot.ty

namespace Activation

/-- Some stack space is given out under a name, for a value of a type. -/
def HasSpace (c : Activation) (k : Nat) (name : String) (ty : Ty) : Prop :=
  ∃ align, c.final.slots[k]? =
    some (.assign name .long (.alloc align) [.int (Int64.ofNat (c.layouts.sizeOf ty))])

/-- Some stack space holds the value of a slot, or the address of one that existed before the call. A slot
without a proper type is out of use. -/
def Contains (c : Activation) (mach : Machine) (k : Nat) (v : Meaning.Value) (slot : Slot) : Prop :=
  slot.ty ≠ .error →
    if slot.byReference then ∃ x,
      Holds c.symbols c.layouts mach.memory.stack .i64 (.int x) (c.spot k) ∧
      Leads c.symbols c.layouts mach.memory.stack
        (fun start => start + c.layouts.sizeOf slot.ty ≤ c.entry.memory.stack.size) slot.ty v x
    else Holds c.symbols c.layouts mach.memory.stack slot.ty v (c.spot k)

/-- The slot of a variable is among those given out first, and contains its value. -/
def Variable (c : Activation) (bound : Nat) (mach : Machine) (v : Meaning.Value) (slot : Slot) : Prop :=
  ∃ k, c.HasSpace k slot.temp slot.stored ∧ k < bound ∧ c.Contains mach k v slot

def Stored (c : Activation) (bound : Nat) (slots : List Slot) (store : List Meaning.Value)
    (mach : Machine) : Prop :=
  Tracks (c.Variable bound mach) store slots

variable {c : Activation}

theorem HasSpace.room (h : c.HasSpace k name ty) (hf : c.Framed) :
    c.spot k + c.layouts.sizeOf ty ≤ c.spot (k + 1) ∧ c.spot (k + 1) ≤ c.top := by
  obtain ⟨align, hk⟩ := h
  have hroom := hf.room _ _ _ _ hk
  rw [addressOf_ofNat (hf.packed.sizeOf_lt ty)] at hroom
  exact ⟨hroom, hf.mono (List.getElem?_eq_some_iff.mp hk).1⟩

theorem Variable.keeps (h : c.Variable bound mach v slot) (hf : c.Framed)
    (hroom : c.top ≤ mach.memory.stack.size) (hk : mach.Keeps lo hi mach') (hlo : c.spot 0 ≤ lo)
    (hout : ∀ k, k < bound → c.HasSpace k slot.temp slot.stored →
      c.spot (k + 1) ≤ lo ∨ hi ≤ c.spot k) : c.Variable bound mach' v slot := by
  obtain ⟨k, hspace, hlt, h⟩ := h
  refine ⟨k, hspace, hlt, fun hty => ?_⟩
  have hout := hout k hlt hspace
  obtain ⟨hsize, htop⟩ := hspace.room hf
  have hbelow := hf.below
  have h := h hty
  unfold Slot.stored at hsize
  by_cases href : slot.byReference = true
  · rw [if_pos href] at h hsize ⊢
    obtain ⟨x, hx, hleads⟩ := h
    refine ⟨x, hx.copy hf.laid fun i hi => hk.bytes _ (by omega) (by omega), ?_⟩
    exact hleads.keeps hf.laid hk.size fun start i hstart hi hsize =>
      hk.bytes _ hsize (.inl (by omega))
  · rw [if_neg href] at h hsize ⊢
    exact h.copy hf.laid fun i hi => hk.bytes _ (by omega) (by omega)

theorem Variable.mono (h : c.Variable bound mach v slot) (hle : bound ≤ bound') :
    c.Variable bound' mach v slot := by
  obtain ⟨k, hspace, hlt, h⟩ := h
  exact ⟨k, hspace, Nat.lt_of_lt_of_le hlt hle, h⟩

theorem Stored.ran (h : c.Stored bound slots store mach) (hrun : c.Running s temps mach)
    (hr : c.Ran lo temps mach s' temps' mach') (hlo : c.spot bound ≤ lo) :
    c.Stored bound slots store mach' := by
  have hmono := hrun.framed.mono
  refine h.imp fun _ _ hv => hv.keeps hrun.framed hrun.room hr.memory
    (Nat.le_trans (hmono (Nat.zero_le _)) hlo) fun k hlt _ => .inl (Nat.le_trans (hmono hlt) hlo)

theorem slotAddress (h : SlotAddress s slot o code s') (hr : c.Running s temps mach)
    (hv : c.Variable bound mach v slot) (hty : slot.ty ≠ .error) (hbound : bound ≤ s.slots.length) :
    ∃ temps', c.run temps code mach = .ok temps' mach ∧
      c.Ran (c.spot s.slots.length) temps mach s' temps' mach ∧
      c.Points temps' mach (c.spot s'.slots.length) o slot.ty v := by
  have hf := hr.framed
  obtain ⟨k, hspace, hlt, hv⟩ := hv
  have hv := hv hty
  obtain ⟨hsize, htop⟩ := hspace.room hf
  have htop := Nat.le_trans htop hr.room
  have hgiven : c.spot (k + 1) ≤ c.spot s.slots.length := hf.mono (Nat.le_trans hlt hbound)
  obtain ⟨align, hk⟩ := hspace
  obtain ⟨y, hy, haddr, -, -⟩ := hr.slot hk
  unfold Slot.stored at hsize
  cases h with
  | direct hdirect =>
    rw [if_neg (by simp [hdirect])] at hv hsize
    exact ⟨temps, rfl, .refl hr, y, hy, c.spot k, haddr, by omega, .inl (by omega), hv⟩
  | reference href =>
    rw [if_pos href] at hv hsize
    obtain ⟨x, hx, hleads⟩ := hv
    have hpoints : c.Points temps mach (c.spot s.slots.length) (.temp slot.temp) .i64 (.int x) :=
      ⟨y, hy, c.spot k, haddr, by omega, .inl (by omega), hx⟩
    obtain ⟨x', hrun, hstands⟩ := hpoints.run_load (t := s.temp) rfl rfl
    cases hstands
    obtain ⟨hran, heval⟩ := hr.assign (.int x)
    have hbelow := hf.below
    have hstart : c.spot 0 ≤ c.spot s.bump.slots.length := hf.mono (Nat.zero_le _)
    exact ⟨_, hrun, hran, x, heval, hleads.imp fun start hle => .inl (by omega)⟩

/-! ## Expressions -/

section

variable {α β : Type}

theorem follows_bind (hf : c.Framed) (h : bridge.Follows r (c.run temps code) mach Q)
    (hk : ∀ a temps' mach', Q a temps' mach' → bridge.Follows (k a) (c.run temps' code') mach' Q') :
    bridge.Follows (r >>= k) (c.run temps (code ++ code')) mach Q' := by
  rw [Activation.run_append]
  exact h.bind (fun _ => hf.retains_run _ _) hk

theorem follows_extend (hf : c.Framed) (h : bridge.Follows r (c.run temps code) mach Q)
    (hk : ∀ a temps' mach', Q a temps' mach' → ∃ temps'' mach'',
      c.run temps' code' mach' = .ok temps'' mach'' ∧ Q' a temps'' mach'') :
    bridge.Follows r (c.run temps (code ++ code')) mach Q' := by
  rw [Activation.run_append]
  refine h.extend (fun _ => hf.retains_run _ _) fun a temps' mach' hQ => ?_
  obtain ⟨temps'', mach'', hrun, hQ'⟩ := hk a temps' mach' hQ
  exact .ok hrun fun _ => hQ'

end

def Valued (c : Activation) (lo : Nat) (temps : Temps) (mach : Machine) (s' : Supply) (ty : Ty)
    (o : Operand) (v : Meaning.Value) (temps' : Temps) (mach' : Machine) : Prop :=
  c.Ran lo temps mach s' temps' mach' ∧ c.Denotes temps' mach' (c.spot s'.slots.length) o ty v

def Evaluated (c : Activation) (lo : Nat) (temps : Temps) (mach : Machine) (s' : Supply) (ty : Ty)
    (low : Lowered) (v : Meaning.Value) (temps' : Temps) (mach' : Machine) : Prop :=
  c.Ran lo temps mach s' temps' mach' ∧ c.Means temps' mach' (c.spot s'.slots.length) ty v low

theorem follows_toValue (hf : c.Framed)
    (h : bridge.Follows r (c.run temps code) mach (c.Evaluated lo temps mach s ty low))
    (hv : ToValue s low o code' s') :
    bridge.Follows r (c.run temps (code ++ code')) mach (c.Valued lo temps mach s' ty o) := by
  refine follows_extend hf h fun v temps' mach' hm => ?_
  obtain ⟨temps'', hrun, hran, hd⟩ := toValue hv hm.1.running hm.2
  exact ⟨temps'', mach', hrun, hm.1.trans hran, hd⟩

theorem follows_field (hf : c.Framed)
    (h : bridge.Follows r (c.run temps code) mach (c.Evaluated lo temps mach s (.struct struct) low))
    (ha : ToAddress c.env s low o code' s') (hle : s'.bump.Le c.final)
    (hfield : c.symbols.field? (.struct struct) member = some (index, fieldTy))
    (hoffset : memberOffset c.env (.struct struct) member = .ok offset) :
    bridge.Follows (r >>= fun v => pure (v.field index))
      (c.run temps (code ++ (code' ++
        [.assign s'.temp .long .add [o, .int (Int64.ofNat offset)]]))) mach
      (c.Evaluated lo temps mach s'.bump fieldTy (.place fieldTy (.temp s'.temp))) := by
  obtain ⟨d, hd, hoffset'⟩ : ∃ d, c.symbols.struct? struct = some d ∧
      offset = c.layouts.offsetOf d index := by
    obtain ⟨d, g, hd, hg, -, -⟩ := Symbols.field?_eq_some hfield
    refine ⟨d, hd, ?_⟩
    have hlayout := layoutOf_eq (f := c.findings) hf.laid.laid hd
    simp only [memberOffset, Ty.structName?] at hoffset
    rw [show Lower.layoutOf c.env struct = _ from hlayout] at hoffset
    simp only [bind, Except.bind, Layouts.offset?_packed hg] at hoffset
    cases hoffset
    exact Nat.mod_eq_of_lt (Nat.lt_of_le_of_lt (c.layouts.offsetOf_le d index)
      (hf.laid.sum_lt d (Symbols.struct?_eq_some hd).1))
  subst hoffset'
  refine follows_bind hf h fun v temps' mach' hm => ?_
  obtain ⟨mach'', hrun, hran, x, hx, hleads⟩ := toAddress ha (Supply.Le.bump.trans hle)
    hm.1.running hm.2
  obtain ⟨hran', heval⟩ := hran.running.assign (.int (x + Int64.ofNat (c.layouts.offsetOf d index)))
  rw [Activation.run_append]
  refine .seq hrun (.ok (run_add hx) fun _ => ⟨(hm.1.trans hran).trans hran', rfl, _, heval, ?_⟩)
  refine hleads.field hf.laid hd hfield hran.running.small fun start offset hclear hle => ?_
  unfold Clear at hclear ⊢
  have hsame : s'.bump.slots.length = s'.slots.length := rfl
  rw [hsame]
  omega

theorem storeField (hspace : c.HasSpace k name whole) (hk : k < s.slots.length)
    (hfit : offset + c.layouts.sizeOf ty ≤ c.layouts.sizeOf whole) (hr : c.Running s temps mach)
    (hd : c.Denotes temps mach (c.spot s.slots.length) o ty v)
    (hs : StoreCode c.env o (.temp s.temp) ty code) (hle : s.bump.Le c.final) :
    ∃ temps' mach', c.run temps
        (.assign s.temp .long .add [.temp name, .int (Int64.ofNat offset)] :: code) mach =
          .ok temps' mach' ∧
      c.Ran (c.spot k + offset) temps mach s.bump temps' mach' ∧
      Holds c.symbols c.layouts mach'.memory.stack ty v (c.spot k + offset) := by
  have hf := hr.framed
  have hsmall := hr.small
  have hroom := hr.room
  obtain ⟨hsize, htop⟩ := hspace.room hf
  have hgiven : c.spot (k + 1) ≤ c.spot s.bump.slots.length := hf.mono hk
  obtain ⟨align, hslot⟩ := hspace
  obtain ⟨x, hx, haddr, -, -⟩ := hr.slot hslot
  obtain ⟨hran, heval⟩ := hr.assign (.int (x + Int64.ofNat offset))
  have hfits : c.spot k + offset + c.layouts.sizeOf ty ≤ mach.memory.stack.size := by omega
  have haddr' : addressOf (x + Int64.ofNat offset) = stackBase + (c.spot k + offset) := by
    unfold Machine.Small at hsmall
    rw [addressOf_add (by unfold stackBase at haddr; omega)]
    omega
  obtain ⟨bytes, hlen, hstore, hholds⟩ := run_store hf.laid hs
    (hd.mono hran hle (Nat.le_refl _)) heval haddr' hfits
  have hkeeps := mach.keeps_put (c.spot k + offset) bytes
  refine ⟨_, _, ?_, ⟨hran.running.keeps hkeeps ?_, ?_, hran.temps, hkeeps.mono (Nat.le_refl _) ?_⟩,
    hholds⟩
  · change c.run temps ([_] ++ code) mach = _
    rw [Activation.run_append, Execution.bind_of_ok (run_add hx), hstore]
  · rwa [Machine.Small, mach.size_put]
  · omega
  · omega

theorem follows_arith {args : List Operand} (hr : c.Running s temps mach)
    (hop : ∀ align, op ≠ .alloc align) (hargs : args.mapM (Flat.eval c.module temps) = .ok ws)
    (h : bridge.Agrees r (apply mach.memory cls op ws) (StandsAs ty)) :
    bridge.Follows r (c.run temps [.assign s.temp cls op args]) mach
      (c.Valued (c.spot s.slots.length) temps mach s.bump ty (.temp s.temp)) := by
  cases hw : apply mach.memory cls op ws with
  | ok w =>
    cases r with
    | error e =>
      rw [hw] at h
      exact h.elim
    | ok v =>
      rw [hw] at h
      obtain ⟨x, rfl, hstands⟩ := h
      obtain ⟨temps', hrun, hran, hd⟩ := hr.result (run_assign hargs hw) hstands
      exact .ok hrun fun _ => ⟨hran, hd⟩
  | error f =>
    cases r with
    | ok v =>
      rw [hw] at h
      exact h.elim
    | error e =>
      rw [hw] at h
      have hperform : perform cls op ws mach = .error (.fault f) mach := by
        unfold perform
        split
        · next align => exact absurd rfl (hop align)
        · rw [Execution.bind_of_ok (Execution.get_eq mach), hw]
          rfl
      have hrun : c.run temps [.assign s.temp cls op args] mach = .error (.fault f) mach := by
        simp only [run_singleton, step, hargs, orFault, pure_bind]
        exact Execution.bind_of_error hperform
      exact .error hrun h

end Activation

open Activation

/-- What the code of a function can rely on. -/
structure Activation.Sound (c : Activation) (meaning : Meaning.Call) : Prop where
  calls : CallsFollow c.symbols c.layouts meaning c.call
  foreigns : c.symbols.foreigns = []
  sizes : c.module.Sizes c.symbols c.layouts
  data : c.final.data <+: c.module.data

abbrev Activation.Located (c : Activation) :=
  StructLang.Located Slot.ty Slot.byReference c.findings

section

variable {c : Activation}

theorem exists_address {m : Module} (h : d ∈ m.data) : ∃ a, m.address? d.name = some a := by
  have hmem : ∀ (data : List Datum) (n : Nat), d ∈ data → ∃ a, (d.name, a) ∈ dataAddresses n data := by
    intro data
    induction data with
    | nil => exact fun _ hd => absurd hd List.not_mem_nil
    | cons d' rest ih =>
      intro n hd
      rcases List.mem_cons.mp hd with rfl | hd
      · exact ⟨n, List.mem_cons_self⟩
      · obtain ⟨a, ha⟩ := ih (n + d'.value.utf8ByteSize + 1) hd
        exact ⟨a, List.mem_cons_of_mem _ ha⟩
  obtain ⟨a, ha⟩ := hmem m.data dataBase h
  cases hlookup : m.address? d.name with
  | some a => exact ⟨a, rfl⟩
  | none =>
    rw [Module.address?, List.lookup_eq_none_iff] at hlookup
    exact absurd (hlookup _ (List.mem_reverse.mpr ha)) (by simp)

theorem Interned.mem (h : Interned text s o s') : ∃ d ∈ s'.data, o = .global d.name := by
  cases h with
  | old h => exact ⟨_, List.mem_of_find?_eq_some h, rfl⟩
  | new => exact ⟨_, List.mem_append_right _ (List.mem_singleton_self _), rfl⟩

theorem Stands.isInt {op : BinaryOp} (h : Stands ty v x) (hc : op.isComparison = false)
    (hop : Typing.meets ty (Typing.binaryDemand op) = true) : ty.isInt = true := by
  cases op <;> cases hc <;> cases h <;> first | rfl | cases hop

theorem ofSource_ne_alloc (h : Op.ofSource op ty = .ok o) (align : Nat) : o ≠ .alloc align := by
  rintro rfl
  unfold Op.ofSource at h
  split at h <;> cases h

/-- The values of two operands, one after the other. -/
structure Operands (c : Activation) (lo : Nat) (temps : Temps) (mach : Machine) (s1 s2 : Supply)
    (ty : Ty) (code1 code2 : List Instr) (v w : Operand)
    (r r' : Except Meaning.Failure Meaning.Value) : Prop where
  left : bridge.Follows r (c.run temps code1) mach (c.Valued lo temps mach s1 ty v)
  right : ∀ temps1 mach1, c.Ran lo temps mach s1 temps1 mach1 → bridge.Follows r'
    (c.run temps1 code2) mach1 (c.Valued (c.spot s1.slots.length) temps1 mach1 s2 ty w)

theorem Operands.follows {k : Meaning.Value → Meaning.Value → Except Meaning.Failure Meaning.Value}
    (h : Operands c lo temps mach s1 s2 ty code1 code2 v w r r') (hf : c.Framed)
    (hs : ty.isStruct = false) (hk : ∀ a b x y temps' mach', c.Ran lo temps mach s2 temps' mach' →
      c.eval temps' v = .ok (.int x) → Stands ty a x → c.eval temps' w = .ok (.int y) →
      Stands ty b y → bridge.Follows (k a b) (c.run temps' code) mach' Q) :
    bridge.Follows (r >>= fun a => r' >>= fun b => k a b) (c.run temps (code1 ++ (code2 ++ code)))
      mach Q := by
  refine follows_bind hf h.left fun a temps1 mach1 hm => ?_
  obtain ⟨hran, x, hx, hgx⟩ := hm
  refine follows_bind hf (h.right temps1 mach1 hran) fun b temps2 mach2 hm => ?_
  obtain ⟨hran', y, hy, hgy⟩ := hm
  exact hk a b x y temps2 mach2 (hran.trans hran') (eval_mono hx hran'.temps) (hgx.stands hs) hy
    (hgy.stands hs)

theorem isStruct_of_meets (hop : Typing.meets ty (Typing.binaryDemand op) = true) :
    ty.isStruct = false := by
  cases ty with
  | struct => cases op <;> cases hop
  | _ => rfl

theorem Operands.compare {cond : Cond} (h : Operands c lo temps mach s1 s2 ty code1 code2 v w r r')
    (hf : c.Framed) (hcmp : op.isComparison = true)
    (hop : Typing.meets ty (Typing.binaryDemand op) = true) (hcls : Class.ofSource ty = .ok cls)
    (hcond : Cond.ofSource op ty = .ok cond) :
    bridge.Follows (r >>= fun a => r' >>= fun b => Meaning.binary op ty a b)
      (c.run temps (code1 ++ (code2 ++ [.assign s2.temp .word (.compare cond cls) [v, w]]))) mach
      (c.Valued lo temps mach s2.bump .bool (.temp s2.temp)) := by
  refine h.follows hf (isStruct_of_meets hop) fun a b x y temps' mach' hran hx hsx hy hsy => ?_
  have hw := compare_eq hcmp hop hcls hcond hsx hsy mach'.memory
  obtain ⟨temps'', hrun, hran', hd⟩ := hran.running.result
    (run_assign (evals_two hx hy) hw) (.bool (b := Meaning.compare op a b))
  rw [Meaning.binary, if_pos hcmp]
  exact .ok hrun fun _ => ⟨hran.trans hran', hd⟩

theorem Operands.arith (h : Operands c lo temps mach s1 s2 ty code1 code2 v w r r')
    (hf : c.Framed) (hcmp : op.isComparison = false)
    (hop : Typing.meets ty (Typing.binaryDemand op) = true) (hcls : Class.ofSource ty = .ok cls)
    (ho : Op.ofSource op ty = .ok o) :
    bridge.Follows (r >>= fun a => r' >>= fun b => Meaning.binary op ty a b)
      (c.run temps (code1 ++ (code2 ++ [.assign s2.temp cls o [v, w]]))) mach
      (c.Valued lo temps mach s2.bump ty (.temp s2.temp)) := by
  refine h.follows hf (isStruct_of_meets hop) fun a b x y temps' mach' hran hx hsx hy hsy => ?_
  have hagrees := arith_agrees hcmp (hsx.isInt hcmp hop) hcls ho hsx hsy mach'.memory
  rw [Meaning.binary, if_neg (by simp [hcmp])]
  refine (follows_arith hran.running (ofSource_ne_alloc ho) (evals_two hx hy) hagrees).mono
    fun v temps'' mach'' hm => ?_
  exact ⟨hran.trans hm.1, hm.2⟩

theorem types_packed (l : Layouts) (d : StructDef) :
    (l.packed d).fields.map FieldLayout.ty = d.fields.map TypedName.ty := by
  rw [l.fields_packed]
  apply List.ext_getElem?
  intro i
  simp only [List.getElem?_map, List.getElem?_mapIdx]
  cases d.fields[i]? <;> rfl

theorem CallCode.follows (hc : c.Sound meaning)
    (hresolve : c.symbols.resolve name ts = .ok callee) (h : CallCode callee args s o code s')
    (hle : s'.Le c.final) (hr : c.Running s temps mach)
    (hargs : (args.mapM fun q => c.eval temps q.2) = .ok ws)
    (hpassed : Passed c.symbols c.layouts mach.memory.stack (fun _ _ => True) callee.hasReceiver
      ts vs ws) :
    bridge.Follows (meaning (Meaning.symbolOf c.symbols name ts) vs) (c.run temps code) mach
      (c.Valued (c.spot s.slots.length) temps mach s' callee.ret o) := by
  obtain ⟨g, hg, rfl, rfl, hsymbol⟩ := Symbols.exists_function hc.foreigns hresolve
  rw [hsymbol]
  have hcall := hc.calls g hg vs ws mach hpassed
  simp only [Activation.eval] at hargs
  have hran : ∀ {mach' : Machine}, mach.Keeps 0 0 mach' → mach'.Small →
      c.Ran (c.spot s.slots.length) temps mach s temps mach' :=
    fun hkeeps hsmall => ⟨hr.keeps hkeeps hsmall, Nat.le_refl _, .refl _, hkeeps.of_all⟩
  cases h with
  | void hret =>
    have hret : g.ret = .void := hret
    simp only [Activation.run_singleton, step, hargs, orFault, pure_bind]
    refine hcall.extend (fun _ => .pure _) fun v result mach' hres => ?_
    refine .ok (b := temps) rfl fun hsmall => ?_
    obtain ⟨hkeeps, hres⟩ := hres
    rw [Returned, if_pos hret] at hres
    refine ⟨hran hkeeps hsmall, 0, rfl, ?_⟩
    rw [Callee.ret, hret, hres.1]
    exact .void
  | @result cls hret hcls =>
    have hret : g.ret ≠ .void := hret
    simp only [Activation.run_singleton, step, hargs, orFault, pure_bind]
    refine hcall.extend (fun _ => retains_keepResult _ _ _ _) fun v result mach' hres => ?_
    obtain ⟨hkeeps, hres⟩ := hres
    rw [Returned, if_neg hret] at hres
    obtain ⟨x, rfl, hgives⟩ := hres
    obtain ⟨w, mach'', hpass, hkeeps', hw⟩ := pass_eq hr.framed.laid hc.sizes hcls hgives
    have hkeep : keepResult c.module g.linkage temps (some (.int x)) (some (s.temp, cls)) mach' =
        .ok (temps.assign s.temp w) mach'' := by
      simp only [keepResult]
      rw [Execution.bind_of_ok hpass]
      rfl
    refine .ok hkeep fun hsmall => ?_
    obtain ⟨y, rfl, hgives'⟩ := hw hsmall
    have hran' := hran (hkeeps.trans hkeeps' (Nat.le_refl _) (Nat.le_refl _)) hsmall
    obtain ⟨hran'', heval⟩ := hran'.running.assign (.int y)
    refine ⟨hran'.trans hran'', y, heval, hgives'.imp fun start hstart => .inr ?_⟩
    exact Nat.le_trans (Nat.le_trans hr.room hkeeps.size) hstart

theorem isStruct_of_unary (h : Typing.meets ty (Typing.unaryDemand op) = true) :
    ty.isStruct = false := by
  cases ty with
  | struct => cases op <;> cases h
  | _ => rfl

mutual

/-- The code of an expression gives what the expression means. -/
theorem ExprCode.follows (hc : c.Sound meaning) (hl : c.Located names storage places slots)
    (hbound : bound ≤ s.slots.length) (hr : c.Running s temps mach)
    (hst : c.Stored bound slots store mach) (hfree : e.isFloatFree = true)
    : ExprCode c.env storage e s low code s' →
    Typed c.findings names e ty → s'.Le c.final → bridge.Follows (Meaning.eval c.findings meaning places store e)
      (c.run temps code) mach (c.Evaluated (c.spot s.slots.length) temps mach s' ty low)
  | @ExprCode.integer _ _ _ value long _ _ hty, .integer hn, _ => by
    cases TypeTable.typeOf_unique hty hn
    cases long with
    | true => exact .ok rfl fun _ => ⟨.refl hr, rfl, Int64.ofNat value, rfl, .i64⟩
    | false =>
      have h32 : Ty.i32.isInt = true := rfl
      exact .ok rfl fun _ =>
        ⟨.refl hr, rfl, (Int64.ofNat value).toInt32.toInt64, rfl, stands_wrap h32 (Int64.ofNat value)⟩
  | .float .., _, _ => by cases hfree
  | @ExprCode.bool _ _ _ value _ _ hty, .bool hn, _ => by
    cases TypeTable.typeOf_unique hty hn
    exact .ok rfl fun _ => ⟨.refl hr, rfl, if value then 1 else 0, rfl, .bool⟩
  | .text hty hv, .text hn, hle => by
    cases TypeTable.typeOf_unique hty hn
    obtain ⟨d, hd, rfl⟩ := hv.mem
    obtain ⟨a, ha⟩ := exists_address (hc.data.subset (hle.data.subset hd))
    have heval : c.eval temps (.global d.name) = .ok (.ofAddress a) := by
      simp only [Activation.eval, eval, ha]
    have hspot := hr.framed.mono hv.draws.le.length
    exact .ok rfl fun _ => ⟨⟨hr.skip hv.draws.le, hspot, .refl _, .refl⟩, rfl, _, heval, .text⟩
  | .var hty hslot haddr, .var hn hname, _ => by
    cases TypeTable.typeOf_unique hty hn
    have hstorage := lookup?_of_storage hslot
    obtain ⟨slot', hslot', hslotTy⟩ := hl.bound _ _ hname
    cases hstorage.symm.trans hslot'
    obtain ⟨k, hk, hslots, -⟩ := hl.located _ _ _ hname hstorage
    obtain ⟨v, hv, hvar⟩ := hst.lookup hslots
    have hproper := hslotTy ▸ (hl.scope _ _ hname).proper.2
    obtain ⟨temps', hrun, hran, hpoints⟩ := slotAddress haddr hr hvar hproper hbound
    rw [Meaning.eval, hk, Option.bind_some, hv, Option.getD_some]
    exact .ok hrun fun _ => ⟨hran, rfl, hslotTy ▸ hpoints⟩
  | .unary hty hce hv hcls, .unary hn he hop, hle => by
    cases TypeTable.typeOf_unique hty hn
    have hle2 := Supply.Le.bump.trans hle
    rw [Expr.isFloatFree] at hfree
    have hev := follows_toValue hr.framed (hce.follows hc hl hbound hr hst hfree he
      (hv.draws.le.trans hle2)) hv
    rw [Meaning.eval, Meaning.typeAt, hn, Option.getD_some, ← List.append_assoc]
    refine follows_bind hr.framed hev fun v temps' mach' hm => ?_
    obtain ⟨hran, x, hx, hgives⟩ := hm
    obtain ⟨ws, w, hws, happly, hstands⟩ :=
      unaryOp_eq hop hcls hx (hgives.stands (isStruct_of_unary hop)) mach'.memory
    obtain ⟨temps'', hrun, hran', hd⟩ := hran.running.result (run_assign hws happly) hstands
    exact .ok hrun fun _ => ⟨hran.trans hran', rfl, hd⟩
  | .compare hty hop' hcl hv hcr hv' hcls hcmp hcond, .binary hn htl htr hop, hle => by
    cases TypeTable.typeOf_unique hty hn
    cases hop'.symm.trans htl.typeOf
    have hfree := Bool.and_eq_true_iff.mp hfree
    have hle4 := Supply.Le.bump.trans hle
    have hle3 := hv'.draws.le.trans hle4
    have hle2 := hcr.draws.le.trans hle3
    rw [Meaning.eval, htl.typeAt, if_pos hcmp]
    have h := (Operands.mk (follows_toValue hr.framed
      (hcl.follows hc hl hbound hr hst hfree.1 htl (hv.draws.le.trans hle2)) hv) fun temps1 mach1 hran =>
      follows_toValue hr.framed (hcr.follows hc hl (Nat.le_trans hbound (hcl.draws.le.trans hv.draws.le).length)
        hran.running (hst.ran hr hran (hr.framed.mono hbound)) hfree.2 htr hle3) hv').compare
      hr.framed hcmp hop hcls hcond
    rw [List.append_assoc, List.append_assoc] at h
    exact h.mono fun _ _ _ hm => ⟨hm.1, rfl, hm.2⟩
  | .arith hty hop' hcl hv hcr hv' hcls hcmp ho, .binary hn htl htr hop, hle => by
    cases TypeTable.typeOf_unique hty hn
    cases hop'.symm.trans htl.typeOf
    have hfree := Bool.and_eq_true_iff.mp hfree
    have hle4 := Supply.Le.bump.trans hle
    have hle3 := hv'.draws.le.trans hle4
    have hle2 := hcr.draws.le.trans hle3
    rw [Meaning.eval, htl.typeAt, if_neg (by simp [hcmp])]
    have h := (Operands.mk (follows_toValue hr.framed
      (hcl.follows hc hl hbound hr hst hfree.1 htl (hv.draws.le.trans hle2)) hv) fun temps1 mach1 hran =>
      follows_toValue hr.framed (hcr.follows hc hl (Nat.le_trans hbound (hcl.draws.le.trans hv.draws.le).length)
        hran.running (hst.ran hr hran (hr.framed.mono hbound)) hfree.2 htr hle3) hv').arith
      hr.framed hcmp hop hcls ho
    rw [List.append_assoc, List.append_assoc] at h
    exact h.mono fun _ _ _ hm => ⟨hm.1, rfl, hm.2⟩
  | .cast hty hsource hce hv hw, .cast hn he hcast, hle => by
    cases TypeTable.typeOf_unique hty hn
    cases hsource.symm.trans he.typeOf
    rw [Expr.isFloatFree, Bool.and_eq_true, Bool.not_eq_true'] at hfree
    have hle2 := hw.draws.le.trans hle
    have hev := follows_toValue hr.framed (hce.follows hc hl hbound hr hst hfree.2 he
      (hv.draws.le.trans hle2)) hv
    rw [Meaning.eval, he.typeAt, ← List.append_assoc]
    refine follows_bind hr.framed hev fun v temps' mach' hm => ?_
    obtain ⟨hran, hd⟩ := hm
    obtain ⟨temps'', hrun, hran', hd'⟩ := Activation.cast hw hcast hfree.1 hran.running hd
    exact .ok hrun fun _ => ⟨hran.trans hran', rfl, hd'⟩
  | .call hty hts hcallee hcargs hcall, .call hn hargs hresolve, hle => by
    cases TypeTable.typeOf_unique hty hn
    cases hts.symm.trans hargs.typesOf
    cases hcallee.symm.trans (Symbols.callee_eq_ok hresolve)
    rw [Expr.isFloatFree] at hfree
    rw [Meaning.eval, hargs.typesAt]
    refine follows_bind hr.framed (hcargs.follows hc hl hbound hr hst hfree hargs
      (hcall.draws.le.trans hle)) fun vs temps' mach' hm => ?_
    obtain ⟨hran, ws, hws, hpassed⟩ := hm
    refine (hcall.follows hc hresolve hle hran.running hws
      (hpassed.imp fun _ _ _ => True.intro)).mono fun v temps'' mach'' hm => ?_
    exact ⟨hran.trans hm.1, rfl, hm.2⟩
  | .construct hty hlayout ha hcargs, @Typed.construct _ _ _ _ _ d hn hd hargs, hle => by
    cases TypeTable.typeOf_unique hty hn
    rw [Expr.isFloatFree] at hfree
    obtain @⟨align, halign⟩ := ha
    have hf := hr.framed
    have hle1 := hcargs.draws.le.trans hle
    have hspace : c.HasSpace s.slots.length (s.slot "new") (.struct _) :=
      ⟨_, slots_allocate hle1⟩
    cases hlayout.symm.trans (layoutOf_eq hf.laid.laid hd)
    have hfields := hcargs.follows hc hl hspace (by rw [length_allocate]; exact Nat.lt_succ_self _) hbound
      (hr.allocate "new" _ _) hst hfree hargs hle (c.layouts.consecutive_packed d)
      (types_packed c.layouts d)
      (by rw [Nat.zero_add]; exact Nat.le_of_eq (sizeOf_struct hf.laid hd).symm)
    rw [Meaning.eval]
    refine hfields.bindPure fun vs temps' mach' hm => ?_
    obtain ⟨hran, hall⟩ := hm
    obtain ⟨hroom, htop⟩ := hspace.room hf
    obtain ⟨align', hk⟩ := hspace
    obtain ⟨x, hx, haddr, -, -⟩ := hran.running.slot hk
    have hgiven : c.spot (s.slots.length + 1) ≤ c.spot s'.slots.length := by
      refine hf.mono ?_
      have := hcargs.draws.le.length
      rwa [length_allocate] at this
    refine ⟨hran, rfl, x, hx, c.spot s.slots.length, haddr, ?_, .inl ?_, .struct hd hall⟩
    · exact Nat.le_trans hroom (Nat.le_trans htop hran.running.room)
    · exact Nat.le_trans hroom hgiven
  | .access hty hobject hoffset hce haddr, .access hn he hfield, hle => by
    cases TypeTable.typeOf_unique hty hn
    cases hobject.symm.trans he.typeOf
    rw [Expr.isFloatFree] at hfree
    rw [Meaning.eval, he.typeAt, hfield]
    exact follows_field hr.framed (hce.follows hc hl hbound hr hst hfree he
      (haddr.draws.le.trans (Supply.Le.bump.trans hle))) haddr hle hfield hoffset

theorem ArgsCode.follows (hc : c.Sound meaning) (hl : c.Located names storage places slots)
    (hbound : bound ≤ s.slots.length) (hr : c.Running s temps mach)
    (hst : c.Stored bound slots store mach) (hfree : areFloatFree es = true) :
    ArgsCode c.env storage receiver es s args code s' → TypedAll c.findings names es ts →
    s'.Le c.final →
    bridge.Follows (Meaning.evalAll c.findings meaning places store es) (c.run temps code) mach
      fun vs temps' mach' => c.Ran (c.spot s.slots.length) temps mach s' temps' mach' ∧
        ∃ ws, (args.mapM fun q => c.eval temps' q.2) = .ok ws ∧
          Passed c.symbols c.layouts mach'.memory.stack (c.Clear (c.spot s'.slots.length)) receiver ts
            vs ws
  | .nil, .nil, _ => .ok rfl fun _ => ⟨.refl hr, [], rfl, .nil⟩
  | .receiver hce haddr hces, .cons he hes, hle => by
    have hfree := Bool.and_eq_true_iff.mp hfree
    have hle2 := hces.draws.le.trans hle
    rw [Meaning.evalAll]
    refine follows_bind hr.framed (hce.follows hc hl hbound hr hst hfree.1 he (haddr.draws.le.trans hle2))
      fun v temps1 mach1 hm => ?_
    obtain ⟨hran1, hmeans⟩ := hm
    obtain ⟨mach2, hrun, hran2, hpoints⟩ := toAddress haddr hle2 hran1.running hmeans
    have hran2 := hran1.trans hran2
    have hlength := (hce.draws.le.trans haddr.draws.le).length
    rw [Activation.run_append]
    refine .seq hrun ((hces.follows hc hl (Nat.le_trans hbound hlength) hran2.running
      (hst.ran hr hran2 (hr.framed.mono hbound)) hfree.2 hes hle).bindPure fun vs temps3 mach3 hm => ?_)
    obtain ⟨hran3, ws, hws, hpassed⟩ := hm
    obtain ⟨x, heval, hleads⟩ := hpoints.mono hran3 hle hran3.given
    exact ⟨hran2.trans hran3, .int x :: ws,
      mapM_eq_ok_iff.mpr (.cons heval (mapM_eq_ok_iff.mp hws)), .receiver hleads hpassed⟩
  | .value hce hv hty ht hces, .cons he hes, hle => by
    have hfree := Bool.and_eq_true_iff.mp hfree
    have hle2 := hces.draws.le.trans hle
    have hev := follows_toValue hr.framed (hce.follows hc hl hbound hr hst hfree.1 he
      (hv.draws.le.trans hle2)) hv
    rw [Meaning.evalAll, ← List.append_assoc]
    refine follows_bind hr.framed hev fun v temps1 mach1 hm => ?_
    obtain ⟨hran1, hd⟩ := hm
    have hlength := (hce.draws.le.trans hv.draws.le).length
    refine (hces.follows hc hl (Nat.le_trans hbound hlength) hran1.running
      (hst.ran hr hran1 (hr.framed.mono hbound)) hfree.2 hes hle).bindPure fun vs temps2 mach2 hm => ?_
    obtain ⟨hran2, ws, hws, hpassed⟩ := hm
    obtain ⟨x, heval, hgives⟩ := hd.mono hran2 hle hran2.given
    exact ⟨hran1.trans hran2, .int x :: ws,
      mapM_eq_ok_iff.mpr (.cons heval (mapM_eq_ok_iff.mp hws)), .value hgives hpassed⟩

/-- The code that stores fields gives what their values mean. -/
theorem FieldsCode.follows (hc : c.Sound meaning) (hl : c.Located names storage places slots)
    (hspace : c.HasSpace k slot whole) (hk : k < s.slots.length) (hbound : bound ≤ k)
    (hr : c.Running s temps mach) (hst : c.Stored bound slots store mach)
    (hfree : areFloatFree es = true) :
    FieldsCode c.env storage (.temp slot) fields es s code s' → TypedAll c.findings names es ts →
    s'.Le c.final → c.layouts.Consecutive offset fields → fields.map FieldLayout.ty = ts →
    offset + (ts.map c.layouts.sizeOf).sum ≤ c.layouts.sizeOf whole →
    bridge.Follows (Meaning.evalAll c.findings meaning places store es) (c.run temps code) mach
      fun vs temps' mach' => c.Ran (c.spot k + offset) temps mach s' temps' mach' ∧
        HoldAll c.symbols c.layouts mach'.memory.stack ts vs (c.spot k + offset)
  | .nil, .nil, _, _, _, hroom | .none, .nil, _, _, _, hroom => by
    obtain ⟨hsize, htop⟩ := hspace.room hr.framed
    have hgiven : c.spot (k + 1) ≤ c.spot s.slots.length := hr.framed.mono hk
    exact .ok rfl fun _ => ⟨.keep (by omega) (.refl hr), .nil⟩
  | @FieldsCode.cons _ _ _ _ _ _ _ _ _ _ _ o _ s2 c3 c4 _ hce hv hs hces,
      @TypedAll.cons _ _ _ _ ty _ he hes, hle, ⟨hoffset, hfields⟩, hts, hroom => by
    have hf := hr.framed
    obtain ⟨hsize, htop⟩ := hspace.room hf
    have hgiven : c.spot (k + 1) ≤ c.spot s.slots.length := hf.mono hk
    have hfree := Bool.and_eq_true_iff.mp hfree
    obtain ⟨hfieldTy, hts⟩ := List.cons.inj hts
    rw [List.map_cons, List.sum_cons] at hroom
    have hlt := hf.packed.sizeOf_lt whole
    rw [Extent.advance, hfieldTy, Nat.mod_eq_of_lt (by omega)] at hfields
    have hle3 := hces.draws.le.trans hle
    have hle2 := Supply.Le.bump.trans hle3
    have hev := follows_toValue hf (hce.follows hc hl (Nat.le_of_lt (Nat.lt_of_le_of_lt hbound hk)) hr hst
      hfree.1 he (hv.draws.le.trans hle2)) hv
    rw [Meaning.evalAll, ← List.append_assoc]
    refine follows_bind hf hev fun v temps1 mach1 hm => ?_
    obtain ⟨hran1, hd⟩ := hm
    have hk2 : k < s2.slots.length :=
      Nat.lt_of_lt_of_le hk (hce.draws.le.trans hv.draws.le).length
    have hfit : offset + c.layouts.sizeOf ty ≤ c.layouts.sizeOf whole := by omega
    obtain ⟨temps2, mach2, hstore, hran2, hholds⟩ :=
      storeField hspace hk2 hfit hran1.running hd (hfieldTy ▸ hs) hle3
    have hran2 := (hran1.keep (by omega)).append hran2 (Nat.le_refl _) (Nat.le_refl _)
    have hrest := hces.follows hc hl hspace (by exact hk2) hbound hran2.running
      (hst.ran hr hran2 (Nat.le_trans (hf.mono hbound) (Nat.le_add_right _ _))) hfree.2 hes hle
      hfields hts (by omega)
    rw [← Nat.add_assoc] at hrest
    rw [← List.cons_append, Activation.run_append, hoffset]
    refine .seq hstore (hrest.bindPure fun vs temps3 mach3 hm => ?_)
    obtain ⟨hran3, hall⟩ := hm
    refine ⟨hran2.append hran3 (Nat.le_add_right _ _) (hf.mono hces.draws.le.length),
      .cons (hholds.copy hf.laid fun i hi => ?_) hall⟩
    have hroom2 := hran2.running.room
    exact hran3.memory.bytes _ (by omega) (.inl (by omega))

end

end

end StructLang.Flat
