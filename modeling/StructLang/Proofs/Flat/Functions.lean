import StructLang.Proofs.Flat.Statements

/-!
# Running functions

The flat code of a function does what the function means: arguments arrive under the names of the
parameters, stack space is taken, the parameters are stored in it and the body runs. By induction on how
deep calls may nest, so does the whole module.
-/

namespace StructLang.Flat

open scoped CoreNumbers

/-! ## Names of arguments -/

theorem isNameStart_of_isDigit (h : c.isDigit = true) : Token.isNameStart c = false := by
  have hrange : 48 ≤ c.toNat ∧ c.toNat ≤ 57 := by
    simp only [Char.isDigit, Bool.and_eq_true, decide_eq_true_eq] at h
    exact ⟨UInt32.le_iff_toNat_le.mp h.1, UInt32.le_iff_toNat_le.mp h.2⟩
  have hcases : c.toNat = 48 ∨ c.toNat = 49 ∨ c.toNat = 50 ∨ c.toNat = 51 ∨ c.toNat = 52 ∨
      c.toNat = 53 ∨ c.toNat = 54 ∨ c.toNat = 55 ∨ c.toNat = 56 ∨ c.toNat = 57 := by omega
  rw [← Char.ofNat_toNat c]
  rcases hcases with hc | hc | hc | hc | hc | hc | hc | hc | hc | hc <;> rw [hc] <;> decide

theorem isName_self : IsName "self" :=
  ⟨'s', ['e', 'l', 'f'], rfl, by decide, List.all_eq_true.mp (by decide +kernel)⟩

variable {hidden : List String}

theorem incoming_ne_slot (h : IsName name) (hint : String) (k : Nat) :
    incoming name ≠ s!"{hint}.{k}" := by
  intro heq
  obtain ⟨c, cs, hname, hc, hcs⟩ := h
  have hlist : ['.', 'p'] ++ '.' :: c :: cs = hint.toList ++ '.' :: Nat.toDigits 10 k := by
    have htoList := congrArg String.toList heq
    rw [show s!"{hint}.{k}" = numberedName hint k from rfl, toList_numberedName] at htoList
    simpa [incoming, hname] using htoList
  have hdot : '.' ∉ c :: cs := by
    rw [List.mem_cons, not_or]
    refine ⟨fun hc' => ?_, fun hm => ?_⟩
    · rw [← hc'] at hc
      exact absurd hc (by decide)
    · exact absurd (hcs _ hm) (by decide)
  have hdot' : '.' ∉ Nat.toDigits 10 k := fun hm => by cases isDigit_of_mem_digits hm
  -- after the last dot, the one name starts with a letter and the other with a digit
  obtain ⟨-, hdigits⟩ := append_cons_inj hdot hdot' hlist
  have hdigit : c.isDigit = true := isDigit_of_mem_digits (hdigits ▸ List.mem_cons_self)
  rw [isNameStart_of_isDigit hdigit] at hc
  cases hc

theorem incoming_inj (h : incoming name = incoming name') : name = name' := by
  have htoList := congrArg String.toList h
  simpa [incoming, String.toList_inj] using htoList

theorem incoming_ne_temp (name : String) (n : Nat) : incoming name ≠ s!".t{n}" := by
  intro heq
  have htoList := congrArg (fun t => t.toList[1]?) heq
  simp [incoming, ToString.toString] at htoList

/-! ## Arguments -/

section

variable {mach : Machine} {receiver : Bool}

theorem Passed.keeps (hl : Measured s l)
    (h : Passed s l mach.memory.stack (fun _ _ => True) receiver ts vs ws)
    (hk : mach.Keeps 0 0 mach') : Passed s l mach'.memory.stack (fun _ _ => True) receiver ts vs ws := by
  have hbytes : ∀ {ty : Ty} (start i : Nat), True → i < l.sizeOf ty →
      start + i < mach.memory.stack.size →
      mach'.memory.stack[start + i]? = mach.memory.stack[start + i]? :=
    fun start i _ _ hi => hk.bytes _ hi (.inr (Nat.zero_le _))
  induction h with
  | nil => exact .nil
  | receiver h _ ih => exact .receiver (h.keeps hl hk.size hbytes) ih
  | value h _ ih => exact .value (h.keeps hl hk.size hbytes) ih

theorem retains_bindParams (temps : Temps) (params : List (Class × String)) (args : List Value) :
    bridge.Retains (bindParams m temps params args) := by
  induction params generalizing temps args with
  | nil => exact .pure _
  | cons q params ih =>
    cases args with
    | nil => exact .pure _
    | cons w args => exact (retains_pass _ _).bind fun _ => ih _ _

def Params (ps : List TypedName) (params : List (Class × String)) : Prop :=
  List.Forall₂ (fun p q => Class.passed p.ty = .ok q.1 ∧ q.2 = incoming p.name) ps params

theorem Params.names (h : Params ps params) :
    params.map Prod.snd = ps.map fun p => incoming p.name := by
  induction h with
  | nil => rfl
  | cons hp _ ih => rw [List.map_cons, List.map_cons, hp.2, ih]

def Arrived (s : Symbols) (l : Layouts) (temps : Temps) (mach : Machine) (ps : List TypedName)
    (vs : List Meaning.Value) : Prop :=
  List.Forall₂ (fun p v => ∃ x, temps.lookup (incoming p.name) = some (.int x) ∧
    Gives s l mach.memory.stack (fun _ => True) p.ty v x) ps vs

theorem Arrived.lookup (h : Arrived s l temps mach ps vs) (hp : p ∈ ps) :
    ∃ x, temps.lookup (incoming p.name) = some (.int x) := by
  induction h with
  | nil => cases hp
  | cons h _ ih =>
    rcases List.mem_cons.mp hp with rfl | hp
    · obtain ⟨x, hx, -⟩ := h
      exact ⟨x, hx⟩
    · exact ih hp

theorem bindParams_follows (temps : Temps) (hl : Measured s l) (hm : m.Sizes s l)
    (hp : Params ps params) (hnodup : (ps.map TypedName.name).Nodup)
    (h : Passed s l mach.memory.stack (fun _ _ => True) false (ps.map TypedName.ty) vs ws) :
    bridge.Follows (.ok ()) (bindParams m temps params ws) mach fun _ temps' mach' =>
      mach.Keeps 0 0 mach' ∧ Arrived s l temps' mach' ps vs ∧
        ∀ t, t ∉ params.map Prod.snd → temps'.lookup t = temps.lookup t := by
  induction hp generalizing temps mach vs ws with
  | nil =>
    cases h
    exact .ok rfl fun _ => ⟨.refl, .nil, fun _ _ => rfl⟩
  | @cons p q ps params hpq hp ih =>
    obtain ⟨cls, name⟩ := q
    obtain ⟨hcls, rfl⟩ := hpq
    rw [List.map_cons, List.nodup_cons] at hnodup
    cases h with
    | @value x _ v _ _ _ hgives h =>
      obtain ⟨w, mach1, hpass, hkeeps, hw⟩ := pass_eq hl hm hcls hgives
      have hfirst : bridge.Follows (.ok ()) (pass m cls (.int x)) mach fun _ w mach1 =>
          mach.Keeps 0 0 mach1 ∧ ∃ y, w = .int y ∧
            Gives s l mach1.memory.stack (fun _ => True) p.ty v y := by
        refine .ok hpass fun hsmall => ⟨hkeeps, ?_⟩
        obtain ⟨y, rfl, hy⟩ := hw hsmall
        exact ⟨y, rfl, hy.imp fun _ _ => True.intro⟩
      refine hfirst.bind (k := fun _ => .ok ()) (fun _ => retains_bindParams _ _ _) ?_
      rintro - w mach1 ⟨hkeeps, y, rfl, hy⟩
      refine (ih _ hnodup.2 (h.keeps hl hkeeps)).mono fun _ temps' mach' hm => ?_
      obtain ⟨hkeeps', harrived, hframe⟩ := hm
      have hnew : incoming p.name ∉ params.map Prod.snd := by
        rw [Params.names hp]
        intro hmem
        obtain ⟨p', hp', heq⟩ := List.mem_map.mp hmem
        exact hnodup.1 (incoming_inj heq ▸ List.mem_map_of_mem hp')
      refine ⟨hkeeps.trans hkeeps' (Nat.le_refl _) (Nat.le_refl _), .cons ⟨y, ?_, ?_⟩ harrived, ?_⟩
      · rw [hframe _ hnew, Temps.lookup_assign, if_pos rfl]
      · exact hy.keeps hl hkeeps'.size fun start i _ _ hi => hkeeps'.bytes _ hi (.inr (Nat.zero_le _))
      · intro t ht
        rw [List.map_cons, List.mem_cons, not_or] at ht
        rw [hframe t ht.2, Temps.lookup_assign, if_neg ht.1]

end

/-! ## Stack space -/

def pushSpot (a : Nat) (spot : Nat → Nat) : Nat → Nat
  | 0 => a
  | k + 1 => spot k

/-- Stack space was taken in order. -/
structure Laid (slots : List Instr) (spot : Nat → Nat) (temps : Temps) (mach : Machine)
    (temps' : Temps) (mach' : Machine) : Prop where
  below : mach.memory.stack.size ≤ spot 0
  mono : Monotone spot
  room : ∀ (k : Nat) name align size, slots[k]? = some (.assign name .long (.alloc align) [.int size]) →
    spot k + addressOf size ≤ spot (k + 1)
  top : spot slots.length ≤ mach'.memory.stack.size
  kept : mach.Keeps 0 0 mach'
  placed : mach'.Small → ∀ (k : Nat) name align size,
    slots[k]? = some (.assign name .long (.alloc align) [.int size]) →
      ∃ x, temps'.lookup name = some (.int x) ∧ addressOf x = stackBase + spot k
  frame : ∀ t, t ∉ dests slots → temps'.lookup t = temps.lookup t

theorem Laid.cons {spot : Nat → Nat} {temps : Temps} {mach : Machine}
    (h : Laid rest spot (temps.assign name (.ofAddress (stackBase + mach.memory.aligned align)))
      (mach.grow (addressOf size) align) temps' mach')
    (hnew : name ∉ dests rest) : Laid (.assign name .long (.alloc align) [.int size] :: rest)
      (pushSpot (mach.memory.aligned align) spot) temps mach temps' mach' := by
  have hlow := mach.memory.le_aligned align
  have hsize := mach.size_grow (addressOf size) align
  have hbelow := h.below
  have hgrow := mach.keeps_grow (addressOf size) align
  refine ⟨hlow, monotone_nat_of_le_succ fun k => ?_, fun k name' align' size' hk => ?_, h.top,
    hgrow.trans h.kept (Nat.le_refl _) (Nat.le_refl _), fun hsmall k name' align' size' hk => ?_,
    fun t ht => ?_⟩
  · cases k with
    | zero =>
      change mach.memory.aligned align ≤ spot 0
      omega
    | succ k => exact h.mono (Nat.le_succ k)
  · cases k with
    | zero =>
      cases hk
      change mach.memory.aligned align + addressOf size ≤ spot 0
      omega
    | succ k => exact h.room k _ _ _ hk
  · cases k with
    | zero =>
      cases hk
      have hkept := h.kept.size
      unfold Machine.Small at hsmall
      obtain ⟨x, hx, haddr⟩ := ofAddress_eq
        (show stackBase + mach.memory.aligned align < 2 ^ (64 : Nat) by unfold stackBase; omega)
      refine ⟨x, ?_, haddr⟩
      rw [h.frame name hnew, Temps.lookup_assign, if_pos rfl, hx]
    | succ k => exact h.placed hsmall k _ _ _ hk
  · have ht' : t ≠ name ∧ t ∉ dests rest := by
      simpa [dests, Instr.dest?] using ht
    rw [h.frame t ht'.2, Temps.lookup_assign, if_neg ht'.1]

theorem exists_laid (m : Module) (call : Call) (halloc : ∀ i ∈ slots, i.IsAlloc)
    (hnodup : (dests slots).Nodup) (temps : Temps) (mach : Machine) :
    ∃ spot temps' mach', straight m call temps slots mach = .ok temps' mach' ∧
      Laid slots spot temps mach temps' mach' := by
  induction slots generalizing temps mach with
  | nil =>
    refine ⟨fun _ => mach.memory.stack.size, temps, mach, rfl, Nat.le_refl _, monotone_const, ?_,
      Nat.le_refl _, .refl, ?_, fun _ _ => rfl⟩
    · intro k name align size hk
      cases hk
    · intro _ k name align size hk
      cases hk
  | cons i rest ih =>
    obtain ⟨⟨hint, n, align, size, rfl⟩, hrest⟩ := List.forall_mem_cons.mp halloc
    generalize s!"{hint}.{n}" = name at hnodup ⊢
    obtain ⟨hnew, hnodup⟩ : name ∉ dests rest ∧ (dests rest).Nodup := List.nodup_cons.mp hnodup
    obtain ⟨spot, temps', mach', hrun, hlaid⟩ := ih hrest hnodup
      (temps.assign name (.ofAddress (stackBase + mach.memory.aligned align)))
      (mach.grow (addressOf size) align)
    exact ⟨_, temps', mach', hrun, hlaid.cons hnew⟩

/-! ## Parameters -/

section

variable {c : Activation}

open Activation

theorem ParamsCode.classes {env : Env} (h : ParamsCode env storage ps s storage' params code s') :
    Params ps params := by
  induction h with
  | nil => exact .nil
  | cons _ _ hc _ ih => exact .cons ⟨hc, rfl⟩ ih

def LocatedBut (hidden : List String) (names : Scope Binding) (storage : Scope Slot)
    (places : Scope Nat) (slots : List Slot) : Prop :=
  ∀ name b slot, name ∉ hidden → names.lookup? name = some b → storage.lookup? name = some slot →
    ∃ k, places.lookup? name = some k ∧ slots[k]? = some slot ∧ slot.byReference = b.isReceiver

/-- The code that stores parameters puts the arguments into slots. A name that a later parameter has need
not be located yet. -/
theorem ParamsCode.runs (h : ParamsCode c.env storage ps s storage' params code s')
    (harrived : List.Forall₂ (fun p v => c.Denotes temps mach (c.spot 0)
      (.temp (incoming p.name)) p.ty v) ps vs)
    (hle : s'.Le c.final)
    (hd : ∀ p ∈ ps, p.ty.Declared c.symbols)
    (hfits : Fits Slot.ty c.findings names storage)
    (hl : LocatedBut (ps.map TypedName.name) names storage places slots)
    (hat : c.At s slots store temps mach) :
    ∃ mach' slots', c.run temps code mach = .ok temps mach' ∧
      c.Located
        (ps.foldl (fun scope p => scope.define p.name ⟨p.ty, false, false⟩) names) storage'
        (Meaning.bindNames places slots.length (ps.map TypedName.name)) slots' ∧
      c.At s' slots' (store ++ vs) temps mach' := by
  induction h generalizing names places slots store mach vs with
  | nil =>
    cases harrived
    rw [List.append_nil]
    exact ⟨mach, slots, rfl, ⟨hfits, fun name b slot => hl name b slot List.not_mem_nil⟩, hat⟩
  | @cons scope p rest s slot s1 code cls inner params code' s2 ha hs hc hrest ih =>
    obtain ⟨hdp, hd⟩ := List.forall_mem_cons.mp hd
    have hle1 := hrest.draws.le.trans hle
    obtain ⟨hspace, hlength⟩ := ha.space hle1
    cases harrived with
    | @cons _ v _ vs hv harrived =>
      have hran := Ran.refl (hat.running.skip ha.draws.le)
      obtain ⟨mach1, hrun, hkeeps, hat1⟩ := hat.declare ⟨slot, p.ty, false⟩ hspace ha.draws.le .refl
        hlength hran hv hs fun _ _ hholds _ => hholds
      have hmono := hat.running.framed.mono
      have hran1 : c.Ran (c.spot 0) temps mach s1 temps mach1 :=
        ⟨hat1.running, hmono (Nat.zero_le _), .refl _,
          hkeeps.mono (hmono (Nat.zero_le _)) (Nat.le_refl _)⟩
      have hl1 : LocatedBut (rest.map TypedName.name) (names.define p.name ⟨p.ty, false, false⟩)
          (scope.define p.name ⟨slot, p.ty, false⟩) (places.define p.name slots.length)
          (slots ++ [⟨slot, p.ty, false⟩]) := by
        intro name b slot' hname hb hslot
        rw [Scope.lookup?_define] at hb hslot ⊢
        by_cases heq : name = p.name
        · rw [if_pos heq] at hb hslot
          cases hb
          cases hslot
          exact ⟨slots.length, if_pos heq, by simp, rfl⟩
        · rw [if_neg heq] at hb hslot
          have hname' : name ∉ (p :: rest).map TypedName.name := by
            rw [List.map_cons, List.mem_cons, not_or]
            exact ⟨heq, hname⟩
          obtain ⟨k, hk, hslots, href⟩ := hl name b slot' hname' hb hslot
          have hlt := (List.getElem?_eq_some_iff.mp hslots).1
          exact ⟨k, by rw [if_neg heq]; exact hk, (List.getElem?_append_left hlt).trans hslots, href⟩
      obtain ⟨mach2, slots', hrun2, hl2, hat2⟩ := ih
        (harrived.imp fun _ _ hv => hv.mono hran1 hle1 (Nat.le_refl _)) hle hd
        (hfits.define p.name (b := ⟨p.ty, false, false⟩) hdp rfl) hl1 hat1
      rw [List.length_append, List.length_singleton] at hl2
      rw [List.append_assoc] at hat2
      refine ⟨mach2, slots', ?_, hl2, hat2⟩
      rw [Activation.run_append, Execution.bind_of_ok hrun]
      exact hrun2

/-- The receiver, if there is one, arrived by its address, unless a parameter took its name. -/
inductive Received (s : Symbols) (l : Layouts) (bound : Nat) (hidden : List String) (temps : Temps)
    (mach : Machine) : Option Ty → List Meaning.Value → Prop where
  | none : Received s l bound hidden temps mach none []
  | some {ty v x} (hx : temps.lookup (incoming "self") = some (.int x))
      (h : "self" ∉ hidden → Leads s l mach.memory.stack
        (fun start => start + l.sizeOf ty ≤ bound) ty v x) :
      Received s l bound hidden temps mach (some ty) [v]

theorem Received.length_eq {s : Symbols} (h : Received s l bound hidden temps mach receiver vs) :
    vs.length = receiver.toList.length := by
  cases h <;> rfl

/-- The code that stores the receiver puts its address into a slot. If a parameter takes the name of the
receiver, the slot is out of use. -/
theorem ReceiverCode.runs
    (h : ReceiverCode c.env Scope.empty.push s receiver storage params code s')
    (hreceived : Received c.symbols c.layouts c.entry.memory.stack.size hidden temps mach receiver vs)
    (hle : s'.Le c.final) (hsym : c.symbols.Sound) (hd : ∀ ty ∈ receiver, ty.Declared c.symbols)
    (hat : c.At s [] [] temps mach) : ∃ mach' slots, c.run temps code mach = .ok temps mach' ∧
      c.Ran (c.spot 0) temps mach s' temps mach' ∧
      Fits Slot.ty c.findings (receiverScope receiver) storage ∧
      LocatedBut hidden (receiverScope receiver) storage
        (Meaning.bindNames Scope.empty.push 0 (receiver.toList.map fun _ => "self")) slots ∧
      c.At s' slots vs temps mach' := by
  have hmono := hat.running.framed.mono
  have hempty : Fits Slot.ty c.findings Scope.empty.push Scope.empty.push := .empty hsym
  cases h with
  | none =>
    cases hreceived
    refine ⟨mach, [], rfl, (Ran.refl hat.running).keep (hmono (Nat.zero_le _)), hempty, ?_, hat⟩
    intro name b slot _ hb
    cases hb
  | @some ty slot s' ha =>
    cases hreceived with
    | @some _ v x hx hleads =>
      obtain ⟨hspace, hlength⟩ := ha.space hle
      have hgiven : c.Denotes temps mach (c.spot 0) (.temp (incoming "self")) .i64 (.int x) :=
        ⟨x, eval_temp.mpr hx, .i64⟩
      -- the slot is tracked with the type that tells whether it is in use
      have hstore : ∀ ty' : Ty, (ty' ≠ .error → ty' = ty ∧ "self" ∉ hidden) →
          ∃ mach', c.run temps [.store .long (.temp (incoming "self")) (.temp slot)] mach =
              .ok temps mach' ∧ c.Ran (c.spot 0) temps mach s' temps mach' ∧
            c.At s' ([] ++ [⟨slot, ty', true⟩]) ([] ++ [v]) temps mach' := by
        intro ty' hty'
        have hcontent : ∀ mach', mach.Keeps (c.spot s.slots.length) (c.spot s'.slots.length) mach' →
            Holds c.symbols c.layouts mach'.memory.stack .i64 (.int x) (c.spot s.slots.length) →
            c.Contains mach' s.slots.length v ⟨slot, ty', true⟩ := by
          intro mach' hkeeps hholds hne
          obtain ⟨rfl, hself⟩ := hty' hne
          have hbelow := hat.running.framed.below
          have hstart : c.spot 0 ≤ c.spot s.slots.length := hmono (Nat.zero_le _)
          exact ⟨x, hholds, (hleads hself).keeps hat.running.framed.laid hkeeps.size
            fun start i hle hi hsize => hkeeps.bytes _ hsize (.inl (by omega))⟩
        obtain ⟨mach', hrun, hkeeps, hat'⟩ := hat.declare ⟨slot, ty', true⟩ hspace ha.draws.le
          .refl hlength (Ran.refl (hat.running.skip ha.draws.le)) hgiven (.scalar rfl rfl) hcontent
        exact ⟨mach', hrun, ⟨hat'.running, hmono (Nat.zero_le _), .refl _,
          hkeeps.mono (hmono (Nat.zero_le _)) (Nat.le_refl _)⟩, hat'⟩
      have hlookup : ∀ {name b}, (receiverScope (.some ty)).lookup? name = .some b →
          name = "self" ∧ b = ⟨ty, false, true⟩ := by
        intro name b hb
        rw [receiverScope, Scope.lookup?_define] at hb
        split at hb
        · next heq => exact ⟨heq, (Option.some.inj hb).symm⟩
        · cases hb
      have hfits : Fits Slot.ty c.findings (receiverScope (.some ty))
          (Scope.empty.push.define "self" ⟨slot, ty, true⟩) :=
        hempty.define "self" (b := ⟨ty, false, true⟩) (hd ty rfl) rfl
      by_cases hself : "self" ∈ hidden
      · obtain ⟨mach', hrun, hran, hat'⟩ := hstore .error fun hne => absurd rfl hne
        refine ⟨mach', _, hrun, hran, hfits, fun name b slot' hname hb _ => ?_, hat'⟩
        rw [(hlookup hb).1] at hname
        exact absurd hself hname
      · obtain ⟨mach', hrun, hran, hat'⟩ := hstore ty fun _ => ⟨rfl, hself⟩
        refine ⟨mach', _, hrun, hran, hfits, fun name b slot' hname hb hslot => ?_, hat'⟩
        obtain ⟨rfl, rfl⟩ := hlookup hb
        rw [Scope.lookup?_define, if_pos rfl] at hslot
        cases hslot
        refine ⟨0, ?_, rfl, rfl⟩
        change (Scope.define _ "self" 0).lookup? "self" = _
        rw [Scope.lookup?_define, if_pos rfl]

end

/-! ## Functions -/

open Activation

/-- What a program, its layouts and its module have to be like. -/
structure Premises (f : Findings) (l : Layouts) (m : Module) : Prop where
  symbols : f.symbols.Sound
  foreigns : f.symbols.foreigns = []
  laid : Measured f.symbols l
  packed : l.Packed
  module : m.Sizes f.symbols l
  zero : ∀ ty, ty.Declared f.symbols → ty ≠ .void → ty.isFloat = false →
    ClearsTo f.symbols l ty (Meaning.zero f.symbols f.symbols.structs.length ty)

/-- What a function without floats has to be like. -/
structure Suited (f : Findings) (g : FnDef) : Prop where
  header : g.toFnHeader ∈ f.symbols.functions
  names : ∀ p ∈ g.params, IsName p.name
  nodup : (g.params.map TypedName.name).Nodup
  floatFree : g.body.isFloatFree = true
  body : BlockTyped f g.ret g.startScope g.body

section

variable {g : FnDef} {before : Draft} {call : Call}

/-- The arguments of a function arrived. -/
structure Begun (f : Findings) (l : Layouts) (g : FnDef) (vs : List Meaning.Value) (mach : Machine)
    (temps : Temps) (mach1 : Machine) : Prop where
  kept : mach.Keeps 0 0 mach1
  args : ∃ self own, vs = self ++ own ∧ Arrived f.symbols l temps mach1 g.params own ∧
    Received f.symbols l mach.memory.stack.size (g.params.map TypedName.name) temps mach1 g.receiver
      self
  fresh : ∀ n : Nat, temps.lookup s!".t{n}" = none

theorem BodyCode.binds {params : List (Class × String)} (hpre : Premises f l m) (hg : Suited f g)
    (h : BodyCode (.ofFindings f l) g before params D)
    (hpassed : Passed f.symbols l mach.memory.stack (fun _ _ => True) g.receiver.isSome g.signature
      vs ws) :
    bridge.Follows (.ok ()) (bindParams m [] params ws) mach fun _ temps mach1 =>
      Begun f l g vs mach temps mach1 := by
  cases h with
  | @mk _ _ _ _ _ own _ _ _ hr hp hb =>
    have hclasses := hp.classes
    have htemp : ∀ n : Nat, s!".t{n}" ∉ own.map Prod.snd := by
      intro n hm
      rw [hclasses.names] at hm
      obtain ⟨p, -, heq⟩ := List.mem_map.mp hm
      exact incoming_ne_temp _ _ heq
    rw [FnHeader.signature] at hpassed
    generalize hreceiver : g.receiver = receiver at hr hpassed
    cases hr with
    | none =>
      refine (bindParams_follows [] hpre.laid hpre.module hclasses hg.nodup hpassed).mono ?_
      rintro - temps mach1 ⟨hkeeps, harrived, hframe⟩
      refine ⟨hkeeps, ⟨[], vs, rfl, harrived, ?_⟩, fun n => hframe _ (htemp n)⟩
      rw [hreceiver]
      exact .none
    | some ha =>
      cases hpassed with
      | @receiver x _ v _ vs ws hleads hpassed =>
        have hfollows := bindParams_follows (Temps.assign [] (incoming "self") (.int x))
          hpre.laid hpre.module hclasses hg.nodup hpassed
        refine Bridge.Follows.mono hfollows ?_
        rintro - temps mach1 ⟨hkeeps, harrived, hframe⟩
        refine ⟨hkeeps, ⟨[v], vs, rfl, harrived, ?_⟩, fun n => ?_⟩
        · rw [hreceiver]
          by_cases hself : "self" ∈ g.params.map TypedName.name
          · obtain ⟨p, hmem, hname⟩ := List.mem_map.mp hself
            obtain ⟨y, hy⟩ := harrived.lookup hmem
            exact .some (hname ▸ hy) fun hnot => absurd hself hnot
          · have hnot : incoming "self" ∉ own.map Prod.snd := by
              rw [hclasses.names]
              intro hm
              obtain ⟨p, hmem, heq⟩ := List.mem_map.mp hm
              exact hself (incoming_inj heq ▸ List.mem_map_of_mem hmem)
            refine .some (x := x) ?_ fun _ => hleads.inside.keeps hpre.laid hkeeps.size
              fun start i _ _ hi => hkeeps.bytes _ hi (.inr (Nat.zero_le _))
            rw [hframe _ hnot, Temps.lookup_assign, if_pos rfl]
        · rw [hframe _ (htemp n), Temps.lookup_assign,
            if_neg fun heq => incoming_ne_temp _ _ heq.symm]
          rfl

variable {c : Activation}

theorem Received.keeps (hl : Measured s l) (h : Received s l bound hidden temps mach receiver vs)
    (ht : temps'.lookup (incoming "self") = temps.lookup (incoming "self"))
    (hk : mach.Keeps 0 0 mach') : Received s l bound hidden temps' mach' receiver vs := by
  cases h with
  | none => exact .none
  | some hx h =>
    exact .some (ht.trans hx) fun hself => (h hself).keeps hl hk.size
      fun start i _ _ hi => hk.bytes _ hi (.inr (Nat.zero_le _))

theorem Arrived.denotes (hl : Measured c.symbols c.layouts)
    (h : Arrived c.symbols c.layouts temps mach ps vs)
    (ht : ∀ p ∈ ps, temps'.lookup (incoming p.name) = temps.lookup (incoming p.name))
    (hk : mach.Keeps 0 0 mach') (hspot : mach.memory.stack.size ≤ c.spot 0) :
    List.Forall₂ (fun p v => c.Denotes temps' mach' (c.spot 0) (.temp (incoming p.name)) p.ty v)
      ps vs := by
  induction h with
  | nil => exact .nil
  | cons h _ ih =>
    obtain ⟨hp, hps⟩ := List.forall_mem_cons.mp ht
    obtain ⟨x, hx, hgives⟩ := h
    refine .cons ⟨x, eval_temp.mpr (hp.trans hx), ?_⟩ (ih hps)
    exact (hgives.inside.keeps hl hk.size fun start i _ _ hi =>
      hk.bytes _ hi (.inr (Nat.zero_le _))).imp fun start hstart => .inl (Nat.le_trans hstart hspot)

theorem bindNames_append (places : Scope Nat) (k : Nat) (xs ys : List String) :
    Meaning.bindNames places k (xs ++ ys) =
      Meaning.bindNames (Meaning.bindNames places k xs) (k + xs.length) ys := by
  induction xs generalizing places k with
  | nil => rfl
  | cons x xs ih =>
    rw [List.cons_append, Meaning.bindNames, Meaning.bindNames, ih, List.length_cons]
    congr 1
    omega

theorem follows_end (hname : F.name = g.linkage) (hkept : c.entry.Keeps 0 0 mach) :
    bridge.Follows (if g.ret = .void then .ok .unit else .error (.noReturn g.linkage))
      (runFrom m call F (budget + 1) temps ((if g.ret = .void then .ret none else .halt) :: rest)) mach
      (c.Ends g.ret) := by
  by_cases hvoid : g.ret = .void
  · rw [if_pos hvoid, if_pos hvoid]
    refine .ok rfl fun _ => ⟨hkept, ?_⟩
    rw [Returned, if_pos hvoid]
    exact ⟨rfl, fun w hw => by cases hw⟩
  · rw [if_neg hvoid, if_neg hvoid]
    refine .error rfl ?_
    rw [hname]
    exact .noReturn

theorem not_mem_dests (h : ∀ i ∈ slots, i.IsAlloc)
    (ht : ∀ (hint : String) (k : Nat), t ≠ s!"{hint}.{k}") : t ∉ dests slots := by
  intro hm
  obtain ⟨i, hi, hdest⟩ := mem_dests.mp hm
  obtain ⟨hint, k, align, size, rfl⟩ := h i hi
  exact ht hint k (Option.some.inj hdest).symm

theorem Laid.begins (h : Laid c.final.slots c.spot temps mach1 temps' mach')
    (halloc : ∀ i ∈ c.final.slots, i.IsAlloc) (hnodup : (dests c.final.slots).Nodup)
    (hl : Measured c.symbols c.layouts)
    (hpacked : c.layouts.Packed)
    (hretains : ∀ name args, bridge.Retains (c.call name args)) (hkept : c.entry.Keeps 0 0 mach1)
    (hfresh : ∀ n : Nat, temps.lookup s!".t{n}" = none) (hsmall : mach'.Small) :
    c.At s [] [] temps' mach' := by
  have htemp : ∀ n : Nat, s!".t{n}" ∉ dests c.final.slots :=
    fun n => not_mem_dests halloc fun hint k => temp_ne_slot n hint k
  have hframed : c.Framed := ⟨hl, hpacked, hnodup, Nat.le_trans hkept.size h.below, h.room, h.mono,
    hretains⟩
  refine ⟨⟨hframed, h.placed hsmall, fun n _ => (h.frame _ (htemp n)).trans (hfresh n), h.top, hsmall⟩,
    .nil, .nil, hkept.trans h.kept (Nat.le_refl _) (Nat.le_refl _)⟩

/-- The code of a body stores the parameters and does what the body means. -/
theorem BodyCode.follows (hset : c.Setting F D meaning) (hsym : c.symbols.Sound)
    (hg : Suited c.findings g)
    (h : BodyCode c.env g { before with slots := [], body := [] } params D)
    (hname : F.name = g.linkage)
    (hown : List.Forall₂ (fun p v => c.Denotes temps mach (c.spot 0)
      (.temp (incoming p.name)) p.ty v) g.params own)
    (hself : Received c.symbols c.layouts c.entry.memory.stack.size (g.params.map TypedName.name)
      temps mach g.receiver self)
    (hat : c.At (Draft.supply { before with slots := [], body := [] }) [] [] temps mach)
    (hbudget : g.body.jumps ≤ budget) :
    bridge.Follows (Meaning.invoke c.findings meaning g (self ++ own))
      (runFrom c.module c.call F (budget + 1) temps D.body) mach (c.Ends g.ret) := by
  cases h with
  | @mk scope1 _ c1 s1 scope2 _ c2 s2 d1 hr hp hb =>
    generalize hend : (if g.ret = .void then Instr.ret none else .halt) = i at hset ⊢
    generalize hD : d1.emitIfOpen i = D at hset ⊢
    have hle1 : d1.Grows D := hD ▸ Draft.Grows.emitIfOpen i
    have hle := hb.grows.trans hle1
    have hfinal : s2.Le c.final := hset.code.final ▸ hle.supply
    have hfinal1 := hp.draws.le.trans hfinal
    have hstraight := hr.draws.straight.append hp.draws.straight
    obtain ⟨mach1, slots1, hrun1, hran1, hfits, hl1, hat1⟩ := hr.runs hself hfinal1 hsym
      (fun ty hty => (hsym.receiver _ hg.header ty hty).1) hat
    obtain ⟨mach2, slots2, hrun2, hl2, hat2⟩ := hp.runs
      (hown.imp fun _ _ hv => hv.mono hran1 hfinal1 (Nat.le_refl _)) hfinal
      (hsym.params _ hg.header) hfits hl1 hat1
    have hlength : slots1.length = (g.receiver.toList.map fun _ => "self").length := by
      rw [← hat1.stored.length, List.length_map, hself.length_eq]
    have hnames : Meaning.bindNames Scope.empty.push 0 (Meaning.paramNames g.toFnHeader) =
        Meaning.bindNames (Meaning.bindNames Scope.empty.push 0
          (g.receiver.toList.map fun _ => "self")) slots1.length (g.params.map TypedName.name) := by
      rw [Meaning.paramNames, bindNames_append, Nat.zero_add, hlength]
    rw [← hnames] at hl2
    have hrun : runFrom c.module c.call F (budget + 1) temps D.body mach =
        c.resume F D (Draft.extend { before with slots := [], body := [] } s2 (c1 ++ c2)) budget temps
          mach2 := by
      have hstore : c.run temps (c1 ++ c2) mach = .ok temps mach2 := by
        rw [Activation.run_append, Execution.bind_of_ok hrun1, hrun2]
      change c.resume F D { before with slots := [], body := [] } budget temps mach = _
      rw [resume_extend hstraight hle, Execution.bind_of_ok hstore]
    have hopen : (Draft.extend { before with slots := [], body := [] } s2 (c1 ++ c2)).isTerminated =
        false := Draft.isTerminated_extend rfl hstraight
    have hgoes := hb.goes hset hopen hl2 hat2 hg.floatFree (show 0 + g.body.jumps ≤ budget by omega)
      hg.body hle1
    refine .step hrun (hgoes.follows fun places store y mach' hn => ?_)
    obtain ⟨b, temps', later, rfl, -, ho, -, hat'⟩ := hn
    have hemit : (d1.emit i).Grows D := by
      rw [← hD, Draft.emitIfOpen, ho]
      exact .refl
    rw [resume_emit hemit, ← hend]
    exact follows_end hname hat'.kept

/-- The code of a function does what the function means. -/
theorem FunctionCode.follows (hpre : Premises f l m) (hg : Suited f g)
    (h : FunctionCode (.ofFindings f l) before g F D) (hdata : D.data <+: m.data)
    (hcalls : CallsFollow f.symbols l meaning call)
    (hretains : ∀ name args, bridge.Retains (call name args))
    (hpassed : Passed f.symbols l mach.memory.stack (fun _ _ => True) g.receiver.isSome g.signature
      vs ws)
    (hbudget : g.body.jumps < budget) :
    bridge.Follows (Meaning.invoke f meaning g vs)
      (bindParams m [] F.params ws >>= fun temps => runFrom m call F budget temps F.body) mach
      fun v result mach' =>
        mach.Keeps 0 0 mach' ∧ Returned f.symbols l mach'.memory.stack g.ret v result := by
  have howns := h.owns hpre.packed hg.body
  have hbuilt := h.wellBuilt.1
  cases h with
  | @mk params _ ret hb hret =>
    generalize hF : (⟨g.linkage, g.linkage == entryPoint, params, ret,
      .label "start" :: D.slots ++ D.body⟩ : Function) = F at howns hbuilt
    have hname : F.name = g.linkage := by rw [← hF]
    have hparams : F.params = params := by rw [← hF]
    rw [hparams]
    refine Bridge.Follows.bind (k := fun _ => Meaning.invoke f meaning g vs) (hb.binds hpre hg hpassed)
      (fun _ => retains_runFrom hretains _ _ _) ?_
    rintro - temps1 mach1 hbegun
    obtain ⟨budget, rfl⟩ := Nat.exists_eq_add_of_le' (Nat.succ_le_of_lt (Nat.zero_lt_of_lt hbudget))
    have hnodup : (dests D.slots).Nodup := (List.nodup_append.mp howns.nodup).1
    obtain ⟨spot, temps2, mach2, hslots, hlaid⟩ :=
      exists_laid m call howns.allocs hnodup temps1 mach1
    have hstart : runFrom m call F (budget + 1) temps1 F.body mach1 =
        runFrom m call F (budget + 1) temps2 D.body mach2 := by
      rw [howns.body]
      change runFrom m call F (budget + 1) temps1 (D.slots ++ D.body) mach1 = _
      rw [runFrom_append fun i hi => (howns.allocs i hi).isStraight, Execution.bind_of_ok hslots]
    refine .step hstart fun hw => ?_
    have hsmall : mach2.Small := retains_runFrom hretains _ _ _ mach2 hw
    let c : Activation := ⟨m, call, f, l, D.supply, mach, spot⟩
    have hat : c.At (Draft.supply { before with slots := [], body := [] }) [] [] temps2 mach2 :=
      hlaid.begins howns.allocs hnodup hpre.laid hpre.packed hretains hbegun.kept hbegun.fresh hsmall
    have hset : c.Setting F D meaning :=
      ⟨⟨hcalls, hpre.foreigns, hpre.module, hdata⟩, ⟨howns.body, rfl, hbuilt.labels⟩, hpre.zero⟩
    have hframe : ∀ name, IsName name → temps2.lookup (incoming name) = temps1.lookup (incoming name) :=
      fun name hn => hlaid.frame _ (not_mem_dests howns.allocs (incoming_ne_slot hn))
    obtain ⟨self, own, rfl, harrived, hreceived⟩ := hbegun.args
    exact BodyCode.follows (c := c) hset hpre.symbols hg hb hname
      (harrived.denotes hpre.laid (fun p hp => hframe _ (hg.names p hp)) hlaid.kept hlaid.below)
      (hreceived.keeps hpre.laid (hframe _ isName_self) hlaid.kept) hat (Nat.le_of_lt_succ hbudget) hw

end

end StructLang.Flat
