import StructLang.Proofs.Execution
import StructLang.Proofs.Flat.Bytes
import StructLang.Proofs.Flat.Structure

/-!
# What calls do to the memory of flat code

A function writes only to stack space that it took itself. So a call that returns leaves every byte that
was on the stack before as it was, as long as addresses of the stack are machine words.
-/

namespace StructLang.Flat

open scoped CoreNumbers

open Execution (Ensures)

def Machine.Small (s : Machine) : Prop := s.memory.stack.size < 2 ^ (62 : Nat)

/-- The stack grew, and if it is still small, the bytes below a bound are as they were. -/
structure Machine.Spares (bound : Nat) (s s' : Machine) : Prop where
  data : s'.memory.data = s.memory.data
  size : s.memory.stack.size ≤ s'.memory.stack.size
  bytes : s'.Small → ∀ i < bound, s'.memory.stack[i]? = s.memory.stack[i]?

namespace Machine.Spares

variable {s : Machine}

theorem small (h : s.Spares bound s') (hs : s'.Small) : s.Small := Nat.lt_of_le_of_lt h.size hs

theorem refl : s.Spares bound s := ⟨rfl, Nat.le_refl _, fun _ _ _ => rfl⟩

theorem trans (h : s.Spares bound s') (h' : s'.Spares bound s'') : s.Spares bound s'' :=
  ⟨h'.data.trans h.data, Nat.le_trans h.size h'.size,
    fun hs i hi => (h'.bytes hs i hi).trans (h.bytes (h'.small hs) i hi)⟩

theorem allocate (hb : bound ≤ s.memory.stack.size) (size align : Nat) :
    s.Spares bound { s with memory := (s.memory.allocate size align).2 } := by
  refine ⟨rfl, ?_, fun _ i hi => s.memory.getElem?_allocate size align (by omega)⟩
  have := s.memory.le_aligned align
  have := s.memory.size_allocate size align
  dsimp only
  omega

theorem write {bytes : List UInt8} {memory : Memory}
    (h : s.memory.write address bytes = .ok memory) (ha : s.Small → stackBase + bound ≤ address) :
    s.Spares bound { s with memory } := by
  obtain ⟨hbase, -, rfl⟩ := Memory.write_eq_ok.mp h
  have hsize := Memory.size_overwrite s.memory.stack (address - stackBase) bytes
  refine ⟨rfl, Nat.le_of_eq hsize.symm, fun hs i hi => ?_⟩
  have := ha (show _ < _ from hsize ▸ hs)
  exact Memory.getElem?_overwrite_of_not (.inl (by omega))

end Machine.Spares

theorem orFault_ensures (r : Except Fault α) :
    Ensures (orFault r) s fun a s' => s' = s ∧ r = .ok a := by
  cases r with
  | ok a => exact .pure ⟨rfl, rfl⟩
  | error f => exact .throw _

theorem get_ensures : Ensures (get : Exec Machine) s fun b s' => b = s ∧ s' = s := .pure ⟨rfl, rfl⟩

theorem changeMemory_ensures (change : Memory → Except Fault Memory) :
    Ensures (changeMemory change) s fun _ s' =>
      ∃ memory, change s.memory = .ok memory ∧ s' = { s with memory } := by
  intro _ s' h
  obtain ⟨memory, output⟩ := s
  rw [changeMemory] at h
  split at h
  · next memory' hm =>
    cases h
    exact ⟨memory', hm, rfl⟩
  · cases h

theorem allocate_ensures (size align : Nat) : Ensures (allocate size align) s fun a s' =>
    a = stackBase + s.memory.aligned align ∧
      s' = { s with memory := (s.memory.allocate size align).2 } := by
  rintro _ _ ⟨⟩
  exact ⟨rfl, rfl⟩

theorem apply_ensures (cls : Class) (op : Op) (args : List Value) :
    Ensures (do orFault (apply (← get).memory cls op args)) s fun v s' =>
      s' = s ∧ apply s.memory cls op args = .ok v := by
  refine get_ensures.bind fun b s' h => ?_
  obtain ⟨rfl, rfl⟩ := h
  exact orFault_ensures _

theorem pass_spares (hb : bound ≤ s.memory.stack.size) (cls : Class) (v : Value) :
    Ensures (pass m cls v) s fun _ s' => s.Spares bound s' := by
  unfold pass copyAggregate
  split
  · split
    · exact .throw _
    · next t _ =>
      refine (allocate_ensures t.size 8).bind fun a s' ha => ?_
      obtain ⟨rfl, rfl⟩ := ha
      refine (orFault_ensures _).bind fun source s' hs => ?_
      rw [hs.1]
      refine (changeMemory_ensures _).bind fun _ s' hs' => .pure ?_
      obtain ⟨memory, hcopy, rfl⟩ := hs'
      obtain ⟨bytes, -, hwrite⟩ := Memory.copy_eq_ok hcopy
      have := s.memory.le_aligned 8
      exact (Machine.Spares.allocate hb t.size 8).trans (.write hwrite fun _ => by omega)
  · exact .pure .refl

theorem keepResult_spares (hb : bound ≤ s.memory.stack.size) (func : String) (temps : Temps)
    (result : Option Value) (dest : Option (String × Class)) :
    Ensures (keepResult m func temps result dest) s fun temps' s' => s.Spares bound s' ∧
      (temps' = temps ∨ ∃ t cls v, dest = some (t, cls) ∧ temps' = temps.assign t v) := by
  unfold keepResult
  split
  · exact .pure ⟨.refl, .inl rfl⟩
  · next t cls =>
    split
    · exact .throw _
    · next v =>
      refine (pass_spares hb cls v).bind fun w s' hs => .pure ⟨hs, .inr ⟨t, cls, w, rfl, rfl⟩⟩

theorem perform_spares (hb : bound ≤ s.memory.stack.size) (cls : Class) (op : Op)
    (args : List Value) : Ensures (perform cls op args) s fun _ s' => s.Spares bound s' := by
  unfold perform
  split
  · next align =>
    refine (orFault_ensures _).bind fun size s' hs => ?_
    rw [hs.1]
    refine (allocate_ensures size align).bind fun a s' ha => .pure ?_
    rw [ha.2]
    exact .allocate hb size align
  · refine (apply_ensures cls _ args).mono fun v s' hs => ?_
    rw [hs.1]
    exact .refl

/-! ## What temporaries hold -/

def SlotsAbove (slots : List String) (bound : Nat) (temps : Temps) (s : Machine) : Prop :=
  ∀ t ∈ slots, ∃ x, temps.lookup t = some (.int x) ∧ stackBase + bound ≤ addressOf x ∧
    addressOf x ≤ stackBase + s.memory.stack.size

/-- Temporaries hold what the code so far says: addresses of stack space, offsets from them, and stack
space as far as it was written. -/
structure Traced (base : List String) (bound : Nat) (before : List Instr) (temps : Temps)
    (s : Machine) : Prop where
  slots : SlotsAbove base bound temps s
  offsets : ∀ t slot offset x, .assign t .long .add [.temp slot, .int offset] ∈ before →
    slot ∈ base → temps.lookup slot = some (.int x) → temps.lookup t = some (.int (x + offset))
  reached : ∀ slot n x, slot ∈ base → Reached base before slot n →
    temps.lookup slot = some (.int x) → addressOf x + n ≤ stackBase + s.memory.stack.size

theorem SlotsAbove.mono (h : SlotsAbove base bound temps s)
    (hsize : s.memory.stack.size ≤ s'.memory.stack.size) : SlotsAbove base bound temps s' := by
  intro t ht
  obtain ⟨x, hx, hlow, hhigh⟩ := h t ht
  exact ⟨x, hx, hlow, by omega⟩

theorem SlotsAbove.traced (h : SlotsAbove base bound temps s) : Traced base bound [] temps s := by
  refine ⟨h, fun _ _ _ _ hm => absurd hm List.not_mem_nil, fun slot n x hslot hn hx => ?_⟩
  obtain ⟨y, hy, -, hhigh⟩ := h slot hslot
  cases hx.symm.trans hy
  generalize hnil : ([] : List Instr) = code at hn
  cases hn with
  | none => exact hhigh
  | write => simp at hnil

theorem Reached.snoc (h : Reached base (before ++ [i]) slot n) :
    Reached base before slot n ∨ ∃ a size offset n', i.writes? = some (a, size) ∧
      a.PointsInto base before slot offset ∧ Reached base before slot n' ∧ offset ≤ n' ∧
      n = offset + size := by
  generalize hcode : before ++ [i] = code at h
  cases h with
  | none => exact .inl .none
  | @write before' after j a size _ offset n' hj ha hn hle =>
    rcases List.eq_nil_or_concat after with rfl | ⟨init, k, rfl⟩
    · obtain ⟨rfl, hij⟩ := List.append_inj' hcode rfl
      cases hij
      exact .inr ⟨a, size, offset, n', hj, ha, hn, hle, rfl⟩
    · rw [List.concat_eq_append, ← List.cons_append, ← List.append_assoc] at hcode
      obtain ⟨rfl, -⟩ := List.append_inj' hcode rfl
      exact .inl (.write hj ha hn hle)

namespace Traced

theorem restart (h : Traced base bound before temps s) : Traced base bound [] temps s :=
  h.slots.traced

theorem address (h : Traced base bound before temps s) (hs : s.Small)
    (ha : a.PointsInto base before slot offset) (hn : Reached base before slot n)
    (hle : offset ≤ n) : ∃ x, slot ∈ base ∧
      temps.lookup slot = some (.int x) ∧ stackBase + bound ≤ addressOf x ∧
      ∀ m w b, eval m temps a = .ok w → w.asAddress = .ok b → b = addressOf x + offset := by
  have hslot : slot ∈ base := by cases ha <;> assumption
  obtain ⟨x, hx, hlow, -⟩ := h.slots slot hslot
  have hhigh := h.reached slot n x hslot hn hx
  have hsmall : s.memory.stack.size < 2 ^ (62 : Nat) := hs
  refine ⟨x, hslot, hx, hlow, fun m w b hw hb => ?_⟩
  cases ha with
  | start =>
    cases hx.symm.trans (eval_temp.mp hw)
    cases hb
    rfl
  | offset _ hm =>
    cases (h.offsets _ _ _ x hm hslot hx).symm.trans (eval_temp.mp hw)
    cases hb
    exact addressOf_add (by unfold stackBase at hhigh; omega)

theorem pass (h : Traced base bound before temps s) (hi : i.writes? = none)
    (hd : ∀ t slot offset, i ≠ .assign t .long .add [.temp slot, .int offset])
    (hsize : s.memory.stack.size ≤ s'.memory.stack.size) :
    Traced base bound (before ++ [i]) temps s' := by
  refine ⟨h.slots.mono hsize, fun t slot offset x hm => ?_, fun slot n x hslot hn hx => ?_⟩
  · rcases List.mem_append.mp hm with hm | hm
    · exact h.offsets t slot offset x hm
    · exact absurd (List.mem_singleton.mp hm).symm (hd t slot offset)
  · rcases hn.snoc with hn | ⟨a, size, _, _, hw, -⟩
    · have := h.reached slot n x hslot hn hx
      omega
    · cases hi.symm.trans hw

theorem assign (h : Traced base bound before temps s) (hi : i.writes? = none)
    (ht : i.dest? = some t) (hfresh : t ∉ base ++ dests before)
    (hv : ∀ slot offset x, i = .assign t .long .add [.temp slot, .int offset] → slot ∈ base →
      temps.lookup slot = some (.int x) → v = .int (x + offset))
    (hsize : s.memory.stack.size ≤ s'.memory.stack.size) :
    Traced base bound (before ++ [i]) (temps.assign t v) s' := by
  rw [List.mem_append, not_or] at hfresh
  have hslot : ∀ slot ∈ base, (temps.assign t v).lookup slot = temps.lookup slot := by
    intro slot hm
    rw [Temps.lookup_assign, if_neg]
    rintro rfl
    exact hfresh.1 hm
  refine ⟨fun slot hm => ?_, fun t' slot offset x hm hs hx => ?_, fun slot n x hm hn hx => ?_⟩
  · rw [hslot slot hm]
    exact h.slots.mono hsize slot hm
  · rw [hslot slot hs] at hx
    rw [Temps.lookup_assign]
    rcases List.mem_append.mp hm with hm | hm
    · rw [if_neg, h.offsets t' slot offset x hm hs hx]
      rintro rfl
      exact hfresh.2 (mem_dests.mpr ⟨_, hm, rfl⟩)
    · cases List.mem_singleton.mp hm
      cases ht
      rw [if_pos rfl, hv slot offset x rfl hs hx]
  · rw [hslot slot hm] at hx
    rcases hn.snoc with hn | ⟨a, size, _, _, hw, -⟩
    · have := h.reached slot n x hm hn hx
      omega
    · cases hi.symm.trans hw

theorem write (h : Traced base bound before temps s) (hs : s.Small) {b : Nat}
    (hi : i.writes? = some (a, size)) {m : Module} (hw : eval m temps a = .ok w)
    (hb : w.asAddress = .ok b) (hend : b + size ≤ stackBase + s.memory.stack.size)
    (hsize : s'.memory.stack.size = s.memory.stack.size) :
    Traced base bound (before ++ [i]) temps s' := by
  refine ⟨h.slots.mono (Nat.le_of_eq hsize.symm), fun t slot offset x hm => ?_,
    fun slot n x hslot hn hx => ?_⟩
  · rcases List.mem_append.mp hm with hm | hm
    · exact h.offsets t slot offset x hm
    · cases List.mem_singleton.mp hm
      cases hi
  · rw [hsize]
    rcases hn.snoc with hn | ⟨a', size', offset, n', hw', ha, hn', hle, rfl⟩
    · exact h.reached slot n x hslot hn hx
    · cases hi.symm.trans hw'
      obtain ⟨y, -, hy, -, haddress⟩ := h.address hs ha hn' hle
      cases hx.symm.trans hy
      have := haddress m w b hw hb
      omega

end Traced

/-! ## Steps -/

def Call.Spares (call : Call) (bound : Nat) : Prop :=
  ∀ name values s, bound ≤ s.memory.stack.size →
    Ensures (call name values) s fun _ s' => s.Spares bound s'

section

variable {code : List Instr}

theorem perform_add (hx : temps.lookup slot = some (.int x))
    (hvalues : [.temp slot, .int offset].mapM (eval m temps) = .ok values) :
    Ensures (perform .long .add values) s fun v _ => v = .int (x + offset) := by
  have hforall := mapM_eq_ok_iff.mp hvalues
  obtain ⟨v, hv, _, hw, rfl⟩ : ∃ v, eval m temps (.temp slot) = .ok v ∧
      ∃ w, eval m temps (.int offset) = .ok w ∧ values = [v, w] := by
    cases hforall with
    | cons hv hrest =>
      cases hrest with
      | cons hw hnil =>
        cases hnil
        exact ⟨_, hv, _, hw, rfl⟩
  cases hx.symm.trans (eval_temp.mp hv)
  cases hw
  refine (apply_ensures .long .add _).mono fun v _ hv => ?_
  cases hv.2
  rfl

theorem write_spares (hi : i.writes? = some (a, size)) (ha : a.Owned base before)
    (h : s.Small → Traced base bound before temps s)
    (hw : eval m temps a = .ok w) (hb : w.asAddress = .ok b)
    (hlen : bytes.length = size) (hwrite : s.memory.write b bytes = .ok memory) :
    s.Spares bound { s with memory } ∧
      (Machine.Small { s with memory } → Traced base bound (before ++ [i]) temps { s with memory }) := by
  obtain ⟨hbase, hend, hmemory⟩ := Memory.write_eq_ok.mp hwrite
  have hsize : memory.stack.size = s.memory.stack.size := by
    rw [hmemory]
    exact Memory.size_overwrite _ _ _
  refine ⟨.write hwrite fun hs => ?_, fun hs => ?_⟩
  · obtain ⟨slot, offset, n, hpoints, hn, hle⟩ := ha
    obtain ⟨x, -, -, hlow, haddress⟩ := (h hs).address hs hpoints hn hle
    have := haddress m w b hw hb
    omega
  · have hs' : s.Small := by
      unfold Machine.Small at hs ⊢
      rwa [hsize] at hs
    exact (h hs').write hs' hi hw hb (by omega) hsize

/-- Code that writes only to stack space of its own spares what is below the bound. -/
theorem steps_spares (hcode : Coded (Instr.WritesOwn base) before code)
    (hnodup : (base ++ dests (before ++ code)).Nodup) (hcall : call.Spares bound)
    (hb : bound ≤ s.memory.stack.size) (h : s.Small → Traced base bound before temps s) :
    Ensures (steps m call f temps code) s fun e s' => s.Spares bound s' ∧
      ∀ l temps', e = .goto l temps' → s'.Small → Traced base bound [] temps' s' := by
  induction code generalizing before temps s with
  | nil => exact .pure ⟨.refl, fun _ _ heq => by cases heq⟩
  | cons i rest ih =>
    have hfresh : ∀ t, i.dest? = some t → t ∉ base ++ dests before := by
      intro t ht hm
      rw [List.append_cons, dests_append, dests_append, ← List.append_assoc, ← List.append_assoc]
        at hnodup
      have hdisjoint := (List.nodup_append.mp (List.nodup_append.mp hnodup).1).2.2
      exact hdisjoint t hm t (mem_dests.mpr ⟨i, by simp, ht⟩) rfl
    have hrest := hnodup
    rw [List.append_cons] at hrest
    obtain ⟨hi, hcode⟩ := hcode
    -- what follows an instruction that is no label
    have hnext : ∀ {temps' s'}, i.isLabel = false → s.Spares bound s' →
        (s'.Small → Traced base bound (before ++ [i]) temps' s') →
        Ensures (steps m call f temps' rest) s' fun e s'' => s.Spares bound s'' ∧
          ∀ l temps'', e = .goto l temps'' → s''.Small → Traced base bound [] temps'' s'' := by
      intro temps' s' hl hs ht
      rw [sinceLabel, hl, if_neg Bool.false_ne_true, sinceLabel] at hcode
      exact (ih hcode hrest (Nat.le_trans hb hs.size) ht).mono fun e s'' hs' =>
        ⟨hs.trans hs'.1, hs'.2⟩
    cases i with
    | label l =>
      refine ih hcode ?_ hb fun hs => (h hs).restart
      refine hnodup.sublist (.append_left ?_ _)
      change (dests rest).Sublist _
      rw [dests_append]
      exact List.sublist_append_right (dests before) (dests rest)
    | assign t cls op args =>
      refine (orFault_ensures _).bind fun values s' hv => ?_
      obtain ⟨rfl, hvalues⟩ := hv
      have hperform : Ensures (perform cls op values) s' fun v s'' => s'.Spares bound s'' ∧
          ∀ slot offset x, Instr.assign t cls op args = .assign t .long .add [.temp slot, .int offset] →
            temps.lookup slot = some (.int x) → v = .int (x + offset) := by
        intro v s'' hp
        refine ⟨perform_spares hb cls op values v s'' hp, fun slot offset x heq hx => ?_⟩
        cases heq
        exact perform_add hx hvalues v s'' hp
      refine hperform.bind fun v s'' hs => hnext rfl hs.1 fun hsmall => ?_
      exact (h (hs.1.small hsmall)).assign rfl rfl (hfresh t rfl)
        (fun slot offset x heq _ hx => hs.2 slot offset x heq hx) hs.1.size
    | store cls v a =>
      refine (orFault_ensures _).bind fun value s' hv => ?_
      obtain ⟨rfl, -⟩ := hv
      refine (orFault_ensures _).bind fun b s' hb' => ?_
      obtain ⟨rfl, hb'⟩ := hb'
      obtain ⟨w, hw, hb'⟩ := except_bind_eq_ok.mp hb'
      refine (changeMemory_ensures _).bind fun _ s'' hs => ?_
      obtain ⟨memory, hstore, rfl⟩ := hs
      obtain ⟨bytes, hbytes, hwrite⟩ := Memory.store_eq_ok hstore
      obtain ⟨hspares, htraced⟩ := write_spares (i := .store cls v a) rfl (hi a _ rfl) h hw hb'
        (Class.length_encode hbytes) hwrite
      exact hnext rfl hspares htraced
    | blit source a size =>
      refine (orFault_ensures _).bind fun from' s' hv => ?_
      obtain ⟨rfl, -⟩ := hv
      refine (orFault_ensures _).bind fun b s' hb' => ?_
      obtain ⟨rfl, hb'⟩ := hb'
      obtain ⟨w, hw, hb'⟩ := except_bind_eq_ok.mp hb'
      refine (changeMemory_ensures _).bind fun _ s'' hs => ?_
      obtain ⟨memory, hcopy, rfl⟩ := hs
      obtain ⟨bytes, hbytes, hwrite⟩ := Memory.copy_eq_ok hcopy
      obtain ⟨hspares, htraced⟩ := write_spares (i := .blit source a size) rfl (hi a _ rfl) h hw hb'
        (Memory.length_read hbytes) hwrite
      exact hnext rfl hspares htraced
    | call dest func args =>
      refine (orFault_ensures _).bind fun values s' hv => ?_
      obtain ⟨rfl, -⟩ := hv
      refine (hcall func values _ hb).bind fun result s1 hs1 => ?_
      refine (keepResult_spares (Nat.le_trans hb hs1.size) func temps result dest).bind
        fun temps' s2 hs2 => ?_
      have hs := hs1.trans hs2.1
      refine hnext rfl hs fun hsmall => ?_
      rcases hs2.2 with rfl | ⟨t, cls, v, rfl, rfl⟩
      · exact (h (hs.small hsmall)).pass rfl (fun _ _ _ heq => by cases heq) hs.size
      · exact (h (hs.small hsmall)).assign rfl rfl (hfresh t rfl) (fun _ _ _ heq => by cases heq) hs.size
    | jump l =>
      refine .pure ⟨.refl, ?_⟩
      rintro _ _ ⟨⟩ hs
      exact (h hs).restart
    | jumpIf cond t e =>
      refine (orFault_ensures _).bind fun c s' hc => .pure ?_
      obtain ⟨rfl, -⟩ := hc
      refine ⟨.refl, ?_⟩
      rintro _ _ ⟨⟩ hs
      exact (h hs).restart
    | ret v =>
      cases v with
      | none => exact .pure ⟨.refl, fun _ _ heq => by cases heq⟩
      | some v =>
        refine (orFault_ensures _).bind fun w s' hw => .pure ?_
        obtain ⟨rfl, -⟩ := hw
        exact ⟨.refl, fun _ _ heq => by cases heq⟩
    | halt => exact .throw _

/-- The instructions that take stack space, and what follows them. -/
theorem allocs_spares (hslots : ∀ i ∈ slots, i.IsAlloc)
    (hb : bound ≤ s.memory.stack.size) (h : s.Small → SlotsAbove done bound temps s)
    (hrest : ∀ temps' s', s.Spares bound s' →
      (s'.Small → SlotsAbove (done ++ dests slots) bound temps' s') →
      Ensures (steps m call f temps' rest) s' Q) :
    Ensures (steps m call f temps (slots ++ rest)) s Q := by
  induction slots generalizing done temps s with
  | nil => exact hrest temps s .refl (by simpa using h)
  | cons i slots ih =>
    obtain ⟨⟨hint, n, align, size, rfl⟩, hallocs⟩ := List.forall_mem_cons.mp hslots
    generalize s!"{hint}.{n}" = t at hrest ⊢
    refine (orFault_ensures _).bind fun values s' hv => ?_
    obtain ⟨rfl, -⟩ := hv
    have hperform : Ensures (perform .long (.alloc align) values) s' fun v s'' =>
        ∃ size, v = .ofAddress (stackBase + s'.memory.aligned align) ∧
          s'' = { s' with memory := (s'.memory.allocate size align).2 } := by
      refine (orFault_ensures _).bind fun size s'' hs => ?_
      rw [hs.1]
      refine (allocate_ensures size align).bind fun a s'' ha => .pure ?_
      obtain ⟨rfl, rfl⟩ := ha
      exact ⟨size, rfl, rfl⟩
    refine hperform.bind fun v s'' hs => ?_
    obtain ⟨size, rfl, rfl⟩ := hs
    have hs := Machine.Spares.allocate hb size align
    have hlow := s'.memory.le_aligned align
    have hsize := s'.memory.size_allocate size align
    have habove : Machine.Small { s' with memory := (s'.memory.allocate size align).2 } →
        SlotsAbove (done ++ [t]) bound
          (temps.assign t (.ofAddress (stackBase + s'.memory.aligned align)))
          { s' with memory := (s'.memory.allocate size align).2 } := by
      intro hsmall t' ht'
      rw [Temps.lookup_assign]
      split
      · unfold Machine.Small at hsmall
        dsimp only at hsmall ⊢
        rw [hsize] at hsmall ⊢
        obtain ⟨x, hx, haddress⟩ := ofAddress_eq
          (show stackBase + s'.memory.aligned align < 2 ^ (64 : Nat) by unfold stackBase; omega)
        exact ⟨x, by rw [hx], by omega, by omega⟩
      · next hne =>
        have hdone : t' ∈ done := by simpa [hne] using ht'
        exact (h (hs.small hsmall)).mono hs.size t' hdone
    refine ih hallocs (Nat.le_trans hb hs.size) habove fun temps' s'' hs' ht => ?_
    refine hrest temps' s'' (hs.trans hs') ?_
    simpa [dests, Instr.dest?] using ht

theorem codeAt?_eq_some (h : codeAt? l code = some code') :
    ∃ before rest, code = before ++ code' ∧ code' = .label l :: rest := by
  induction code with
  | nil => cases h
  | cons i rest ih =>
    rw [codeAt?] at h
    split at h
    · next hrest =>
      cases h
      obtain ⟨before, rest', rfl, hl⟩ := ih hrest
      exact ⟨i :: before, rest', rfl, hl⟩
    · split at h
      · next hi =>
        cases h
        exact ⟨[], rest, rfl, by rw [hi]⟩
      · cases h

/-- Where control can be in a function: at its start, or at a label behind its stack space. -/
inductive Enters (f : Function) (slots rest : List Instr) (bound : Nat) (temps : Temps)
    (s : Machine) : List Instr → Prop where
  | start : Enters f slots rest bound temps s f.body
  | label {before code : List Instr} (h : rest = before ++ code)
      (hcode : Coded (Instr.WritesOwn (dests slots)) [] code)
      (ht : s.Small → Traced (dests slots) bound [] temps s) : Enters f slots rest bound temps s code

/-- A jump leads to a place where control can be. -/
theorem Function.Owns.enters (hf : f.Owns slots rest) (hl : codeAt? l f.body = some code)
    (ht : s.Small → Traced (dests slots) bound [] temps s) :
    Enters f slots rest bound temps s code := by
  obtain ⟨before, code', hbody, rfl⟩ := codeAt?_eq_some hl
  rw [hf.body] at hbody
  cases before with
  | nil =>
    rw [List.nil_append] at hbody
    rw [← hbody, ← hf.body]
    exact .start
  | cons i before =>
    obtain ⟨-, hbody⟩ := List.cons.inj hbody
    -- a label does not stand among the stack space
    have hlabel : ∃ before', rest = before' ++ .label l :: code' := by
      rcases List.append_eq_append_iff.mp hbody with ⟨extra, rfl, hrest⟩ | ⟨extra, hslots, hrest⟩
      · exact ⟨extra, hrest⟩
      · cases extra with
        | nil => exact ⟨[], hrest.symm⟩
        | cons j extra =>
          cases hrest
          have hm := (hf.allocs (.label l) (by rw [hslots]; simp)).isStraight.1
          cases hm
    obtain ⟨before', hrest⟩ := hlabel
    have hcode := hf.code
    rw [hrest, coded_append] at hcode
    exact .label hrest ⟨nofun, hcode.2.2⟩ ht

theorem Enters.spares (h : Enters f slots rest bound temps s code) (hf : f.Owns slots rest)
    (hcall : call.Spares bound) (hb : bound ≤ s.memory.stack.size) :
    Ensures (steps m call f temps code) s fun e s' => s.Spares bound s' ∧
      ∀ l temps', e = .goto l temps' → s'.Small → Traced (dests slots) bound [] temps' s' := by
  cases h with
  | start =>
    rw [hf.body]
    have hnone : s.Small → SlotsAbove [] bound temps s := fun _ => List.forall_mem_nil _
    change Ensures (steps m call f temps (slots ++ rest)) s _
    refine allocs_spares hf.allocs hb hnone fun temps' s' hs ht => ?_
    refine (steps_spares hf.code hf.nodup hcall (Nat.le_trans hb hs.size)
      fun hsmall => (ht hsmall).traced).mono fun e s'' hs' => ⟨hs.trans hs'.1, hs'.2⟩
  | @label before _ hrest hcode ht =>
    refine steps_spares hcode (hf.nodup.sublist (.append_left ?_ _)) hcall hb ht
    rw [List.nil_append, hrest, dests_append]
    exact List.sublist_append_right _ _

theorem Function.Owns.spares (hf : f.Owns slots rest) (hcall : call.Spares bound) (budget : Nat)
    (h : Enters f slots rest bound temps s code) (hb : bound ≤ s.memory.stack.size) :
    Ensures (runFrom m call f budget temps code) s fun _ s' => s.Spares bound s' := by
  induction budget generalizing temps s code with
  | zero => exact .throw _
  | succ budget ih =>
    rw [runFrom]
    refine (h.spares hf hcall hb).bind fun e s' hs => ?_
    split
    · exact .pure hs.1
    · exact .throw _
    · next l temps' =>
      split
      · exact .throw _
      · next code' hl =>
        exact (ih (hf.enters hl (hs.2 l temps' rfl)) (Nat.le_trans hb hs.1.size)).mono
          fun _ _ hs' => hs.1.trans hs'

end

/-! ## Calls -/

theorem bindParams_spares (hb : bound ≤ s.memory.stack.size) :
    Ensures (bindParams m temps params args) s fun _ s' => s.Spares bound s' := by
  induction params generalizing temps args s with
  | nil => exact .pure .refl
  | cons p params ih =>
    cases args with
    | nil => exact .pure .refl
    | cons v args =>
      refine (pass_spares hb p.1 v).bind fun w s' hs => ?_
      exact (ih (Nat.le_trans hb hs.size)).mono fun _ _ hs' => hs.trans hs'

theorem callForeign_spares (bound : Nat) :
    Ensures (callForeign name args) s fun _ s' => s.Spares bound s' := by
  refine (get_ensures (s := s)).bind fun b s' h => ?_
  obtain ⟨rfl, rfl⟩ := h
  refine (orFault_ensures _).bind fun text s' h => ?_
  obtain ⟨rfl, -⟩ := h
  have hprint : Ensures (print text) s' fun _ s'' => s''.memory = s'.memory := .pure rfl
  refine hprint.bind fun _ s'' hs => .pure ?_
  exact ⟨congrArg Memory.data hs, Nat.le_of_eq (by rw [hs]), fun _ i _ => by rw [hs]⟩

theorem callAt_spares (hp : p.WellTyped) (hm : Module.ofProgram p p.analyze = .ok m)
    (budget depth bound : Nat) : Call.Spares (callAt m budget depth) bound := by
  induction depth with
  | zero =>
    intro name args s hb
    rw [callAt]
    split
    · exact callForeign_spares bound
    · exact .throw _
  | succ depth ih =>
    intro name args s hb
    rw [callAt]
    split
    · exact callForeign_spares bound
    · next F hF =>
      dsimp only
      split
      · exact .throw _
      · obtain ⟨slots, rest, hF⟩ := owns_of_ofProgram hp hm F (List.mem_of_find?_eq_some hF)
        refine (bindParams_spares hb).bind fun temps s' hs => ?_
        exact (hF.spares ih budget .start (Nat.le_trans hb hs.size)).mono fun _ _ hs' => hs.trans hs'

end StructLang.Flat
