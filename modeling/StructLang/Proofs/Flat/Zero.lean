import StructLang.Proofs.Flat.Expressions

/-!
# Zero values in memory

Bytes that are all zero spell the value with which a variable of their type starts, and the code that
clears a variable leaves such bytes.
-/

namespace StructLang.Flat

open scoped CoreNumbers

open Symbols (Way)

def Cleared (stack : Array UInt8) (start size : Nat) : Prop := ∀ i < size, stack[start + i]? = some 0

theorem Cleared.append (h : Cleared stack start n) (h' : Cleared stack (start + n) n') :
    Cleared stack start (n + n') := by
  intro i hi
  by_cases hin : i < n
  · exact h i hin
  · obtain ⟨j, rfl⟩ := Nat.exists_eq_add_of_le (Nat.le_of_not_lt hin)
    rw [← Nat.add_assoc]
    exact h' j (by omega)

/-- Zero bytes, a whole number of words, spell a value of a type. -/
structure ClearsTo (s : Symbols) (l : Layouts) (ty : Ty) (v : Meaning.Value) : Prop where
  words : 4 ∣ l.sizeOf ty
  holds : ∀ stack start, Cleared stack start (l.sizeOf ty) → Holds s l stack ty v start

theorem slice?_cleared (h : Cleared stack start n) (hn : 0 < n) :
    Memory.slice? stack start n = some (List.replicate n 0) := by
  have hlast := (Array.getElem?_eq_some_iff.mp (h (n - 1) (by omega))).1
  refine Memory.slice?_eq_some.mpr ⟨by omega, List.length_replicate, fun k hk => ?_⟩
  rw [h k hk, List.getElem?_replicate, if_pos hk]

theorem stands_zero (s : Symbols) (depth : Nat) (hc : Class.ofSource ty = .ok cls)
    (hs : ty.isStruct = false) (hf : ty.isFloat = false) :
    Stands ty (Meaning.zero s depth ty) 0 ∧ cls.decode (List.replicate cls.width 0) = .int 0 := by
  cases ty with
  | struct => cases hs
  | f32 | f64 => cases hf
  | unknown | error | void => cases hc
  | bool => cases depth <;> cases hc <;> exact ⟨.bool (b := false), rfl⟩
  | string => cases depth <;> cases hc <;> exact ⟨.text, rfl⟩
  | i32 => cases depth <;> cases hc <;> exact ⟨.i32 rfl, rfl⟩
  | i64 => cases depth <;> cases hc <;> exact ⟨.i64, rfl⟩

theorem clearsTo_scalar (s : Symbols) (depth : Nat) (hp : ty.Proper) (hv : ty ≠ .void)
    (hs : ty.isStruct = false) (hf : ty.isFloat = false) :
    ClearsTo s l ty (Meaning.zero s depth ty) := by
  obtain ⟨cls, hc⟩ := exists_class hp hv
  obtain ⟨hstands, hdecode⟩ := stands_zero s depth hc hs hf
  have hwidth := width_of_ofSource hc hs l
  refine ⟨?_, fun stack start h => ?_⟩
  · rw [← hwidth]
    cases cls <;> first | exact ⟨1, rfl⟩ | exact ⟨2, rfl⟩
  · rw [← hwidth] at h
    exact .scalar hstands hc (slice?_cleared h (by cases cls <;> exact Nat.zero_lt_succ _)) hdecode

theorem clearsTo_fields {fields : List TypedName}
    (h : ∀ g ∈ fields, ClearsTo s l g.ty (Meaning.zero s depth g.ty)) :
    4 ∣ ((fields.map TypedName.ty).map l.sizeOf).sum ∧ ∀ stack start,
      Cleared stack start ((fields.map TypedName.ty).map l.sizeOf).sum →
        HoldAll s l stack (fields.map TypedName.ty) (fields.map fun g => Meaning.zero s depth g.ty)
          start := by
  induction fields with
  | nil => exact ⟨Nat.dvd_zero 4, fun _ _ _ => .nil⟩
  | cons g rest ih =>
    obtain ⟨hg, hrest⟩ := List.forall_mem_cons.mp h
    obtain ⟨hwords, hall⟩ := ih hrest
    simp only [List.map_cons, List.sum_cons]
    refine ⟨Nat.dvd_add hg.words hwords, fun stack start hclear => ?_⟩
    refine .cons (hg.holds _ _ fun i hi => hclear i (by omega)) (hall _ _ fun i hi => ?_)
    rw [Nat.add_assoc]
    exact hclear _ (by omega)

/-- A type that is reached down a way of structs. -/
theorem clearsTo_way (hl : Measured s l) (hground : s.Grounded) (hsound : s.Sound)
    (hfloat : ∀ d ∈ s.structs, ∀ g ∈ d.fields, g.ty.isFloat = false) (depth : Nat)
    (path : List String) (hty : ty.Declared s) (hvoid : ty ≠ .void)
    (hf : ty.isFloat = false) (hway : ∀ name, ty = .struct name → Way s (name :: path))
    (hdepth : s.structs.length ≤ depth + path.length) :
    ClearsTo s l ty (Meaning.zero s depth ty) := by
  induction depth generalizing path ty with
  | zero =>
    refine clearsTo_scalar s 0 hty.proper hvoid ?_ hf
    cases ty with
    | struct name =>
      have hlength := hground.length_way (hway name rfl)
      rw [List.length_cons] at hlength
      omega
    | _ => rfl
  | succ depth ih =>
    cases ty with
    | struct name =>
      have hname := hway name rfl
      obtain ⟨d, hd⟩ := hname.declared name List.mem_cons_self
      have hmem := (Symbols.struct?_eq_some hd).1
      have hfields : ∀ g ∈ d.fields, ClearsTo s l g.ty (Meaning.zero s depth g.ty) := by
        intro g hg
        have hdeclared := hsound.fields d hmem g hg
        refine ih (name :: path) hdeclared.1 hdeclared.2 (hfloat d hmem g hg) (fun inner hinner => ?_)
          (by rw [List.length_cons]; omega)
        obtain ⟨d', hd'⟩ := hdeclared.1.struct inner hinner
        exact .cons hname ⟨d, hd, Typing.mem_fieldStructs.mpr ⟨g, hg, hinner⟩⟩ hd'
      obtain ⟨hwords, hall⟩ := clearsTo_fields hfields
      refine ⟨by rwa [sizeOf_struct hl hd], fun stack start hclear => ?_⟩
      rw [sizeOf_struct hl hd] at hclear
      rw [Meaning.zero, hd]
      exact .struct hd (hall stack start hclear)
    | _ => exact clearsTo_scalar s (depth + 1) hty.proper hvoid rfl hf

theorem clearsTo_zero (hl : Measured s l) (hground : s.Grounded) (hsound : s.Sound)
    (hfloat : ∀ d ∈ s.structs, ∀ g ∈ d.fields, g.ty.isFloat = false) (hty : ty.Declared s)
    (hvoid : ty ≠ .void) (hf : ty.isFloat = false) :
    ClearsTo s l ty (Meaning.zero s s.structs.length ty) := by
  refine clearsTo_way hl hground hsound hfloat _ [] hty hvoid hf (fun name hname => ?_)
    (Nat.le_refl _)
  obtain ⟨d, hd⟩ := hty.struct name hname
  exact .single hd

/-! ## Clearing a variable -/

namespace Activation

variable {c : Activation} {temps : Temps} {mach : Machine}

theorem run_clear (ha : c.eval temps a = .ok (.int x)) (haddr : addressOf x = stackBase + start)
    (hroom : start + 4 ≤ mach.memory.stack.size) :
    c.run temps [.store .word (.int 0) a] mach = .ok temps (mach.put start (List.replicate 4 0)) := by
  simp only [eval] at ha
  have hstore : mach.memory.store .word (.int 0) (addressOf x) =
      .ok (mach.put start (List.replicate 4 0)).memory := write_eq haddr hroom
  have hchange : changeMemory (fun memory => memory.store .word (.int 0) (addressOf x)) mach =
      .ok () (mach.put start (List.replicate 4 0)) := by
    rw [changeMemory, hstore]
    rfl
  simp only [run_singleton, step, ha]
  exact Execution.bind_of_ok hchange

theorem cleared_put (hroom : start + n ≤ mach.memory.stack.size) :
    Cleared (mach.put start (List.replicate n 0)).memory.stack start n := by
  intro i hi
  have hk : i < (List.replicate n (0 : UInt8)).length := by rwa [List.length_replicate]
  rw [Machine.put, Memory.getElem?_overwrite hk (by rwa [List.length_replicate]),
    List.getElem?_replicate, if_pos hi]

/-- Words from an offset on were cleared. -/
structure Clears (c : Activation) (lo size : Nat) (s' : Supply) (temps : Temps) (mach : Machine)
    (temps' : Temps) (mach' : Machine) : Prop where
  running : c.Running s' temps' mach'
  temps : temps.Le temps'
  memory : mach.Keeps lo (lo + size) mach'
  cleared : Cleared mach'.memory.stack lo size

theorem Clears.cons {lo : Nat} (hroom : lo + 4 ≤ mach.memory.stack.size) (ht : temps.Le temps')
    (h : c.Clears (lo + 4) n s' temps' (mach.put lo (List.replicate 4 0)) temps'' mach') :
    c.Clears lo (4 + n) s' temps mach temps'' mach' := by
  have hput := mach.keeps_put lo (List.replicate 4 0)
  have hword := cleared_put hroom
  rw [List.length_replicate] at hput
  have hmemory := hput.trans h.memory (Nat.le_add_right _ _) (Nat.le_add_right _ _)
  rw [Nat.add_assoc] at hmemory
  refine ⟨h.running, ht.trans h.temps, hmemory, ?_⟩
  refine Cleared.append (fun i hi => ?_) h.cleared
  rw [h.memory.bytes _ (by rw [Machine.size_put]; omega) (by omega)]
  exact hword i hi

theorem zeroWords (h : ZeroWords a words offset s code s') (hr : c.Running s temps mach)
    (ha : c.eval temps a = .ok (.int x)) (haddr : addressOf x = stackBase + start)
    (hroom : start + offset + 4 * words ≤ mach.memory.stack.size) :
    ∃ temps' mach', c.run temps code mach = .ok temps' mach' ∧
      c.Clears (start + offset) (4 * words) s' temps mach temps' mach' := by
  induction h generalizing temps mach with
  | nil => exact ⟨temps, mach, rfl, hr, .refl _, .refl, fun i hi => by omega⟩
  | first _ ih =>
    have hroom1 : start + 4 ≤ mach.memory.stack.size := by omega
    have hsize := mach.size_put start (List.replicate 4 0)
    obtain ⟨temps', mach', hrun, hclears⟩ := ih (hr.put start (List.replicate 4 0)) ha (by omega)
    refine ⟨temps', mach', ?_, ?_⟩
    · rw [show ∀ code, Instr.store .word (.int 0) a :: code = [.store .word (.int 0) a] ++ code from
        fun _ => rfl, run_append, Execution.bind_of_ok (run_clear ha haddr hroom1)]
      exact hrun
    · rw [Nat.mul_succ, Nat.add_comm (4 * _)]
      exact hclears.cons hroom1 (.refl _)
  | @next words offset s code s' hne _ ih =>
    have hroom1 : start + offset + 4 ≤ mach.memory.stack.size := by omega
    have hsize := mach.size_put (start + offset) (List.replicate 4 0)
    have hsmall : mach.memory.stack.size < 2 ^ (62 : Nat) := hr.small
    obtain ⟨hran, heval⟩ := hr.assign (.int (x + Int64.ofNat offset))
    have haddr' : addressOf (x + Int64.ofNat offset) = stackBase + (start + offset) := by
      rw [addressOf_add (by unfold stackBase at haddr; omega), haddr, Nat.add_assoc]
    obtain ⟨temps', mach', hrun, hclears⟩ := ih
      (hran.running.put (start + offset) (List.replicate 4 0)) (eval_mono ha hran.temps) (by omega)
    refine ⟨temps', mach', ?_, ?_⟩
    · rw [show .assign s.temp .long .add [a, .int (Int64.ofNat offset)] ::
          .store .word (.int 0) (.temp s.temp) :: code =
            [.assign s.temp .long .add [a, .int (Int64.ofNat offset)]] ++
              ([.store .word (.int 0) (.temp s.temp)] ++ code) from rfl,
        run_append, Execution.bind_of_ok (run_add ha), run_append,
        Execution.bind_of_ok (run_clear heval haddr' hroom1)]
      exact hrun
    · rw [Nat.mul_succ, Nat.add_comm (4 * words)]
      exact hclears.cons hroom1 hran.temps

theorem zero (h : ZeroCode c.env (.temp name) s ty code s')
    (hspace : c.HasSpace k name ty) (hf : ty.isFloat = false)
    (hz : ClearsTo c.symbols c.layouts ty (Meaning.zero c.symbols depth ty))
    (hr : c.Running s temps mach) :
    ∃ temps' mach', c.run temps code mach = .ok temps' mach' ∧ c.Running s' temps' mach' ∧
      temps.Le temps' ∧ mach.Keeps (c.spot k) (c.spot k + c.layouts.sizeOf ty) mach' ∧
      Holds c.symbols c.layouts mach'.memory.stack ty (Meaning.zero c.symbols depth ty) (c.spot k) := by
  obtain ⟨align, hk⟩ := hspace
  obtain ⟨x, hx, haddr, hroom, htop⟩ := hr.slot hk
  have hsize := Nat.le_trans hroom htop
  cases h with
  | single | double => cases hf
  | @struct name' _ _ h =>
    -- the struct is a whole number of words, so that the last one ends where it does
    have hwords : 4 * ((c.layouts.sizeOf (.struct name') + 3) / 4) = c.layouts.sizeOf (.struct name') := by
      have := hz.words
      omega
    obtain ⟨temps', mach', hrun, hclears⟩ := zeroWords h hr hx haddr
      (show c.spot k + 0 + 4 * ((c.layouts.sizeOf (.struct name') + 3) / 4) ≤ _ by omega)
    rw [show c.env.layouts.sizeOf (.struct name') = c.layouts.sizeOf (.struct name') from rfl,
      hwords] at hclears
    exact ⟨temps', mach', hrun, hclears.running, hclears.temps, hclears.memory,
      hz.holds _ _ hclears.cleared⟩
  | scalar hs _ hc =>
    have hd : c.Denotes temps mach (c.spot k) (.int 0) ty (Meaning.zero c.symbols depth ty) := by
      refine ⟨0, rfl, ?_⟩
      rw [Gives, if_neg (by simp [hs])]
      exact (stands_zero c.symbols depth hc hs hf).1
    obtain ⟨bytes, hlen, hrun, hholds⟩ := run_store hr.framed.laid (.scalar hs hc) hd hx haddr hsize
    have hkeeps := mach.keeps_put (c.spot k) bytes
    rw [hlen] at hkeeps
    exact ⟨temps, _, hrun, hr.put _ _, .refl _, hkeeps, hholds⟩

end Activation

end StructLang.Flat
