import StructLang.Proofs.Flat.Faults

/-!
# Jumps go forward

Lowering gives out the labels of a branch before their places are known and sets each of them after all
jumps to it. So every jump of a body leads to a label further on: one invocation runs each instruction at
most once, a budget as long as the body suffices for it, and with the bound on nested calls the run of a
module ends.
-/

namespace StructLang.Flat

open Execution

/-- Every jump of a function leads to the one label of that name, at a higher position. -/
def Function.JumpsForward (f : Function) : Prop :=
  ∀ (k : Nat) (i : Instr), f.body[k]? = some i → ∀ l ∈ i.targets,
    ∃ n, k < n ∧ f.body[n]? = some (.label l) ∧ ∀ n', f.body[n']? = some (.label l) → n' = n

theorem eq_of_label (hn : (labels code).Nodup) {n' : Nat} (h : code[n]? = some (.label l))
    (h' : code[n']? = some (.label l)) : n = n' := by
  induction code generalizing n n' with
  | nil => cases h
  | cons i rest ih =>
    have hrest : (labels rest).Nodup := by
      rw [← List.singleton_append, labels_append] at hn
      exact (List.nodup_append.mp hn).2.1
    have hfirst : i = .label l → ∀ k : Nat, rest[k]? ≠ some (.label l) := by
      rintro rfl k hk
      exact (List.nodup_cons.mp hn).1 (mem_labels.mpr (List.mem_of_getElem? hk))
    cases n with
    | zero =>
      cases n' with
      | zero => rfl
      | succ n' => exact absurd h' (hfirst (Option.some.inj h) n')
    | succ n =>
      cases n' with
      | zero => exact absurd h (hfirst (Option.some.inj h') n)
      | succ n' => rw [ih hrest h h']

theorem FunctionCode.jumpsForward (h : FunctionCode env d g f d') : f.JumpsForward := by
  have hlabels := h.wellBuilt.1.labels
  obtain ⟨hsound, -, hbody⟩ := h.sound_lax
  have honward : Onward [] f.body := hbody ▸ hsound.onward_body
  intro k i hi l hl
  obtain ⟨n, hlt, hn⟩ := honward.exists_label hi hl
  exact ⟨n, hlt, hn, fun n' hn' => eq_of_label hlabels hn' hn⟩

theorem FunctionsCode.jumpsForward (h : FunctionsCode env d gs fs d') :
    ∀ f ∈ fs, f.JumpsForward := by
  intro f hf
  obtain ⟨_, -, _, _, hcode⟩ := h.exists_code f hf
  exact hcode.jumpsForward

/-! ## The way of an invocation through its body -/

/-- The positions of the instructions that an invocation has run after some time, from a position on. -/
inductive Trail (m : Module) (call : Call) (f : Function) : Temps → Nat → Machine → List Nat → Prop where
  | here {temps n s k} (hk : k ≤ stretch (f.body.drop n)) : Trail m call f temps n s (List.range' n k)
  | goto {temps n s l temps' s' next path}
      (hsteps : steps m call f temps (f.body.drop n) s = .ok (.goto l temps') s')
      (hcode : codeAt? l f.body = some (f.body.drop next))
      (h : Trail m call f temps' next s' path) :
      Trail m call f temps n s (List.range' n (stretch (f.body.drop n)) ++ path)

section

variable {f : Function}

variable (hf : f.JumpsForward)
include hf

theorem Function.JumpsForward.lt {next : Nat} (hi : f.body[k]? = some i) (hl : l ∈ i.targets)
    (hnext : f.body[next]? = some (.label l)) : k < next := by
  obtain ⟨target, hlt, -, hunique⟩ := hf k i hi l hl
  rwa [hunique next hnext]

theorem le_of_goto {next : Nat}
    (hsteps : steps m call f temps (f.body.drop n) s = .ok (.goto l temps') s')
    (hcode : codeAt? l f.body = some (f.body.drop next)) : n + stretch (f.body.drop n) ≤ next := by
  obtain ⟨k, i, hi, hstretch, hl⟩ := steps_leaves _ _ hsteps
  rw [List.getElem?_drop] at hi
  have hlabel : f.body[next]? = some (.label l) := by
    obtain ⟨_, rest, -, hrest⟩ := codeAt?_eq_some hcode
    rw [← Nat.add_zero next, ← List.getElem?_drop, hrest]
    rfl
  have hlt := hf.lt hi hl hlabel
  omega

theorem Trail.pairwise (h : Trail m call f temps n s path) :
    path.Pairwise (· < ·) ∧ ∀ k ∈ path, n ≤ k := by
  induction h with
  | here =>
    refine ⟨List.pairwise_lt_range', fun k hk => ?_⟩
    exact (List.mem_range'_1.mp hk).1
  | goto hsteps hcode _ ih =>
    have hnext := le_of_goto hf hsteps hcode
    refine ⟨List.pairwise_append.mpr ⟨List.pairwise_lt_range', ih.1, fun a ha b hb => ?_⟩, fun k hk => ?_⟩
    · have ha := (List.mem_range'_1.mp ha).2
      have hb := ih.2 b hb
      omega
    · rcases List.mem_append.mp hk with hk | hk
      · exact (List.mem_range'_1.mp hk).1
      · have hk := ih.2 k hk
        omega

theorem Trail.nodup (h : Trail m call f temps n s path) : path.Nodup :=
  (h.pairwise hf).1.imp fun hlt => Nat.ne_of_lt hlt

end

/-! ## Invocations end -/

section

variable {m : Module}

theorem ends_runFrom (hf : f.JumpsForward) (hcall : ∀ name values, Ends (call name values))
    (hbudget : f.body.length - n < budget) :
    Ends (runFrom m call f budget temps (f.body.drop n)) := by
  refine stops_runFrom (I := fun budget n => f.body.length - n < budget) (by simp) hcall (by simp)
    (fun budget n k i l next hn hi _ hl hlabel => ?_) (by simp) hbudget
  have hlt := hf.lt hi hl hlabel
  have hlength := (List.getElem?_eq_some_iff.mp hi).1
  omega

theorem exists_budget (hf : ∀ f ∈ m.functions, f.JumpsForward) :
    ∃ enough, ∀ budget, enough ≤ budget → ∀ s, m.execute budget ≠ .error .outOfBudget s := by
  obtain ⟨enough, henough⟩ := exists_enough (fun f n => f.body.length < n) m.functions
    fun f _ => ⟨f.body.length + 1, fun _ => id⟩
  refine ⟨enough, fun budget hbudget s h => ?_⟩
  have hfunctions : ∀ f ∈ m.functions, ∀ call : Call, (∀ name values, Ends (call name values)) →
      ∀ temps, Ends (runFrom m call f budget temps f.body) := fun f hmem call hcall temps =>
    ends_runFrom (n := 0) (hf f hmem) hcall (henough budget hbudget f hmem)
  exact stops_callAt (by simp) hfunctions maxDepth entryPoint [] _ _ s h rfl

end

end StructLang.Flat
