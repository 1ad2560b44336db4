import StructLang.Proofs.Ssa.Activation
import StructLang.Proofs.Ssa.BodyKinds

/-!
# Registers that hold what their kinds promise

A promise says of each kind what a value of it is like. While code that keeps to the kinds runs, the
registers that the code may read keep a promise as long as every result does, since no register is
assigned by two instructions.
-/

namespace StructLang.Ssa

variable {c : KindEnv}

/-- An operand that has a kind after one more instruction had it before, or it is what that instruction
assigned. -/
theorem OperandKind.snoc (h : OperandKind c (before ++ [i]) (.register r) k) :
    OperandKind c before (.register r) k ∨ i.dest? = some r ∧ ResultKind c before i k := by
  cases h with
  | slot h hr => exact .inl (.slot h hr)
  | holder h => exact .inl (.holder h)
  | @result _ pre j post _ _ h hr hk =>
    rcases List.eq_nil_or_concat post with rfl | ⟨init, x, rfl⟩
    · obtain ⟨rfl, hij⟩ := List.append_inj' h rfl
      cases hij
      exact .inr ⟨hr, hk⟩
    · rw [List.concat_eq_append, ← List.cons_append, ← List.append_assoc] at h
      obtain ⟨rfl, -⟩ := List.append_inj' h rfl
      exact .inl (.result rfl hr hk)

theorem OperandKind.assigned (hc : c.receiver.isSome = true → .alloca 0 .ptr ∈ c.slots)
    (h : OperandKind c before (.register r) k) : r ∈ dests c.slots ++ dests before := by
  rw [← dests_append]
  cases h with
  | slot h => exact mem_dests.mpr ⟨_, List.mem_append_left _ h, rfl⟩
  | holder h => exact mem_dests.mpr ⟨_, List.mem_append_left _ (hc (by simp [h])), rfl⟩
  | result h hr => exact mem_dests.mpr ⟨_, by simp [h], hr⟩

def Registers.Keep (promise : Kind → Value → Prop) (c : KindEnv) (before : List Instr)
    (regs : Registers) : Prop :=
  ∀ r k v, OperandKind c before (.register r) k → regs.lookup r = some v → promise k v

namespace Registers.Keep

variable {regs : Registers}

theorem nil : Registers.Keep promise c before [] := nofun

theorem mono (h : regs.Keep promise c before) (hp : ∀ k v, promise k v → promise' k v) :
    regs.Keep promise' c before :=
  fun r k v hk hv => hp k v (h r k v hk hv)

theorem restart (h : regs.Keep promise c before) : regs.Keep promise c [] :=
  fun r k v hk hv => h r k v hk.anywhere hv

theorem make (h : regs.Keep promise c before)
    (hv : ∀ k, OperandKind c before (.register r) k → promise k v) :
    (regs.assign r v).Keep promise c before := by
  intro r' k w hk hw
  rw [Registers.lookup_assign] at hw
  split at hw
  · next heq =>
    cases hw
    exact hv k (heq ▸ hk)
  · exact h r' k w hk hw

theorem pass (h : regs.Keep promise c before) (hi : i.dest? = none) :
    regs.Keep promise c (before ++ [i]) := by
  intro r k v hk hv
  rcases hk.snoc with hk | ⟨hr, -⟩
  · exact h r k v hk hv
  · cases hi.symm.trans hr

theorem assign (h : regs.Keep promise c before) (hi : i.dest? = some r)
    (hc : c.receiver.isSome = true → .alloca 0 .ptr ∈ c.slots)
    (hr : r ∉ dests c.slots ++ dests before) (hv : ∀ k, ResultKind c before i k → promise k v) :
    (regs.assign r v).Keep promise c (before ++ [i]) := by
  intro r' k w hk hw
  rw [Registers.lookup_assign] at hw
  split at hw
  · next heq =>
    cases hw
    subst heq
    rcases hk.snoc with hk | ⟨-, hk⟩
    · exact absurd (hk.assigned hc) hr
    · exact hv k hk
  · next hne =>
    rcases hk.snoc with hk | ⟨hr', -⟩
    · exact h r' k w hk hw
    · exact absurd (Option.some.inj (hr'.symm.trans hi)) hne

end Registers.Keep

theorem fresh_of_nodup (hnodup : (dests c.slots ++ dests (before ++ i :: code)).Nodup) :
    ∀ r, i.dest? = some r → r ∉ dests c.slots ++ dests before := by
  intro r hr hm
  rw [List.append_cons, dests_append, dests_append, ← List.append_assoc, ← List.append_assoc]
    at hnodup
  have hdisjoint := (List.nodup_append.mp (List.nodup_append.mp hnodup).1).2.2
  exact hdisjoint r hm r (mem_dests.mpr ⟨i, by simp, hr⟩) rfl

theorem Module.Lowers.kinded {m : Module} (hl : m.Lowers p) (hw : p.WellTyped)
    (hF : F ∈ m.functions) : ∃ g ∈ p.functions, ∃ c, F.Kinded c ∧ F.name = g.linkage ∧
      c.module = m ∧ c.symbols = p.symbols ∧ paramsOf g.toFnHeader = .ok c.params ∧
      Ty.ofSource g.ret = .ok F.ret := by
  obtain ⟨g, hg, strings, strings', hcode, hprefix⟩ := exists_of_forall₂ hl.functions.forall₂.2 hF
  have hname : F.name = g.linkage := by
    cases hcode
    rfl
  obtain ⟨c, hkinded, -, -, hc⟩ := hcode.kinded (.unasked g) hprefix.subset hw.symbols
    (List.mem_map_of_mem hg) (hw.bodies g hg) fun name d hd => hl.structs.struct? hd
  exact ⟨g, hg, c, hkinded, hname, hc⟩

theorem Module.Lowers.kinded_function {m : Module} (hl : m.Lowers p) (hw : p.WellTyped)
    (hg : g ∈ p.functions) : ∃ F c, m.function? g.linkage = some F ∧ F.Kinded c ∧
      c.module = m ∧ c.symbols = p.symbols ∧ paramsOf g.toFnHeader = .ok c.params ∧
      Ty.ofSource g.ret = .ok F.ret := by
  obtain ⟨F, hF, -⟩ := hl.function? hw hg
  obtain ⟨g', hg', c, hkinded, hname, hc⟩ := hl.kinded hw (List.mem_of_find?_eq_some hF)
  have hlinkage : F.name = g.linkage := by simpa using List.find?_some hF
  obtain rfl := hw.linkage_inj hg' hg (hname.symm.trans hlinkage)
  exact ⟨F, c, hF, hkinded, hc⟩

end StructLang.Ssa
