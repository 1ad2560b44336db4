import StructLang.Linkage

/-!
# Paths that return

A function with a result is not asked to return one on every path. Both lowerings give out places for
control when they start a branch, the blocks or the labels of its arms and of what follows, and control
gets to what follows only from the end of an arm. What they have in common is said here of the places:
control gets to the end of statements only if some path through them does not return.
-/

namespace StructLang

mutual

def Stmt.returns : Stmt → Bool
  | .ret .. => true
  | .branch _ _ t (some e) => t.returns && e.returns
  | .declare _ | .assign .. | .expr _ | .branch _ _ _ none => false

def stmtsReturn : List Stmt → Bool
  | [] => false
  | s :: rest => s.returns || stmtsReturn rest

def Block.returns : Block → Bool
  | .mk _ stmts => stmtsReturn stmts

end

/-- A function with the symbol has a result, and some path through its body does not return. -/
def Program.MissesReturn (p : Program) (symbol : String) : Prop :=
  ∃ f ∈ p.functions, f.linkage = symbol ∧ f.ret ≠ .void ∧ f.body.returns = false

/-- Where lowering stands: how many places for control were given out, whether control gets to the end of
the code so far, and to which places it gets. -/
structure Front where
  places : Nat
  on : Prop
  hits : Nat → Prop

namespace Front

def Bounded (c : Front) : Prop := ∀ n, c.hits n → n < c.places

/-- More code, after which control gets on only if it got to its start and some path through the code does
not return. It leads to no places of before. -/
structure GoesOn (returns : Bool) (c c' : Front) : Prop where
  places : c.places ≤ c'.places
  bounded : c.Bounded → c'.Bounded
  hits : ∀ n < c.places, c'.hits n → c.hits n
  on : c'.on → c.on ∧ returns = false

/-- The first arm of a branch starts, and control can get to the second. -/
structure Opens (c c' : Front) : Prop where
  places : c'.places = c.places + 3
  hits : ∀ n, c'.hits n → c.hits n ∨ c.on ∧ (n = c.places ∨ n = c.places + 1)
  on : c'.on → c.on

/-- An arm ends: control goes to the last place of the branch, and code goes on at the next. -/
structure Closes (next last : Nat) (c c' : Front) : Prop where
  places : c'.places = c.places
  hits : ∀ n, c'.hits n → c.hits n ∨ n = last ∧ c.on
  on : c'.on → c'.hits next

variable {c : Front}

theorem GoesOn.refl : c.GoesOn false c := ⟨Nat.le_refl _, id, fun _ _ => id, fun h => ⟨h, rfl⟩⟩

theorem GoesOn.trans (h : c.GoesOn returns c') (h' : c'.GoesOn returns' c'') :
    c.GoesOn (returns || returns') c'' := by
  refine ⟨Nat.le_trans h.places h'.places, h'.bounded ∘ h.bounded, fun n hn hhit => ?_, fun hon => ?_⟩
  · exact h.hits n hn (h'.hits n (Nat.lt_of_lt_of_le hn h.places) hhit)
  · obtain ⟨hon, hreturns'⟩ := h'.on hon
    obtain ⟨hon, hreturns⟩ := h.on hon
    exact ⟨hon, by rw [hreturns, hreturns', Bool.or_false]⟩

theorem Opens.bounded (h : c.Opens c') (hc : c.Bounded) : c'.Bounded := by
  intro n hn
  have hplaces := h.places
  rcases h.hits n hn with hn | ⟨-, hn⟩
  · have hlt := hc n hn
    omega
  · omega

theorem Closes.bounded (h : c.Closes next last c') (hlast : last < c.places) (hc : c.Bounded) :
    c'.Bounded := by
  intro n hn
  rw [h.places]
  exact (h.hits n hn).elim (hc n) fun hn => hn.1 ▸ hlast

theorem goesOn_branch (hc : c.Bounded) (hopen : c.Opens c0) (ht : c0.GoesOn returns c1)
    (hclose : c1.Closes (c.places + 1) (c.places + 2) c2) (he : c2.GoesOn returns' c3)
    (hclose' : c3.Closes (c.places + 2) (c.places + 2) c') : c.GoesOn (returns && returns') c' := by
  have hplaces := ht.places
  have hplaces' := he.places
  rw [hopen.places] at hplaces
  rw [hclose.places] at hplaces'
  -- The places of the branch are new: control gets there from its start or from the first arm.
  have hnew : ∀ n, c.places ≤ n → ¬ c.hits n := fun n hn hhit => Nat.not_lt_of_le hn (hc n hhit)
  have hfirst : ∀ n < c.places + 3, c1.hits n →
      c.hits n ∨ c.on ∧ (n = c.places ∨ n = c.places + 1) := by
    intro n hn hhit
    exact hopen.hits n (ht.hits n (by rwa [hopen.places]) hhit)
  have hback : ∀ n < c.places + 3, c3.hits n → c1.hits n ∨ n = c.places + 2 ∧ c1.on := by
    intro n hn hhit
    refine hclose.hits n (he.hits n ?_ hhit)
    rw [hclose.places]
    omega
  refine ⟨by rw [hclose'.places]; omega, fun _ => ?_, fun n hn hhit => ?_, fun hon => ?_⟩
  · have hthen := ht.bounded (hopen.bounded hc)
    have helse := he.bounded (hclose.bounded (by omega) hthen)
    exact hclose'.bounded (by omega) helse
  · have hhit := (hclose'.hits n hhit).resolve_right (by omega)
    have hhit := (hback n (by omega) hhit).resolve_right (by omega)
    exact (hfirst n (by omega) hhit).resolve_right (by omega)
  · rcases hclose'.hits _ (hclose'.on hon) with hhit | ⟨-, hon⟩
    · rcases hback _ (by omega) hhit with hhit | ⟨-, hon⟩
      · exact ((hfirst _ (by omega) hhit).elim (hnew _ (by omega)) (by omega)).elim
      · obtain ⟨hon, hreturns⟩ := ht.on hon
        exact ⟨hopen.on hon, by rw [hreturns, Bool.false_and]⟩
    · obtain ⟨hon, hreturns⟩ := he.on hon
      have hhit := (hclose.hits _ (hclose.on hon)).resolve_right (by omega)
      have hon := ((hfirst _ (by omega) hhit).resolve_left (hnew _ (by omega))).1
      exact ⟨hon, by rw [hreturns, Bool.and_false]⟩

end Front

end StructLang
