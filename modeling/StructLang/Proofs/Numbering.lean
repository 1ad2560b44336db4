import StructLang.Proofs.Grammar

/-!
# Numbered names

A name made of a stem, a dot and a number determines both, since the digits of a number hold no dot.
Lowering makes names of slots and labels in this way from numbers that it uses once.
-/

namespace StructLang

def numberedName (stem : String) (n : Nat) : String := s!"{stem}.{n}"

theorem toList_numberedName (stem : String) (n : Nat) :
    (numberedName stem n).toList = stem.toList ++ '.' :: Nat.toDigits 10 n := by
  simp [numberedName, ToString.toString, Nat.repr_eq_ofList_toDigits]

theorem isDigit_of_mem_digits (h : c ∈ Nat.toDigits 10 n) : c.isDigit = true :=
  Nat.isDigit_of_mem_toDigits (by omega) (by omega) h

theorem append_cons_inj (hys : a ∉ ys) (hys' : a ∉ ys')
    (h : xs ++ a :: ys = xs' ++ a :: ys') : xs = xs' ∧ ys = ys' := by
  rcases List.append_eq_append_iff.mp h with ⟨zs, rfl, hz⟩ | ⟨zs, rfl, hz⟩
  · cases zs with
    | nil => simpa using hz
    | cons z zs =>
      rw [List.cons_append, List.cons.injEq] at hz
      exact absurd (by rw [hz.2]; simp) hys
  · cases zs with
    | nil => simpa using hz.symm
    | cons z zs =>
      rw [List.cons_append, List.cons.injEq] at hz
      exact absurd (by rw [hz.2]; simp) hys'

theorem numberedName_inj : numberedName stem n = numberedName stem' n' ↔ stem = stem' ∧ n = n' := by
  constructor
  · intro h
    have hdot : ∀ n : Nat, '.' ∉ Nat.toDigits 10 n := fun n hm => by
      cases isDigit_of_mem_digits hm
    have hlist := congrArg String.toList h
    rw [toList_numberedName, toList_numberedName] at hlist
    obtain ⟨hstem, hdigits⟩ := append_cons_inj (hdot n) (hdot n') hlist
    refine ⟨String.toList_inj.mp hstem, ?_⟩
    calc
      n = Nat.ofDigitChars 10 (Nat.toDigits 10 n) 0 := Nat.ofDigitChars_ten_toDigits.symm
      _ = n' := by rw [hdigits, Nat.ofDigitChars_ten_toDigits]
  · rintro ⟨rfl, rfl⟩
    rfl

theorem append_number_inj {n' : Nat} (h : text ++ toString n = text ++ toString n') : n = n' := by
  have hlist := congrArg String.toList h
  rw [String.toList_append, String.toList_append] at hlist
  have hdigits : Nat.toDigits 10 n = Nat.toDigits 10 n' := by
    simpa [ToString.toString, Nat.repr_eq_ofList_toDigits] using List.append_cancel_left hlist
  calc
    n = Nat.ofDigitChars 10 (Nat.toDigits 10 n) 0 := Nat.ofDigitChars_ten_toDigits.symm
    _ = n' := by rw [hdigits, Nat.ofDigitChars_ten_toDigits]

/-! ## Lists of names -/

def Determines (carries : String → Nat → Prop) : Prop :=
  ∀ x n n', carries x n → carries x n' → n = n'

/-- Pairwise distinct names that carry numbers of a range. -/
structure Named (carries : String → Nat → Prop) (lo hi : Nat) (names : List String) : Prop where
  nodup : names.Nodup
  numbers : ∀ x ∈ names, ∃ n, carries x n ∧ lo ≤ n ∧ n < hi

namespace Named

theorem nil : Named carries lo hi [] := ⟨.nil, by simp⟩

theorem single (h : carries x n) (hlo : lo ≤ n) (hhi : n < hi) : Named carries lo hi [x] :=
  ⟨by simp, by simpa using ⟨n, h, hlo, hhi⟩⟩

theorem perm (h : Named carries lo hi xs) (hp : xs.Perm ys) : Named carries lo hi ys :=
  ⟨hp.nodup_iff.mp h.nodup, fun x hx => h.numbers x (hp.mem_iff.mpr hx)⟩

theorem mono (h : Named carries lo hi xs) (hlo : lo' ≤ lo) (hhi : hi ≤ hi') :
    Named carries lo' hi' xs := by
  refine ⟨h.nodup, fun x hx => ?_⟩
  obtain ⟨n, hn, hle, hlt⟩ := h.numbers x hx
  exact ⟨n, hn, Nat.le_trans hlo hle, Nat.lt_of_lt_of_le hlt hhi⟩

theorem append (hc : Determines carries) (hx : Named carries lo mid xs)
    (hy : Named carries mid hi ys) (hlo : lo ≤ mid) (hhi : mid ≤ hi) :
    Named carries lo hi (xs ++ ys) := by
  refine ⟨List.nodup_append.mpr ⟨hx.nodup, hy.nodup, ?_⟩, ?_⟩
  · rintro x hxs _ hys rfl
    obtain ⟨n, hn, -, hlt⟩ := hx.numbers x hxs
    obtain ⟨n', hn', hle, -⟩ := hy.numbers x hys
    have := hc x n n' hn hn'
    omega
  · intro x hm
    rcases List.mem_append.mp hm with hm | hm
    · exact (hx.mono (Nat.le_refl _) hhi).numbers x hm
    · exact (hy.mono hlo (Nat.le_refl _)).numbers x hm

end Named

end StructLang
