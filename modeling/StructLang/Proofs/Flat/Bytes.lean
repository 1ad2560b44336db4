import StructLang.Flat.Run
import StructLang.Proofs.Lowering

/-!
# Facts about byte memory

What writing, reading and taking stack space do to the bytes of the stack, and that temporaries keep
what they are assigned.
-/

namespace StructLang.Flat

open scoped CoreNumbers

/-! ## Temporaries -/

theorem Temps.lookup_assign (temps : Temps) (t t' : String) (v : Value) :
    (temps.assign t v).lookup t' = if t' = t then some v else temps.lookup t' := by
  induction temps with
  | nil =>
    by_cases h : t' = t
    · simp [Temps.assign, h]
    · simp [Temps.assign, List.lookup_cons, h, beq_eq_false_iff_ne.mpr h]
  | cons entry rest ih =>
    obtain ⟨k, w⟩ := entry
    rw [Temps.assign]
    by_cases hk : k = t
    · subst hk
      by_cases h : t' = k
      · simp [h]
      · simp [List.lookup_cons, h, beq_eq_false_iff_ne.mpr h]
    · by_cases h : t' = k
      · subst h
        simp [hk]
      · simp [List.lookup_cons, hk, beq_eq_false_iff_ne.mpr h, ih]

theorem eval_temp : eval m temps (.temp t) = .ok v ↔ temps.lookup t = some v := by
  rw [eval]
  split
  · next h => rw [h, Except.ok.injEq, Option.some.injEq]
  · next h => simp [h]

/-! ## Addresses -/

def addressOf (x : Int64) : Nat := x.toUInt64.toNat

theorem addressOf_add (h : addressOf x + offset < 2 ^ (64 : Nat)) :
    addressOf (x + Int64.ofNat offset) = addressOf x + offset := by
  have hoffset : (Int64.ofNat offset).toUInt64 = UInt64.ofNat offset := rfl
  rw [addressOf, Int64.toUInt64_add, UInt64.toNat_add, hoffset, UInt64.toNat_ofNat']
  change (addressOf x + _) % _ = _
  rw [Nat.mod_eq_of_lt (show offset < 2 ^ (64 : Nat) by omega), Nat.mod_eq_of_lt h]

theorem ofAddress_eq (h : a < 2 ^ (64 : Nat)) : ∃ x, Value.ofAddress a = .int x ∧ addressOf x = a := by
  refine ⟨_, rfl, ?_⟩
  rw [addressOf, UInt64.toUInt64_toInt64, UInt64.toNat_ofNat', Nat.mod_eq_of_lt h]

/-! ## Encodings -/

theorem length_littleEndian (width n : Nat) : (littleEndian width n).length = width := by
  induction width generalizing n with
  | zero => rfl
  | succ width ih => simp [littleEndian, ih]

theorem Class.length_encode {cls : Class} (h : cls.encode v = .ok bytes) :
    bytes.length = cls.width := by
  cases cls <;>
  · obtain ⟨x, -, h⟩ := except_bind_eq_ok.mp h
    cases h
    exact length_littleEndian _ _

/-! ## Writing -/

namespace Memory

variable {m m' : Memory}

theorem size_overwrite (region : Array UInt8) (start : Nat) (bytes : List UInt8) :
    (overwrite region start bytes).size = region.size := by
  induction bytes generalizing region start with
  | nil => rfl
  | cons b rest ih => rw [overwrite, ih, Array.size_setIfInBounds]

theorem getElem?_overwrite_of_not (h : i < start ∨ start + bytes.length ≤ i) :
    (overwrite region start bytes)[i]? = region[i]? := by
  induction bytes generalizing region start with
  | nil => rfl
  | cons b rest ih =>
    rw [List.length_cons] at h
    rw [overwrite, ih (by omega), Array.getElem?_setIfInBounds_ne (by omega)]

theorem write_eq_ok : m.write address bytes = .ok m' ↔ stackBase ≤ address ∧
    address - stackBase + bytes.length ≤ m.stack.size ∧
    m' = { m with stack := overwrite m.stack (address - stackBase) bytes } := by
  unfold write
  split
  · next h => simp [Nat.not_le.mpr h]
  · next h =>
    dsimp only
    split
    · next hlen =>
      rw [Except.ok.injEq]
      exact ⟨fun heq => ⟨by omega, hlen, heq.symm⟩, fun heq => heq.2.2.symm⟩
    · next hlen => simp [hlen]

/-! ## Reading -/

theorem slice?_eq_some : slice? region start size = some bytes ↔
    start + size ≤ region.size ∧ bytes.length = size ∧ ∀ k < size, region[start + k]? = bytes[k]? := by
  unfold slice?
  split
  · next hle =>
    have hget : ∀ k < size, (region.extract start (start + size)).toList[k]? = region[start + k]? := by
      intro k hk
      rw [Array.getElem?_toList, Array.getElem?_extract, if_pos (by omega)]
    rw [Option.some.injEq]
    constructor
    · rintro rfl
      exact ⟨hle, by simp; omega, fun k hk => (hget k hk).symm⟩
    · rintro ⟨-, hlen, hk⟩
      refine List.ext_getElem? fun k => ?_
      rcases Nat.lt_or_ge k size with hlt | hge
      · rw [hget k hlt, hk k hlt]
      · rw [List.getElem?_eq_none (by simp; omega), List.getElem?_eq_none (by omega)]
  · next hle => simp [hle]

/-- What reading gives once the region is found. -/
def fetch (address size : Nat) : Option (Array UInt8 × Nat) → Except Fault (List UInt8)
  | none => .error (.badAddress address)
  | some (region, start) =>
    match slice? region start size with
    | some bytes => .ok bytes
    | none => .error (.outOfBounds address)

theorem read_eq_fetch (m : Memory) (address size : Nat) : m.read address size =
    fetch address size (if stackBase ≤ address then some (m.stack, address - stackBase)
      else if dataBase ≤ address then some (m.data, address - dataBase) else none) := rfl

theorem fetch_eq_ok : fetch address size (some (region, start)) = .ok bytes ↔
    slice? region start size = some bytes := by
  rw [fetch]
  cases slice? region start size <;> simp

theorem read_eq_ok : m.read address size = .ok bytes ↔
    (stackBase ≤ address ∧ slice? m.stack (address - stackBase) size = some bytes) ∨
    (address < stackBase ∧ dataBase ≤ address ∧
      slice? m.data (address - dataBase) size = some bytes) := by
  rw [read_eq_fetch]
  -- the numbers are not to be computed with
  generalize stackBase = stackBase, dataBase = dataBase
  by_cases hstack : stackBase ≤ address
  · rw [if_pos hstack, fetch_eq_ok, or_iff_left fun h => Nat.not_lt.mpr hstack h.1,
      and_iff_right hstack]
  · rw [if_neg hstack, or_iff_right fun h => hstack h.1, and_iff_right (Nat.not_le.mp hstack)]
    by_cases hdata : dataBase ≤ address
    · rw [if_pos hdata, fetch_eq_ok, and_iff_right hdata]
    · rw [if_neg hdata]
      exact ⟨nofun, fun h => absurd h.1 hdata⟩

theorem length_read (h : m.read address size = .ok bytes) : bytes.length = size := by
  rcases read_eq_ok.mp h with ⟨-, h⟩ | ⟨-, -, h⟩ <;> exact (slice?_eq_some.mp h).2.1

theorem read_mono (hdata : m'.data = m.data) (hsize : m.stack.size ≤ m'.stack.size)
    (hbytes : ∀ i < m.stack.size, m'.stack[i]? = m.stack[i]?) (h : m.read address size = .ok bytes) :
    m'.read address size = .ok bytes := by
  rw [read_eq_ok] at h ⊢
  rw [hdata]
  refine h.imp_left fun h => ⟨h.1, ?_⟩
  obtain ⟨hle, hlen, hk⟩ := slice?_eq_some.mp h.2
  refine slice?_eq_some.mpr ⟨Nat.le_trans hle hsize, hlen, fun k hlt => ?_⟩
  rw [hbytes _ (by omega), hk k hlt]

theorem copy_eq_ok (h : m.copy source target size = .ok m') :
    ∃ bytes, m.read source size = .ok bytes ∧ m.write target bytes = .ok m' :=
  except_bind_eq_ok.mp h

theorem store_eq_ok (h : m.store cls v address = .ok m') :
    ∃ bytes, cls.encode v = .ok bytes ∧ m.write address bytes = .ok m' :=
  except_bind_eq_ok.mp h

/-! ## Taking stack space -/

theorem le_aligned (m : Memory) (align : Nat) : m.stack.size ≤ m.aligned align := by
  unfold aligned
  have hpos : 0 < max align 1 := by omega
  generalize max align 1 = a at hpos
  have := Nat.div_add_mod (m.stack.size + a - 1) a
  have := Nat.mod_lt (m.stack.size + a - 1) hpos
  rw [Nat.mul_comm]
  omega

theorem size_allocate (m : Memory) (size align : Nat) :
    (m.allocate size align).2.stack.size = m.aligned align + max size 1 := by
  have := m.le_aligned align
  simp [allocate]
  omega

theorem getElem?_allocate (m : Memory) (size align : Nat) (h : i < m.stack.size) :
    (m.allocate size align).2.stack[i]? = m.stack[i]? := by
  simp only [allocate]
  rw [Array.getElem?_append_left h]

end Memory

end StructLang.Flat
