import Mathlib.Data.Nat.Digits.Defs

namespace BTron.Lib.Bits

-- Bytes as a number, the first one at the bottom.
def leValue (bytes : List UInt8) : Nat := Nat.ofDigits 256 (bytes.map UInt8.toNat)

def leBytes : Nat → Nat → List UInt8
  | 0, _ => []
  | n + 1, v => UInt8.ofNat (v % 256) :: leBytes n (v / 256)

-- Numbers of a width each, the first one in the lowest bits.
def packValue : List (Nat × Nat) → Nat
  | [] => 0
  | (c, w) :: rest => c + 2 ^ w * packValue rest

def packLength (fields : List (Nat × Nat)) : Nat := (fields.map Prod.snd).sum

-- The last byte is filled up with zeros.
def packBytes (fields : List (Nat × Nat)) : List UInt8 :=
  leBytes ((packLength fields + 7) / 8) (packValue fields)

@[simp]
theorem leValue_nil : leValue [] = 0 := rfl

theorem leValue_cons (b : UInt8) (bytes : List UInt8) :
    leValue (b :: bytes) = b.toNat + 256 * leValue bytes := by
  simp [leValue, Nat.ofDigits_cons]

@[simp]
theorem leBytes_length (n v : Nat) : (leBytes n v).length = n := by
  induction n generalizing v with
  | zero => rfl
  | succ n ih => rw [leBytes, List.length_cons, ih]

theorem leValue_leBytes {n v : Nat} (h : v < 256 ^ n) : leValue (leBytes n v) = v := by
  induction n generalizing v with
  | zero =>
      have : v = 0 := by simpa using h
      rw [this]
      rfl
  | succ n ih =>
      have hdiv : v / 256 < 256 ^ n := Nat.div_lt_of_lt_mul (by rwa [← Nat.pow_succ'])
      have hmod : (UInt8.ofNat (v % 256)).toNat = v % 256 :=
        UInt8.toNat_ofNat_of_lt' (Nat.mod_lt _ (by decide))
      rw [leBytes, leValue_cons, ih hdiv, hmod]
      exact Nat.mod_add_div v 256

theorem packValue_lt {fields : List (Nat × Nat)} (h : ∀ f ∈ fields, f.1 < 2 ^ f.2) :
    packValue fields < 2 ^ packLength fields := by
  induction fields with
  | nil => exact Nat.one_pos
  | cons f rest ih =>
      obtain ⟨c, w⟩ := f
      rw [List.forall_mem_cons] at h
      have hlt := ih h.2
      have hsum : packLength ((c, w) :: rest) = w + packLength rest := by simp [packLength]
      rw [packValue, hsum, Nat.pow_add]
      have hmul : 2 ^ w * (packValue rest + 1) ≤ 2 ^ w * 2 ^ packLength rest :=
        Nat.mul_le_mul_left _ hlt
      have hc := h.1
      dsimp only at hc
      rw [Nat.mul_succ] at hmul
      omega

theorem packBytes_spec {fields : List (Nat × Nat)} (h : ∀ f ∈ fields, f.1 < 2 ^ f.2) :
    leValue (packBytes fields) = packValue fields ∧
      packLength fields ≤ 8 * (packBytes fields).length := by
  constructor
  · apply leValue_leBytes
    refine lt_of_lt_of_le (packValue_lt h) ?_
    rw [show 256 = 2 ^ 8 from rfl, ← Nat.pow_mul]
    exact Nat.pow_le_pow_right (by decide) (by omega)
  · rw [packBytes, leBytes_length]
    omega

theorem packValue_mod {c w : Nat} (hc : c < 2 ^ w) (rest : List (Nat × Nat)) :
    packValue ((c, w) :: rest) % 2 ^ w = c := by
  rw [packValue, Nat.add_mul_mod_self_left, Nat.mod_eq_of_lt hc]

theorem packValue_div {c w : Nat} (hc : c < 2 ^ w) (rest : List (Nat × Nat)) :
    packValue ((c, w) :: rest) / 2 ^ w = packValue rest := by
  rw [packValue, Nat.add_mul_div_left _ _ (Nat.two_pow_pos w), Nat.div_eq_of_lt hc, Nat.zero_add]

end BTron.Lib.Bits
