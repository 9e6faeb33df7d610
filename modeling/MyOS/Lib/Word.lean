import Mathlib.Tactic

/-!
# Unsigned 32-bit arithmetic on natural numbers

Machine words are natural numbers below `2 ^ 32`.  The operations below wrap as
the unsigned operators of C do; away from the wrap they are the operations of `ℕ`.
-/

namespace Word

def add (a b : ℕ) : ℕ := (a + b) % 2 ^ 32

def sub (a b : ℕ) : ℕ := (a + (2 ^ 32 - b)) % 2 ^ 32

def mul (a b : ℕ) : ℕ := a * b % 2 ^ 32

theorem add_lt (a b : ℕ) : add a b < 2 ^ 32 := Nat.mod_lt _ (by norm_num)

theorem mul_lt (a b : ℕ) : mul a b < 2 ^ 32 := Nat.mod_lt _ (by norm_num)

theorem add_eq {a b : ℕ} (h : a + b < 2 ^ 32) : add a b = a + b := Nat.mod_eq_of_lt h

theorem mul_eq {a b : ℕ} (h : a * b < 2 ^ 32) : mul a b = a * b := Nat.mod_eq_of_lt h

theorem sub_eq {a b : ℕ} (hba : b ≤ a) (ha : a < 2 ^ 32) : sub a b = a - b := by
  unfold sub
  omega

/-- Masking off the low `k` bits rounds down to a multiple of `2 ^ k`. -/
theorem and_highMask {x k : ℕ} (hx : x < 2 ^ 32) (hk : k ≤ 32) :
    x &&& (2 ^ 32 - 2 ^ k) = x / 2 ^ k * 2 ^ k := by
  have hmask : 2 ^ 32 - 2 ^ k = (2 ^ (32 - k) - 1) <<< k := by
    rw [Nat.shiftLeft_eq, Nat.sub_mul, ← pow_add, Nat.sub_add_cancel hk, one_mul]
  rw [hmask, ← Nat.shiftLeft_eq, ← Nat.shiftRight_eq_div_pow]
  apply Nat.eq_of_testBit_eq
  intro j
  rw [Nat.testBit_and, Nat.testBit_shiftLeft, Nat.testBit_shiftLeft, Nat.testBit_two_pow_sub_one,
    Nat.testBit_shiftRight]
  by_cases hkj : k ≤ j
  · rw [Nat.add_sub_cancel' hkj]
    by_cases hj : j < 32
    · simp [hkj, show j - k < 32 - k by omega]
    · -- beyond the word every bit of `x` is clear
      have hpow : 2 ^ 32 ≤ 2 ^ j := Nat.pow_le_pow_right (by norm_num) (by omega)
      simp [Nat.testBit_lt_two_pow (hx.trans_le hpow)]
  · simp [hkj]

/-- Setting low bits of a multiple of `2 ^ k` adds them. -/
theorem or_eq_add {a b k : ℕ} (ha : 2 ^ k ∣ a) (hb : b < 2 ^ k) : a ||| b = a + b := by
  obtain ⟨c, rfl⟩ := ha
  rw [Nat.mul_comm, ← Nat.shiftLeft_eq, Nat.shiftLeft_add_eq_or_of_lt hb]

end Word
