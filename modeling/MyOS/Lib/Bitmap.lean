import Mathlib.Tactic

/-!
# Sets of numbers as words of bits

A bitmap is a sequence of words of `w` bits; number `i` stands in word `i / w` as bit
`i % w`.  Setting and clearing go through the mask with that one bit.
-/

namespace Bitmap

variable {w : ℕ}

def test (m : ℕ → BitVec w) (i : ℕ) : Bool := (m (i / w)).getLsbD (i % w)

def set (m : ℕ → BitVec w) (i : ℕ) : ℕ → BitVec w :=
  Function.update m (i / w) (m (i / w) ||| 1#w <<< (i % w))

def clear (m : ℕ → BitVec w) (i : ℕ) : ℕ → BitVec w :=
  Function.update m (i / w) (m (i / w) &&& ~~~(1#w <<< (i % w)))

variable {m : ℕ → BitVec w} {i j : ℕ}

theorem getLsbD_mask {k : ℕ} (hk : k < w) : (1#w <<< i).getLsbD k = decide (k = i) := by
  rw [BitVec.getLsbD_shiftLeft, BitVec.getLsbD_one]
  by_cases hki : k = i
  · subst hki
    simp [hk, Nat.zero_lt_of_lt hk]
  · by_cases hlt : k < i
    · simp [hki, hlt]
    · have hpos : k - i ≠ 0 := by omega
      simp [hki, hpos]

theorem same_word (h : i / w = j / w) : i % w = j % w ↔ i = j := by
  constructor
  · intro hmod
    rw [← Nat.div_add_mod i w, ← Nat.div_add_mod j w, h, hmod]
  · rintro rfl
    rfl

theorem test_set (hw : 0 < w) : test (set m i) j = (test m j || decide (j = i)) := by
  have hj : j % w < w := Nat.mod_lt j hw
  by_cases hword : j / w = i / w
  · rw [test, set, hword, Function.update_self, BitVec.getLsbD_or, getLsbD_mask hj, test, hword]
    simp only [same_word hword]
  · have hne : j ≠ i := fun h ↦ hword (by rw [h])
    rw [test, set, Function.update_of_ne hword, test]
    simp [hne]

theorem test_clear (hw : 0 < w) : test (clear m i) j = (test m j && decide (j ≠ i)) := by
  have hj : j % w < w := Nat.mod_lt j hw
  by_cases hword : j / w = i / w
  · rw [test, clear, hword, Function.update_self, BitVec.getLsbD_and, BitVec.getLsbD_not,
      getLsbD_mask hj, test, hword]
    simp [hj, same_word hword]
  · have hne : j ≠ i := fun h ↦ hword (by rw [h])
    rw [test, clear, Function.update_of_ne hword, test]
    simp [hne]

theorem and_mask_eq_zero_iff (hw : 0 < w) :
    m (i / w) &&& 1#w <<< (i % w) = 0#w ↔ test m i = false := by
  have hi : i % w < w := Nat.mod_lt i hw
  constructor
  · intro hzero
    have hbit := congrArg (fun x ↦ x.getLsbD (i % w)) hzero
    simpa [getLsbD_mask hi, test] using hbit
  · intro hclear
    apply BitVec.eq_of_getLsbD_eq
    intro k hk
    rw [BitVec.getLsbD_and, getLsbD_mask hk]
    by_cases hki : k = i % w
    · subst hki
      rw [test] at hclear
      simp [hclear]
    · simp [hki]

/-- A word with all bits set has every number of it. -/
theorem test_of_allOnes {k : ℕ} (h : m k = BitVec.allOnes w) (hi : i / w = k) (hw : 0 < w) :
    test m i = true := by
  rw [test, hi, h, BitVec.getLsbD_allOnes]
  exact decide_eq_true (Nat.mod_lt i hw)

end Bitmap
