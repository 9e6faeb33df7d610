import Mathlib.Data.List.GetD
import Mathlib.Data.Nat.Digits.Lemmas

/-!
# Numerals

A numeral lists the digits of a number, the most significant one first.  It begins with 0 only if
it is the numeral of 0.  Written with a fixed number of digits, a number is its numeral behind
zeros.
-/

namespace Numeral

variable {b n w : ℕ}

/-- The numeral of `n` in base `b`. -/
def digits (b n : ℕ) : List ℕ := if n = 0 then [0] else (Nat.digits b n).reverse

/-- The number that a list of digits stands for. -/
def value (b : ℕ) (ds : List ℕ) : ℕ := ds.foldl (fun v d ↦ v * b + d) 0

/-- The `w` low digits of `n`. -/
def low (b w n : ℕ) : List ℕ := ((List.range w).map fun j ↦ n / b ^ j % b).reverse

theorem digits_of_ne_zero (hn : n ≠ 0) : digits b n = (Nat.digits b n).reverse := if_neg hn

theorem value_eq_ofDigits (ds : List ℕ) : value b ds = Nat.ofDigits b ds.reverse := by
  rw [value, Nat.ofDigits_eq_foldr, List.foldr_reverse]
  congr 1
  funext v d
  rw [Nat.cast_id, Nat.add_comm, Nat.mul_comm]

theorem value_digits (b n : ℕ) : value b (digits b n) = n := by
  by_cases hn : n = 0
  · subst hn
    rw [digits, if_pos rfl, value_eq_ofDigits]
    exact Nat.ofDigits_singleton
  · rw [digits_of_ne_zero hn, value_eq_ofDigits, List.reverse_reverse, Nat.ofDigits_digits]

theorem lt_of_mem_digits (hb : 1 < b) : ∀ d ∈ digits b n, d < b := by
  intro d hd
  by_cases hn : n = 0
  · rw [digits, if_pos hn, List.mem_singleton] at hd
    omega
  · rw [digits_of_ne_zero hn, List.mem_reverse] at hd
    exact Nat.digits_lt_base hb hd

theorem digits_ne_nil (b n : ℕ) : digits b n ≠ [] := by
  by_cases hn : n = 0
  · rw [digits, if_pos hn]
    exact List.cons_ne_nil 0 []
  · rw [digits_of_ne_zero hn]
    exact List.reverse_ne_nil_iff.mpr (Nat.digits_ne_nil_iff_ne_zero.mpr hn)

/-- Only the numeral of 0 begins with 0. -/
theorem digits_of_head?_eq_zero (h : (digits b n).head? = some 0) : digits b n = [0] := by
  by_cases hn : n = 0
  · exact if_pos hn
  · have hlast := Nat.getLast_digit_ne_zero b hn
    rw [digits_of_ne_zero hn, List.head?_reverse,
      List.getLast?_eq_some_getLast (Nat.digits_ne_nil_iff_ne_zero.mpr hn)] at h
    exact absurd (Option.some.inj h) hlast

/-- The same for numerals written in characters. -/
theorem digits_of_head?_map {α : Type*} {char : ℕ → α} (hb : 1 < b)
    (hchar : ∀ d < b, char d = char 0 → d = 0)
    (h : ((digits b n).map char).head? = some (char 0)) : digits b n = [0] := by
  apply digits_of_head?_eq_zero
  rw [List.head?_map, Option.map_eq_some_iff] at h
  obtain ⟨d, hd, hzero⟩ := h
  rwa [hchar d (lt_of_mem_digits hb d (List.mem_of_head? hd)) hzero] at hd

theorem length_digits_le (hb : 1 < b) (hw : 0 < w) (hn : n < b ^ w) : (digits b n).length ≤ w := by
  by_cases h : n = 0
  · rw [digits, if_pos h]
    exact hw
  · rw [digits_of_ne_zero h, List.length_reverse]
    exact (Nat.digits_length_le_iff hb n).mpr hn

theorem digits_of_lt (hn : n < b) : digits b n = [n] := by
  by_cases h : n = 0
  · rw [digits, if_pos h, h]
  · rw [digits_of_ne_zero h, Nat.digits_of_lt b n h hn]
    rfl

theorem digits_of_le (hb : 1 < b) (hn : b ≤ n) : digits b n = digits b (n / b) ++ [n % b] := by
  have hpos : 0 < n := by omega
  have hdiv : n / b ≠ 0 := (Nat.div_pos hn (by omega)).ne'
  rw [digits_of_ne_zero hpos.ne', digits_of_ne_zero hdiv, Nat.digits_def' hb hpos,
    List.reverse_cons]

/-- The characters of a numeral are those that `toString` writes. -/
theorem toDigits_eq (hb : 1 < b) (n : ℕ) : Nat.toDigits b n = (digits b n).map Nat.digitChar := by
  induction n using Nat.strong_induction_on with
  | _ n ih =>
      rcases lt_or_ge n b with hn | hn
      · rw [Nat.toDigits_of_lt_base hn, digits_of_lt hn]
        rfl
      · rw [Nat.toDigits_of_base_le hb hn, digits_of_le hb hn,
          ih (n / b) (Nat.div_lt_self (by omega) hb), List.map_append]
        rfl

theorem low_succ (b w n : ℕ) : low b (w + 1) n = n / b ^ w % b :: low b w n := by
  rw [low, List.range_succ, List.map_append, List.reverse_append]
  rfl

theorem low_eq_digitsAppend (hb : 1 < b) (hn : n < b ^ w) :
    low b w n = (Nat.digitsAppend b w n).reverse := by
  have hlen := Nat.length_digitsAppend hb w hn
  rw [low]
  congr 1
  apply List.ext_getElem
  · rw [List.length_map, List.length_range, hlen]
  · intro j hj hj'
    rw [List.getElem_map, List.getElem_range, ← Nat.getD_digits n j hb]
    simp only [Nat.digitsAppend, List.getElem_append, List.getElem_replicate]
    split_ifs with hdigit
    · exact List.getD_eq_getElem _ 0 hdigit
    · exact List.getD_eq_default _ 0 (not_lt.mp hdigit)

/-- The low digits are the numeral behind zeros. -/
theorem low_eq (hb : 1 < b) (hw : 0 < w) (hn : n < b ^ w) :
    low b w n = List.replicate (w - (digits b n).length) 0 ++ digits b n := by
  rw [low_eq_digitsAppend hb hn, Nat.digitsAppend, List.reverse_append, List.reverse_replicate]
  by_cases h : n = 0
  · subst h
    obtain ⟨w, rfl⟩ := Nat.exists_eq_succ_of_ne_zero hw.ne'
    rw [digits, if_pos rfl, Nat.digits_zero, List.reverse_nil, List.append_nil, List.length_nil]
    exact List.replicate_succ'
  · rw [digits_of_ne_zero h, List.length_reverse]

end Numeral
