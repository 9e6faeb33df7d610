import Mathlib.Tactic

/-!
# Queues in a ring of slots

A ring of `N` slots holds the `n` elements behind the position `tail`, in the slots
`tail, tail + 1, …` counted modulo `N`.  An element is put in behind the last one and taken out at
`tail`.  Where the position behind the last element is kept and not `n`, one slot stays empty, so
that a full ring can be told from an empty one.
-/

namespace Ring

variable {α : Type*} {N n tail : ℕ} {buf : ℕ → α}

def contents (N : ℕ) (buf : ℕ → α) (tail n : ℕ) : List α :=
  (List.range n).map fun i ↦ buf ((tail + i) % N)

theorem slot_ne {i : ℕ} (hi : i < n) (hn : n < N) : (tail + i) % N ≠ (tail + n) % N := by
  intro heq
  have hmod : i % N = n % N := Nat.ModEq.add_left_cancel' tail heq
  rw [Nat.mod_eq_of_lt (hi.trans hn), Nat.mod_eq_of_lt hn] at hmod
  omega

theorem contents_push (hn : n < N) (a : α) :
    contents N (Function.update buf ((tail + n) % N) a) tail (n + 1) =
      contents N buf tail n ++ [a] := by
  rw [contents, List.range_succ, List.map_append, List.map_singleton, Function.update_self]
  congr 1
  refine List.map_congr_left fun i hi ↦ Function.update_of_ne ?_ _ _
  exact slot_ne (List.mem_range.mp hi) hn

theorem contents_succ :
    contents N buf tail (n + 1) = buf (tail % N) :: contents N buf ((tail + 1) % N) n := by
  rw [contents, List.range_succ_eq_map, List.map_cons, List.map_map, Nat.add_zero]
  congr 1
  refine List.map_congr_left fun i _ ↦ ?_
  rw [Function.comp_apply, Nat.mod_add_mod]
  congr 2
  omega

/-- The ring is empty when both positions are the same. -/
theorem head_eq_tail_iff (htail : tail < N) (hn : n < N) : (tail + n) % N = tail ↔ n = 0 := by
  constructor
  · intro heq
    by_contra hne
    have hslot : (tail + 0) % N ≠ (tail + n) % N := slot_ne (Nat.pos_of_ne_zero hne) hn
    rw [Nat.add_zero, Nat.mod_eq_of_lt htail, heq] at hslot
    exact hslot rfl
  · rintro rfl
    rw [Nat.add_zero, Nat.mod_eq_of_lt htail]

/-- One more element would make it look empty. -/
theorem next_eq_tail_iff (htail : tail < N) (hn : n < N) :
    ((tail + n) % N + 1) % N = tail ↔ n + 1 = N := by
  rw [Nat.mod_add_mod, Nat.add_assoc]
  constructor
  · intro heq
    by_contra hne
    exact absurd ((head_eq_tail_iff htail (by omega)).mp heq) (Nat.succ_ne_zero n)
  · intro hfull
    rw [hfull, Nat.add_mod_right, Nat.mod_eq_of_lt htail]

end Ring
