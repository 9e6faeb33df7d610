import MyOS.Lib.Outcome

/-!
# Loops

A loop over `0, 1, …, n - 1` returns if each round does, and what each round keeps holds in the
end.

A loop that goes from `a` to `f a` until it meets a node with `P` and has no other way to stop
ends exactly if one of `a, f a, f (f a), …` has `P`.  If `f` takes fewer than `N` values this
happens within `N` steps or never.
-/

universe u

namespace Outcome

variable {σ : Type u}

/-- The rounds `0, …, n - 1`, one after the other. -/
def forLoop (f : ℕ → σ → Outcome σ) : ℕ → σ → Outcome σ
  | 0, s => done s
  | n + 1, s => forLoop f n s >>= f n

theorem forLoop_spec {f : ℕ → σ → Outcome σ} {n : ℕ} {s : σ} (P : ℕ → σ → Prop) (hzero : P 0 s)
    (hstep : ∀ i < n, ∀ t, P i t → ∃ t', f i t = done t' ∧ P (i + 1) t') :
    ∃ t, forLoop f n s = done t ∧ P n t := by
  induction n with
  | zero => exact ⟨s, rfl, hzero⟩
  | succ n ih =>
      obtain ⟨t, hloop, ht⟩ := ih fun i hi ↦ hstep i (hi.trans (Nat.lt_succ_self n))
      obtain ⟨t', hround, ht'⟩ := hstep n (Nat.lt_succ_self n) t ht
      exact ⟨t', by rw [forLoop, hloop, done_bind, hround], ht'⟩

end Outcome

section Orbit

variable {f : ℕ → ℕ} {P : ℕ → Prop} {a N : ℕ}

/-- The first node with `P` comes before the orbit closes. -/
theorem exists_le_iterate (hf : ∀ c, f c < N) (h : ∃ n, P (f^[n] a)) :
    ∃ n ≤ N, P (f^[n] a) := by
  classical
  refine ⟨Nat.find h, ?_, Nat.find_spec h⟩
  by_contra hlong
  -- two of the nodes 1, …, N + 1 of the orbit are equal
  have hmaps : ∀ i ∈ Finset.range (N + 1), f^[i + 1] a ∈ Finset.range N := by
    intro i _
    rw [Function.iterate_succ_apply', Finset.mem_range]
    exact hf _
  obtain ⟨i, hi, j, hj, hne, heq⟩ := Finset.exists_ne_map_eq_of_card_lt_of_maps_to
    (by simp) hmaps
  rw [Finset.mem_range] at hi hj
  wlog hij : i < j generalizing i j
  · exact this j hj i hi hne.symm heq.symm (by omega)
  -- so a node with `P` can be met earlier
  refine Nat.find_min h (m := Nat.find h - (j - i)) (by omega) ?_
  have hsplit : Nat.find h = (Nat.find h - (j + 1)) + (j + 1) := by omega
  have hearly : Nat.find h - (j - i) = (Nat.find h - (j + 1)) + (i + 1) := by omega
  rw [hearly, Function.iterate_add_apply, heq, ← Function.iterate_add_apply, ← hsplit]
  exact Nat.find_spec h

end Orbit

namespace Outcome

variable {σ ρ : Type u} {L : ℕ → ℕ → σ → Outcome ρ} {f : ℕ → ℕ} {P : ℕ → Prop}
  {Q : σ → Prop} {a : ℕ} {t : σ}

section

variable (hzero : ∀ c t, L 0 c t = spin)
  (hstop : ∀ fuel c t, Q t → P c → ∃ r, L (fuel + 1) c t = done r)
  (hgo : ∀ fuel c t, Q t → ¬P c → ∃ t', Q t' ∧ L (fuel + 1) c t = L fuel (f c) t')

include hzero hstop hgo

theorem loop_done_or_spin (ht : Q t) (fuel : ℕ) :
    (∃ n < fuel, P (f^[n] a)) ∧ (∃ r, L fuel a t = done r) ∨
      (∀ n < fuel, ¬P (f^[n] a)) ∧ L fuel a t = spin := by
  induction fuel generalizing a t with
  | zero => exact Or.inr ⟨nofun, hzero a t⟩
  | succ fuel ih =>
      by_cases hP : P a
      · exact Or.inl ⟨⟨0, by omega, hP⟩, hstop fuel a t ht hP⟩
      · obtain ⟨t', ht', hstep⟩ := hgo fuel a t ht hP
        rw [hstep]
        rcases ih (a := f a) ht' with ⟨⟨n, hn, hPn⟩, hdone⟩ | ⟨hnone, hspin⟩
        · exact Or.inl ⟨⟨n + 1, by omega, hPn⟩, hdone⟩
        · refine Or.inr ⟨fun n hn ↦ ?_, hspin⟩
          cases n with
          | zero => exact hP
          | succ n => exact hnone n (by omega)

/-- With enough fuel the loop ends exactly if its orbit meets `P`. -/
theorem loop_done_iff {N fuel : ℕ} (hf : ∀ c, f c < N) (hfuel : N < fuel) (ht : Q t) :
    (∃ r, L fuel a t = done r) ↔ ∃ n, P (f^[n] a) := by
  rcases loop_done_or_spin hzero hstop hgo (a := a) ht fuel with
    ⟨⟨n, -, hP⟩, hdone⟩ | ⟨hnone, hspin⟩
  · exact iff_of_true hdone ⟨n, hP⟩
  · refine iff_of_false (fun ⟨r, hr⟩ ↦ ?_) fun h ↦ ?_
    · rw [hspin] at hr
      cases hr
    · obtain ⟨n, hn, hP⟩ := exists_le_iterate hf h
      exact hnone n (by omega) hP

/-- Otherwise it does not end, however long it runs. -/
theorem loop_spin (ht : Q t) (h : ∀ n, ¬P (f^[n] a)) (fuel : ℕ) : L fuel a t = spin := by
  rcases loop_done_or_spin hzero hstop hgo (a := a) ht fuel with ⟨⟨n, -, hP⟩, -⟩ | ⟨-, hspin⟩
  · exact absurd hP (h n)
  · exact hspin

end

end Outcome
