import MyOS.Lib.Outcome
import MyOS.Lib.Word

/-!
# Sleeping

`timer_irq` counts ticks modulo `2 ^ 32`, and `timer_sleep_ms` waits until the count has reached a
target that is also taken modulo `2 ^ 32`.  The two are compared as plain numbers, so the wait ends
at once when the target has wrapped, and goes on when the count wraps before it is looked at.
-/

namespace MyOS.Timer

def timerHz : ℕ := 100

/-- The count after one interrupt. -/
def timerIrq (gTicks : ℕ) : ℕ := Word.add gTicks 1

/-- The loop of `timer_sleep_ms`; `reads i` is the count that the test of round `i` reads.  The
result is the round in which the loop ends. -/
def sleepLoop (target : ℕ) (reads : ℕ → ℕ) : ℕ → ℕ → Outcome ℕ
  | 0, _ => .spin
  | fuel + 1, i => if reads i < target then sleepLoop target reads fuel (i + 1) else .done i

/-- `timer_sleep_ms`, called when the count is `gTicks`; up to the test of round `i` there have been
`ticks i` interrupts since the call. -/
def timerSleepMs (gTicks ms : ℕ) (ticks : ℕ → ℕ) (fuel : ℕ) : Outcome ℕ :=
  let ticksToWait := Word.sub (Word.add ms (1000 / timerHz)) 1 / (1000 / timerHz)
  let target := Word.add gTicks ticksToWait
  sleepLoop target (fun i ↦ timerIrq^[ticks i] gTicks) fuel 0

variable {gTicks ms gap fuel i n : ℕ} {ticks reads : ℕ → ℕ} {target : ℕ}

theorem timerIrq_iterate (hg : gTicks < 2 ^ 32) (n : ℕ) :
    timerIrq^[n] gTicks = (gTicks + n) % 2 ^ 32 := by
  induction n with
  | zero => exact (Nat.mod_eq_of_lt hg).symm
  | succ n ih =>
      rw [Function.iterate_succ_apply', ih, timerIrq, Word.add, Nat.mod_add_mod, Nat.add_assoc]

/-- The loop ends in the first round that reads the target or more. -/
theorem sleepLoop_eq_done_iff {j : ℕ} : sleepLoop target reads fuel j = .done i ↔
    j ≤ i ∧ i < j + fuel ∧ target ≤ reads i ∧ ∀ k, j ≤ k → k < i → reads k < target := by
  induction fuel generalizing j with
  | zero =>
      rw [sleepLoop]
      exact iff_of_false nofun fun h ↦ by omega
  | succ fuel ih =>
      rw [sleepLoop]
      by_cases hlt : reads j < target
      · rw [if_pos hlt, ih]
        constructor
        · rintro ⟨hlo, hhi, hend, hbefore⟩
          refine ⟨by omega, by omega, hend, fun k hk hki ↦ ?_⟩
          rcases Nat.eq_or_lt_of_le hk with rfl | hk
          · exact hlt
          · exact hbefore k hk hki
        · rintro ⟨hlo, hhi, hend, hbefore⟩
          have hne : j ≠ i := by
            rintro rfl
            omega
          exact ⟨by omega, by omega, hend, fun k hk hki ↦ hbefore k (by omega) hki⟩
      · rw [if_neg hlt]
        constructor
        · rintro ⟨rfl⟩
          exact ⟨le_refl _, by omega, not_lt.mp hlt, fun k hk hki ↦ by omega⟩
        · rintro ⟨hlo, -, -, hbefore⟩
          by_cases hji : j = i
          · rw [hji]
          · exact absurd (hbefore j (le_refl _) (by omega)) hlt

/-- Interrupts keep coming, at most `gap` of them before the first test and between two tests. -/
structure Paced (gap : ℕ) (ticks : ℕ → ℕ) : Prop where
  first : ticks 0 ≤ gap
  mono : ∀ i, ticks i ≤ ticks (i + 1)
  next : ∀ i, ticks (i + 1) ≤ ticks i + gap
  progress : ∀ n, ∃ i, n ≤ ticks i

/-- The sleep ends with the first test that finds `n` ticks delivered. -/
def EndsAfter (gTicks ms n : ℕ) (ticks : ℕ → ℕ) : Prop :=
  ∃ fuel i, timerSleepMs gTicks ms ticks fuel = .done i ∧ n ≤ ticks i ∧ ∀ j < i, ticks j < n

theorem timerSleepMs_eq_done_iff (hg : gTicks < 2 ^ 32) (hms : ms ≤ 3600000) :
    timerSleepMs gTicks ms ticks fuel = .done i ↔
      i < fuel ∧ (gTicks + (ms + 9) / 10) % 2 ^ 32 ≤ (gTicks + ticks i) % 2 ^ 32 ∧
        ∀ j < i, (gTicks + ticks j) % 2 ^ 32 < (gTicks + (ms + 9) / 10) % 2 ^ 32 := by
  have hwait : Word.sub (Word.add ms (1000 / timerHz)) 1 / (1000 / timerHz) = (ms + 9) / 10 := by
    rw [timerHz, Word.add_eq (by omega), Word.sub_eq (by omega) (by omega)]
    omega
  rw [timerSleepMs, hwait, sleepLoop_eq_done_iff, Word.add]
  simp only [timerIrq_iterate hg, Nat.zero_le, true_and, Nat.zero_add, forall_const]

theorem endsAfter_of_room (hms : ms ≤ 3600000)
    (hroom : gTicks + max 1 ((ms + 9) / 10) + gap ≤ 2 ^ 32) (hticks : Paced gap ticks) :
    EndsAfter gTicks ms ((ms + 9) / 10) ticks := by
  classical
  obtain ⟨i, hi, hfirst⟩ : ∃ i, (ms + 9) / 10 ≤ ticks i ∧ ∀ j < i, ticks j < (ms + 9) / 10 := by
    have hsome := hticks.progress ((ms + 9) / 10)
    exact ⟨Nat.find hsome, Nat.find_spec hsome, fun j hj ↦ not_le.mp (Nat.find_min hsome hj)⟩
  -- the count has not wrapped when it is read in that round
  have hsmall : gTicks + ticks i < 2 ^ 32 := by
    cases i with
    | zero =>
        have := hticks.first
        omega
    | succ i =>
        have hbefore := hfirst i (Nat.lt_succ_self i)
        have := hticks.next i
        omega
  refine ⟨i + 1, i, (timerSleepMs_eq_done_iff (by omega) hms).mpr ⟨Nat.lt_succ_self i, ?_, ?_⟩, hi,
    hfirst⟩
  · rw [Nat.mod_eq_of_lt (by omega), Nat.mod_eq_of_lt hsmall]
    omega
  · intro j hj
    have hj := hfirst j hj
    rw [Nat.mod_eq_of_lt (by omega), Nat.mod_eq_of_lt (by omega)]
    omega

/-- One tick between two tests, except that the count has just wrapped when the test comes that
should end the sleep. -/
def stalled (gTicks n i : ℕ) : ℕ := if i < n then i else 2 ^ 32 - gTicks + (i - n)

theorem paced_stalled (hgap : 0 < gap) (hg : gTicks + n ≤ 2 ^ 32)
    (hlate : 2 ^ 32 < gTicks + max 1 n + gap) : Paced gap (stalled gTicks n) where
  first := by
    rw [stalled]
    split_ifs <;> omega
  mono i := by
    rw [stalled, stalled]
    split_ifs <;> omega
  next i := by
    rw [stalled, stalled]
    split_ifs <;> omega
  progress m := by
    refine ⟨m + n, ?_⟩
    rw [stalled]
    split_ifs <;> omega

/-- The sleep takes as many ticks as it should and ends with the first test behind them, for every
start and every pace of the tests, just when the count does not wrap before that test. -/
theorem sleep_exact_iff (hg : gTicks < 2 ^ 32) (hms : ms ≤ 3600000) (hgap : 0 < gap) :
    (∀ ticks, Paced gap ticks → EndsAfter gTicks ms ((ms + 9) / 10) ticks) ↔
      gTicks + max 1 ((ms + 9) / 10) + gap ≤ 2 ^ 32 ∨ gTicks = 0 ∧ ms = 0 := by
  constructor
  · intro hall
    by_contra hnot
    obtain ⟨hlate, hnonzero⟩ := not_or.mp hnot
    by_cases hwrap : 2 ^ 32 ≤ gTicks + (ms + 9) / 10
    · -- the target has wrapped, and the first test ends the sleep
      obtain ⟨fuel, i, hdone, hi, -⟩ := hall id ⟨Nat.zero_le _, Nat.le_succ,
        fun i ↦ Nat.add_le_add_left hgap i, fun n ↦ ⟨n, le_refl n⟩⟩
      obtain ⟨-, -, hbefore⟩ := (timerSleepMs_eq_done_iff hg hms).mp hdone
      have hzero := hbefore 0 (by rw [id] at hi; omega)
      rw [id] at hzero
      omega
    · -- the count wraps, and the test that should end the sleep reads 0
      obtain ⟨fuel, i, hdone, hi, hfirst⟩ := hall (stalled gTicks ((ms + 9) / 10))
        (paced_stalled hgap (by omega) (by omega))
      obtain ⟨-, hend, -⟩ := (timerSleepMs_eq_done_iff hg hms).mp hdone
      have hround : i = (ms + 9) / 10 := by
        rcases Nat.lt_trichotomy i ((ms + 9) / 10) with hlt | heq | hgt
        · rw [stalled, if_pos hlt] at hi
          omega
        · exact heq
        · have hlast := hfirst _ hgt
          rw [stalled, if_neg (lt_irrefl _)] at hlast
          omega
      rw [hround, stalled, if_neg (lt_irrefl _)] at hend
      omega
  · rintro (hroom | ⟨rfl, rfl⟩) ticks hticks
    · exact endsAfter_of_room hms hroom hticks
    · exact ⟨1, 0, (timerSleepMs_eq_done_iff hg hms).mpr ⟨Nat.one_pos, Nat.zero_le _, nofun⟩,
        Nat.zero_le _, nofun⟩

theorem sleep_exact_iff_second :
    (∀ ticks, Paced 1 ticks → EndsAfter 0 1000 ((1000 + 9) / 10) ticks) ↔
      0 + max 1 ((1000 + 9) / 10) + 1 ≤ 2 ^ 32 ∨ 0 = 0 ∧ 1000 = 0 :=
  sleep_exact_iff (by norm_num) (by norm_num) (by norm_num)

/-- A second of sleep that begins one tick before the count wraps ends before any tick. -/
theorem sleep_cut_short : Paced 1 id ∧ timerSleepMs (2 ^ 32 - 1) 1000 id 1 = .done 0 ∧
    id 0 < (1000 + 9) / 10 :=
  ⟨⟨Nat.zero_le _, Nat.le_succ, fun i ↦ le_refl (i + 1), fun n ↦ ⟨n, le_refl n⟩⟩, by decide,
    by decide⟩

end MyOS.Timer
