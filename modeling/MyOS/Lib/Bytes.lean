import Mathlib.Tactic

/-!
# Byte memories and little-endian words

A memory is a total function from addresses to bytes.  Words of any width are
read and written in little-endian order, and a block of bytes is copied with
`blit`.  Every write is a `blit`, so the frame facts are proved once.
-/

abbrev Bytes := ℕ → UInt8

namespace Bytes

/-- Copy `n` bytes of `src`, starting with `src 0`, to the addresses from `a` on. -/
def blit (m : Bytes) (a n : ℕ) (src : Bytes) : Bytes :=
  fun i ↦ if a ≤ i ∧ i < a + n then src (i - a) else m i

/-- The bytes of `v`, least significant first. -/
def ofWord (v : ℕ) : Bytes := fun k ↦ UInt8.ofNat (v / 256 ^ k)

/-- The `n`-byte little-endian word at address `a`. -/
def readLE (m : Bytes) (a : ℕ) : ℕ → ℕ
  | 0 => 0
  | n + 1 => (m a).toNat + 256 * readLE m (a + 1) n

def writeLE (m : Bytes) (a n v : ℕ) : Bytes := m.blit a n (ofWord v)

abbrev read16 (m : Bytes) (a : ℕ) : ℕ := m.readLE a 2

abbrev read32 (m : Bytes) (a : ℕ) : ℕ := m.readLE a 4

abbrev write32 (m : Bytes) (a v : ℕ) : Bytes := m.writeLE a 4 v

/-- Store the words `f 0, …, f (n - 1)` one after the other, from address `a` on. -/
def fillWords (m : Bytes) (a : ℕ) (f : ℕ → ℕ) : ℕ → Bytes
  | 0 => m
  | n + 1 => (fillWords m a f n).write32 (a + 4 * n) (f n)

/-- What the bytes of a list have to satisfy is decided along the list. -/
instance (priority := high) decidableForallMem {P : UInt8 → Prop} [DecidablePred P]
    (l : List UInt8) : Decidable (∀ b ∈ l, P b) := List.decidableBAll P l

/-- A property of all bytes can be checked on the numbers below 256. -/
theorem forall_byte {P : UInt8 → Prop} (h : ∀ i : Fin 256, P (UInt8.ofNat i)) (b : UInt8) :
    P b := by
  have hb := h ⟨b.toNat, b.toNat_lt⟩
  rwa [UInt8.ofNat_toNat] at hb

section Blit

variable {m src : Bytes} {a n i : ℕ}

theorem blit_apply (hlo : a ≤ i) (hhi : i < a + n) : m.blit a n src i = src (i - a) :=
  if_pos ⟨hlo, hhi⟩

theorem blit_apply_add {k : ℕ} (hk : k < n) : m.blit a n src (a + k) = src k := by
  rw [blit_apply (Nat.le_add_right a k) (Nat.add_lt_add_left hk a), Nat.add_sub_cancel_left]

theorem blit_apply_of_notMem (h : i < a ∨ a + n ≤ i) : m.blit a n src i = m i := by
  apply if_neg
  omega

@[simp] theorem blit_zero : m.blit a 0 src = m := by
  funext i
  apply blit_apply_of_notMem
  omega

theorem blit_congr {src' : Bytes} (h : ∀ i < n, src i = src' i) :
    m.blit a n src = m.blit a n src' := by
  funext i
  by_cases hin : a ≤ i ∧ i < a + n
  · rw [blit_apply hin.1 hin.2, blit_apply hin.1 hin.2, h (i - a) (by omega)]
  · rw [blit_apply_of_notMem (by omega), blit_apply_of_notMem (by omega)]

theorem blit_blit (m src src' : Bytes) (a n : ℕ) :
    (m.blit a n src).blit a n src' = m.blit a n src' := by
  funext i
  by_cases hin : a ≤ i ∧ i < a + n
  · rw [blit_apply hin.1 hin.2, blit_apply hin.1 hin.2]
  · rw [blit_apply_of_notMem (by omega), blit_apply_of_notMem (by omega),
      blit_apply_of_notMem (by omega)]

/-- Two adjacent pieces of one source are one block. -/
theorem blit_blit_adjacent (m : Bytes) (a n k : ℕ) (src : Bytes) :
    (m.blit a n src).blit (a + n) k (fun i ↦ src (n + i)) = m.blit a (n + k) src := by
  funext i
  rcases lt_or_ge i (a + n) with hlow | hhigh
  · rw [blit_apply_of_notMem (Or.inl hlow)]
    rcases lt_or_ge i a with hbefore | hin
    · rw [blit_apply_of_notMem (Or.inl hbefore), blit_apply_of_notMem (Or.inl hbefore)]
    · rw [blit_apply hin hlow, blit_apply hin (by omega)]
  · rcases lt_or_ge i (a + n + k) with hin | hafter
    · rw [blit_apply hhigh hin, blit_apply (by omega) (by omega)]
      congr 1
      omega
    · rw [blit_apply_of_notMem (Or.inr hafter), blit_apply_of_notMem (Or.inr (by omega)),
        blit_apply_of_notMem (Or.inr (by omega))]

/-- Reading a block, changing a part of the copy and writing the block back changes that part. -/
theorem blit_patch (m src : Bytes) {buf : Bytes} {a n N off : ℕ} (hbuf : ∀ i < N, buf i = m (a + i))
    (hoff : off + n ≤ N) : m.blit a N (buf.blit off n src) = m.blit (a + off) n src := by
  funext i
  by_cases hblock : a ≤ i ∧ i < a + N
  · rw [blit_apply hblock.1 hblock.2]
    by_cases hpart : a + off ≤ i ∧ i < a + off + n
    · rw [blit_apply hpart.1 hpart.2, blit_apply (by omega) (by omega)]
      congr 1
      omega
    · rw [blit_apply_of_notMem (by omega), blit_apply_of_notMem (by omega), hbuf _ (by omega)]
      congr 1
      omega
  · rw [blit_apply_of_notMem (by omega), blit_apply_of_notMem (by omega)]

theorem writeLE_apply_of_notMem {v : ℕ} (h : i < a ∨ a + n ≤ i) : m.writeLE a n v i = m i :=
  blit_apply_of_notMem h

end Blit

section Words

variable {m m' : Bytes} {a b n k v : ℕ}

theorem readLE_lt (m : Bytes) (a n : ℕ) : m.readLE a n < 256 ^ n := by
  induction n generalizing a with
  | zero => simp [readLE]
  | succ n ih =>
      have htail := ih (a + 1)
      have hbyte := (m a).toNat_lt
      rw [readLE, pow_succ]
      omega

theorem read32_lt (m : Bytes) (a : ℕ) : m.read32 a < 2 ^ 32 := readLE_lt m a 4

theorem readLE_congr (h : ∀ i, a ≤ i → i < a + n → m i = m' i) :
    m.readLE a n = m'.readLE a n := by
  induction n generalizing a with
  | zero => rfl
  | succ n ih =>
      rw [readLE, readLE, h a (le_refl a) (by omega)]
      rw [ih fun i hlo hhi ↦ h i (by omega) (by omega)]

theorem readLE_window {off N : ℕ} (h : ∀ i < N, m' i = m (a + i)) (hoff : off + n ≤ N) :
    m'.readLE off n = m.readLE (a + off) n := by
  induction n generalizing off with
  | zero => rfl
  | succ n ih =>
      rw [readLE, readLE, h off (by omega), ih (by omega), Nat.add_assoc]

/-- A word whose bytes are those of `v` reads as `v`, up to its width. -/
theorem readLE_of_bytes (h : ∀ j < n, m (a + j) = ofWord v j) :
    m.readLE a n = v % 256 ^ n := by
  induction n generalizing a v with
  | zero => simp [readLE, Nat.mod_one]
  | succ n ih =>
      have htail : m.readLE (a + 1) n = v / 256 % 256 ^ n := by
        apply ih
        intro j hj
        have hbyte := h (j + 1) (by omega)
        rw [show a + 1 + j = a + (j + 1) by omega, hbyte, ofWord, ofWord, pow_succ',
          Nat.div_div_eq_div_mul]
      have hhead : (m a).toNat = v % 256 := by
        have hbyte := h 0 (by omega)
        rw [Nat.add_zero] at hbyte
        simp [hbyte, ofWord]
      rw [readLE, htail, hhead, pow_succ', Nat.mod_mul]

theorem readLE_writeLE (m : Bytes) (a n v : ℕ) :
    (m.writeLE a n v).readLE a n = v % 256 ^ n :=
  readLE_of_bytes fun _ hj ↦ blit_apply_add hj

theorem read32_write32 (hv : v < 2 ^ 32) : (m.write32 a v).read32 a = v :=
  (readLE_writeLE m a 4 v).trans (Nat.mod_eq_of_lt hv)

theorem readLE_blit_of_disjoint {src : Bytes} (h : b + k ≤ a ∨ a + n ≤ b) :
    (m.blit a n src).readLE b k = m.readLE b k := by
  apply readLE_congr
  intro i hlo hhi
  apply blit_apply_of_notMem
  omega

theorem readLE_writeLE_of_disjoint (h : b + k ≤ a ∨ a + n ≤ b) :
    (m.writeLE a n v).readLE b k = m.readLE b k :=
  readLE_blit_of_disjoint h

theorem read32_write32_of_disjoint (h : b + 4 ≤ a ∨ a + 4 ≤ b) :
    (m.write32 a v).read32 b = m.read32 b :=
  readLE_writeLE_of_disjoint h

theorem write32_apply_of_notMem {i : ℕ} (h : i < a ∨ a + 4 ≤ i) : m.write32 a v i = m i :=
  writeLE_apply_of_notMem h

theorem fillWords_apply_of_notMem {f : ℕ → ℕ} {i : ℕ} (h : i < a ∨ a + 4 * n ≤ i) :
    m.fillWords a f n i = m i := by
  induction n with
  | zero => rfl
  | succ n ih =>
      rw [fillWords, write32_apply_of_notMem (by omega)]
      exact ih (by omega)

theorem read32_fillWords_of_disjoint {f : ℕ → ℕ} (h : b + 4 ≤ a ∨ a + 4 * n ≤ b) :
    (m.fillWords a f n).read32 b = m.read32 b := by
  apply readLE_congr
  intro i hlo hhi
  apply fillWords_apply_of_notMem
  omega

theorem read32_fillWords {f : ℕ → ℕ} (hk : k < n) (hf : f k < 2 ^ 32) :
    (m.fillWords a f n).read32 (a + 4 * k) = f k := by
  induction n with
  | zero => omega
  | succ n ih =>
      rw [fillWords]
      rcases Nat.lt_succ_iff_lt_or_eq.mp hk with hlt | rfl
      · rw [read32_write32_of_disjoint (by omega)]
        exact ih hlt
      · exact read32_write32 hf

end Words

end Bytes
