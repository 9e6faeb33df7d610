import MyOS.Lib.Bytes
import MyOS.Lib.Word

/-!
# The ATA disk

`ata_read` and `ata_write` move whole sectors of 512 bytes in PIO mode.  Each sector is
preceded by a poll of the status register, and a raised `ERR` bit ends the call with -1
after the sectors moved so far.  The `k`-th poll since power-on finds the drive ready
exactly when `ready k` holds, so a failure can hit any sector of any transfer.
-/

namespace MyOS

open Bytes

structure Ata where
  disk : Bytes
  polls : ℕ
  ready : ℕ → Bool

namespace Ata

/-- The sectors `s, s + 1, …` of a read, `n` of them; `true` stands for the result 0. -/
def readLoop (lba : ℕ) : ℕ → ℕ → Bytes → Ata → Bool × Bytes × Ata
  | 0, _, buf, d => (true, buf, d)
  | n + 1, s, buf, d =>
      let polled := { d with polls := d.polls + 1 }
      if d.ready d.polls then
        let sector : Bytes := fun i ↦ d.disk (512 * (lba + s) + i)
        readLoop lba n (s + 1) (buf.blit (512 * s) 512 sector) polled
      else (false, buf, polled)

def ataRead (d : Ata) (lba count : ℕ) (buf : Bytes) : Bool × Bytes × Ata :=
  if count = 0 then (true, buf, d)
  else if lba &&& 0xF0000000 ≠ 0 then (false, buf, d) -- beyond LBA28
  else readLoop lba count 0 buf d

def writeLoop (lba : ℕ) (buf : Bytes) : ℕ → ℕ → Ata → Bool × Ata
  | 0, _, d => (true, d)
  | n + 1, s, d =>
      let polled := { d with polls := d.polls + 1 }
      if d.ready d.polls then
        let sector : Bytes := fun i ↦ buf (512 * s + i)
        writeLoop lba buf n (s + 1) { polled with disk := d.disk.blit (512 * (lba + s)) 512 sector }
      else (false, polled)

def ataWrite (d : Ata) (lba count : ℕ) (buf : Bytes) : Bool × Ata :=
  if count = 0 then (true, d)
  else if lba &&& 0xF0000000 ≠ 0 then (false, d)
  else writeLoop lba buf count 0 d

/-- No transfer of this drive fails. -/
def Reliable (d : Ata) : Prop := ∀ k, d.ready k = true

section Reliable

variable {d : Ata} {lba : ℕ}

theorem lba28_mask (h : lba < 2 ^ 28) : lba &&& 0xF0000000 = 0 := by
  have hmask := Word.and_highMask (x := lba) (k := 28) (by omega) (by omega)
  have hzero : lba / 2 ^ 28 = 0 := Nat.div_eq_of_lt h
  rw [hzero, zero_mul] at hmask
  exact hmask

theorem readLoop_reliable (hd : d.Reliable) (n s : ℕ) (buf : Bytes) :
    readLoop lba n s buf d =
      (true, buf.blit (512 * s) (512 * n) fun i ↦ d.disk (512 * (lba + s) + i),
        { d with polls := d.polls + n }) := by
  induction n generalizing s buf d with
  | zero => simp [readLoop]
  | succ n ih =>
      have hrest := ih (d := { d with polls := d.polls + 1 }) hd (s + 1)
        (buf.blit (512 * s) 512 fun i ↦ d.disk (512 * (lba + s) + i))
      have hjoin := blit_blit_adjacent buf (512 * s) 512 (512 * n)
        fun i ↦ d.disk (512 * (lba + s) + i)
      simp only [readLoop, hd d.polls, if_true, hrest]
      simp only [Nat.mul_add, Nat.mul_one, Nat.add_assoc, Nat.add_comm 1 n,
        Nat.add_comm (512 * n) 512] at hjoin ⊢
      rw [hjoin]

theorem writeLoop_reliable (hd : d.Reliable) (n s : ℕ) (buf : Bytes) :
    writeLoop lba buf n s d = (true, { d with
      polls := d.polls + n
      disk := d.disk.blit (512 * (lba + s)) (512 * n) fun i ↦ buf (512 * s + i) }) := by
  induction n generalizing s d with
  | zero => simp [writeLoop]
  | succ n ih =>
      have hrest := fun disk ↦ ih (d := { d with polls := d.polls + 1, disk := disk }) hd (s + 1)
      have hjoin := blit_blit_adjacent d.disk (512 * (lba + s)) 512 (512 * n)
        fun i ↦ buf (512 * s + i)
      simp only [writeLoop, hd d.polls, if_true, hrest]
      simp only [Nat.mul_add, Nat.mul_one, Nat.add_assoc, Nat.add_comm 1 n,
        Nat.add_comm (512 * n) 512] at hjoin ⊢
      rw [hjoin]

theorem ataRead_reliable (hd : d.Reliable) (hlba : lba < 2 ^ 28) (count : ℕ) (buf : Bytes) :
    d.ataRead lba count buf = (true, buf.blit 0 (512 * count) fun i ↦ d.disk (512 * lba + i),
      { d with polls := d.polls + count }) := by
  rw [ataRead]
  by_cases hcount : count = 0
  · simp [hcount]
  · rw [if_neg hcount, if_neg (by simp [lba28_mask hlba]), readLoop_reliable hd]
    simp

theorem ataWrite_reliable (hd : d.Reliable) (hlba : lba < 2 ^ 28) (count : ℕ) (buf : Bytes) :
    d.ataWrite lba count buf = (true, { d with
      polls := d.polls + count
      disk := d.disk.blit (512 * lba) (512 * count) buf }) := by
  rw [ataWrite]
  by_cases hcount : count = 0
  · simp [hcount]
  · rw [if_neg hcount, if_neg (by simp [lba28_mask hlba]), writeLoop_reliable hd]
    simp

end Reliable

/-! ## Drives that fail -/

section Failing

variable {lba : ℕ} (d : Ata) (buf : Bytes)

theorem lba28_mask_ne (hlo : 2 ^ 28 ≤ lba) (hhi : lba < 2 ^ 32) : lba &&& 0xF0000000 ≠ 0 := by
  have hmask := Word.and_highMask (x := lba) (k := 28) hhi (by omega)
  have hpos : 1 ≤ lba / 2 ^ 28 := (Nat.one_le_div_iff (by norm_num)).mpr hlo
  have hval : (2 : ℕ) ^ 32 - 2 ^ 28 = 0xF0000000 := by norm_num
  rw [hval] at hmask
  omega

theorem ataRead_one (hlba : lba < 2 ^ 28) :
    d.ataRead lba 1 buf =
      if d.ready d.polls then (true, buf.blit 0 512 fun i ↦ d.disk (512 * lba + i),
        { d with polls := d.polls + 1 })
      else (false, buf, { d with polls := d.polls + 1 }) := by
  rw [ataRead, if_neg one_ne_zero, if_neg (by simp [lba28_mask hlba]), readLoop]
  split <;> simp [readLoop]

theorem ataRead_far (hlo : 2 ^ 28 ≤ lba) (hhi : lba < 2 ^ 32) :
    d.ataRead lba 1 buf = (false, buf, d) := by
  rw [ataRead, if_neg one_ne_zero, if_pos (lba28_mask_ne hlo hhi)]

theorem ataWrite_one (hlba : lba < 2 ^ 28) :
    d.ataWrite lba 1 buf =
      if d.ready d.polls then (true, { d with
        polls := d.polls + 1
        disk := d.disk.blit (512 * lba) 512 buf })
      else (false, { d with polls := d.polls + 1 }) := by
  rw [ataWrite, if_neg one_ne_zero, if_neg (by simp [lba28_mask hlba]), writeLoop]
  split <;> simp [writeLoop]

end Failing

/-! ## Any drive

A transfer leaves everything but the disk and the number of polls alone, and only depends on
the polls it makes. -/

section Transfers

variable (lba n s : ℕ) (buf : Bytes) (d : Ata)

theorem readLoop_frame : (readLoop lba n s buf d).2.2.disk = d.disk ∧
    (readLoop lba n s buf d).2.2.ready = d.ready ∧
      d.polls ≤ (readLoop lba n s buf d).2.2.polls := by
  induction n generalizing s buf d with
  | zero => exact ⟨rfl, rfl, le_refl _⟩
  | succ n ih =>
      rw [readLoop]
      split_ifs
      · obtain ⟨hdisk, hready, hpolls⟩ := ih (s + 1)
          (buf.blit (512 * s) 512 fun i ↦ d.disk (512 * (lba + s) + i))
          { d with polls := d.polls + 1 }
        exact ⟨hdisk, hready, (Nat.le_succ _).trans hpolls⟩
      · exact ⟨rfl, rfl, Nat.le_succ _⟩

theorem readLoop_follows (o : ℕ → Bool)
    (ho : ∀ k, d.polls ≤ k → k < (readLoop lba n s buf d).2.2.polls → o k = d.ready k) :
    readLoop lba n s buf { d with ready := o } = ((readLoop lba n s buf d).1,
      (readLoop lba n s buf d).2.1, { (readLoop lba n s buf d).2.2 with ready := o }) := by
  induction n generalizing s buf d with
  | zero => rfl
  | succ n ih =>
      simp only [readLoop] at ho ⊢
      by_cases hready : d.ready d.polls = true
      · simp only [if_pos hready] at ho ⊢
        have hgrows := (readLoop_frame lba n (s + 1)
          (buf.blit (512 * s) 512 fun i ↦ d.disk (512 * (lba + s) + i))
          { d with polls := d.polls + 1 }).2.2
        have hfirst : o d.polls = true := by
          rw [ho d.polls (le_refl _) hgrows]
          exact hready
        rw [if_pos hfirst]
        exact ih (s + 1) _ { d with polls := d.polls + 1 } fun k hlo hhi ↦
          ho k (Nat.le_of_succ_le hlo) hhi
      · simp only [if_neg hready] at ho ⊢
        have hfirst : ¬o d.polls = true := by
          rw [ho d.polls (le_refl _) (Nat.lt_succ_self _)]
          exact hready
        rw [if_neg hfirst]

theorem writeLoop_frame : (writeLoop lba buf n s d).2.ready = d.ready ∧
    d.polls ≤ (writeLoop lba buf n s d).2.polls := by
  induction n generalizing s d with
  | zero => exact ⟨rfl, le_refl _⟩
  | succ n ih =>
      rw [writeLoop]
      split_ifs
      · obtain ⟨hready, hpolls⟩ := ih (s + 1) { d with
          polls := d.polls + 1
          disk := d.disk.blit (512 * (lba + s)) 512 fun i ↦ buf (512 * s + i) }
        exact ⟨hready, (Nat.le_succ _).trans hpolls⟩
      · exact ⟨rfl, Nat.le_succ _⟩

theorem writeLoop_follows (o : ℕ → Bool)
    (ho : ∀ k, d.polls ≤ k → k < (writeLoop lba buf n s d).2.polls → o k = d.ready k) :
    writeLoop lba buf n s { d with ready := o } =
      ((writeLoop lba buf n s d).1, { (writeLoop lba buf n s d).2 with ready := o }) := by
  induction n generalizing s d with
  | zero => rfl
  | succ n ih =>
      simp only [writeLoop] at ho ⊢
      by_cases hready : d.ready d.polls = true
      · simp only [if_pos hready] at ho ⊢
        have hgrows := (writeLoop_frame lba n (s + 1) buf { d with
          polls := d.polls + 1
          disk := d.disk.blit (512 * (lba + s)) 512 fun i ↦ buf (512 * s + i) }).2
        have hfirst : o d.polls = true := by
          rw [ho d.polls (le_refl _) hgrows]
          exact hready
        rw [if_pos hfirst]
        exact ih (s + 1) { d with
          polls := d.polls + 1
          disk := d.disk.blit (512 * (lba + s)) 512 fun i ↦ buf (512 * s + i) } fun k hlo hhi ↦
          ho k (Nat.le_of_succ_le hlo) hhi
      · simp only [if_neg hready] at ho ⊢
        have hfirst : ¬o d.polls = true := by
          rw [ho d.polls (le_refl _) (Nat.lt_succ_self _)]
          exact hready
        rw [if_neg hfirst]

/-- What a write changes lies in the sectors it was to write. -/
theorem writeLoop_disk {i : ℕ} (hi : i < 512 * (lba + s) ∨ 512 * (lba + s + n) ≤ i) :
    (writeLoop lba buf n s d).2.disk i = d.disk i := by
  induction n generalizing s d with
  | zero => rfl
  | succ n ih =>
      rw [writeLoop]
      split_ifs
      · rw [ih (s + 1) _ (by omega)]
        change d.disk.blit (512 * (lba + s)) 512 (fun i ↦ buf (512 * s + i)) i = d.disk i
        exact blit_apply_of_notMem (by omega)
      · rfl

/-- A write that succeeds has written everything. -/
theorem writeLoop_true (hok : (writeLoop lba buf n s d).1 = true) :
    (writeLoop lba buf n s d).2.disk =
      d.disk.blit (512 * (lba + s)) (512 * n) fun i ↦ buf (512 * s + i) := by
  induction n generalizing s d with
  | zero => simp [writeLoop]
  | succ n ih =>
      rw [writeLoop] at hok ⊢
      split_ifs at hok ⊢ with hready
      · have hjoin := blit_blit_adjacent d.disk (512 * (lba + s)) 512 (512 * n)
          fun i ↦ buf (512 * s + i)
        rw [ih (s + 1) _ hok]
        simp only [Nat.mul_add, Nat.mul_one, Nat.add_assoc, Nat.add_comm (512 * n) 512] at hjoin ⊢
        rw [hjoin]

theorem writeLoop_dead (hn : n ≠ 0) (hdead : d.ready d.polls = false) :
    writeLoop lba buf n s d = (false, { d with polls := d.polls + 1 }) := by
  obtain ⟨n, rfl⟩ := Nat.exists_eq_succ_of_ne_zero hn
  rw [writeLoop, if_neg (by simp [hdead])]

end Transfers

section Calls

variable (lba n : ℕ) (buf : Bytes) (d : Ata)

theorem ataRead_frame : (d.ataRead lba n buf).2.2.disk = d.disk ∧
    (d.ataRead lba n buf).2.2.ready = d.ready ∧ d.polls ≤ (d.ataRead lba n buf).2.2.polls := by
  rw [ataRead]
  split_ifs
  · exact ⟨rfl, rfl, le_refl _⟩
  · exact ⟨rfl, rfl, le_refl _⟩
  · exact readLoop_frame lba n 0 buf d

theorem ataRead_follows (o : ℕ → Bool)
    (ho : ∀ k, d.polls ≤ k → k < (d.ataRead lba n buf).2.2.polls → o k = d.ready k) :
    ({ d with ready := o } : Ata).ataRead lba n buf = ((d.ataRead lba n buf).1,
      (d.ataRead lba n buf).2.1, { (d.ataRead lba n buf).2.2 with ready := o }) := by
  rw [ataRead] at ho ⊢
  rw [ataRead]
  split_ifs at ho ⊢
  · rfl
  · rfl
  · exact readLoop_follows lba n 0 buf d o ho

theorem ataWrite_frame : (d.ataWrite lba n buf).2.ready = d.ready ∧
    d.polls ≤ (d.ataWrite lba n buf).2.polls := by
  rw [ataWrite]
  split_ifs
  · exact ⟨rfl, le_refl _⟩
  · exact ⟨rfl, le_refl _⟩
  · exact writeLoop_frame lba n 0 buf d

theorem ataWrite_follows (o : ℕ → Bool)
    (ho : ∀ k, d.polls ≤ k → k < (d.ataWrite lba n buf).2.polls → o k = d.ready k) :
    ({ d with ready := o } : Ata).ataWrite lba n buf =
      ((d.ataWrite lba n buf).1, { (d.ataWrite lba n buf).2 with ready := o }) := by
  rw [ataWrite] at ho ⊢
  rw [ataWrite]
  split_ifs at ho ⊢
  · rfl
  · rfl
  · exact writeLoop_follows lba n 0 buf d o ho

theorem ataWrite_disk {i : ℕ} (hi : i < 512 * lba ∨ 512 * (lba + n) ≤ i) :
    (d.ataWrite lba n buf).2.disk i = d.disk i := by
  rw [ataWrite]
  split_ifs
  · rfl
  · rfl
  · exact writeLoop_disk lba n 0 buf d (by simpa using hi)

theorem ataWrite_true (hok : (d.ataWrite lba n buf).1 = true) :
    (d.ataWrite lba n buf).2.disk = d.disk.blit (512 * lba) (512 * n) buf := by
  rw [ataWrite] at hok ⊢
  split_ifs at hok ⊢ with hn
  · simp [hn]
  · have hdisk := writeLoop_true lba n 0 buf d hok
    simpa using hdisk

theorem ataRead_dead (hdead : d.ready d.polls = false) : (d.ataRead lba 1 buf).1 = false := by
  rw [ataRead, if_neg one_ne_zero]
  split
  · rfl
  · rw [readLoop, if_neg (by simp [hdead])]

theorem ataWrite_dead (hdead : d.ready d.polls = false) :
    (d.ataWrite lba n buf).2.disk = d.disk := by
  rw [ataWrite]
  split_ifs with hn
  · rfl
  · rfl
  · rw [writeLoop_dead lba n 0 buf d hn hdead]

end Calls

-- proofs about drivers use the equations above and never run a transfer
attribute [irreducible] ataRead ataWrite

end Ata

end MyOS
