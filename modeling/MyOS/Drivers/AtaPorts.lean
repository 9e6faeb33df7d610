import MyOS.Drivers.Ata
import MyOS.Lib.Outcome

/-!
# The ATA drives behind their ports

`ata_read` and `ata_write` reach the two drives of the primary bus through its registers.  The bus
is modelled with those registers, the command that is going on and the drives' contents.  How long
a drive stays busy, whether it can deliver or take a sector, and the status bits that mean nothing
at the moment are parameters.  A register that is written while the drive is busy or has data to
move keeps its value, and a command written then is ignored.  A word moved over the data register
at any other time than the one a drive asks for stops the model.  One status bit is not free while
a drive is busy: its ERR bit is taken to read 0 then.  `ata_poll_data_ready` looks at ERR before
BSY, so that a drive that shows it while busy would make every transfer fail.

On drives that are there the driver is exactly the one that moves whole sectors of one disk, for
every sequence of calls.  Its flush has an effect only if the drive is done with the last sector
when the command is written.  A drive that is not there keeps it waiting for ever.
-/

namespace MyOS

open Bytes

/-- The state of the command of a bus. -/
inductive Phase where
  | rest
  | failed
  /-- The drive has the sector `lba` in its buffer, or waits for it, and `left` sectors are left
  with this one; the words before `pos` have been moved. -/
  | data (out slave : Bool) (lba left pos : ℕ)

structure Bus where
  /-- What the drives deliver when they are read. -/
  disks : Bool → Bytes
  /-- What they still hold after the power has been off. -/
  media : Bool → Bytes
  present : Bool → Bool
  control : UInt8
  features : UInt8
  seccount : UInt8
  lba0 : UInt8
  lba1 : UInt8
  lba2 : UInt8
  hddevsel : UInt8
  phase : Phase
  buffer : Bytes
  /-- How many looks at the status it takes until the drive is no longer busy. -/
  busy : ℕ
  waits : ℕ
  delay : ℕ → ℕ
  polls : ℕ
  ready : ℕ → Bool
  looks : ℕ
  noise : ℕ → UInt8
  irqs : ℕ

namespace Bus

/-! ## The bus -/

section Device

variable (b : Bus)

def slave : Bool := b.hddevsel &&& 0x10 != 0

def sectors : ℕ := if b.seccount = 0 then 256 else b.seccount.toNat

def lba : ℕ :=
  b.lba0.toNat + 2 ^ 8 * b.lba1.toNat + 2 ^ 16 * b.lba2.toNat +
    2 ^ 24 * (b.hddevsel &&& 0x0F).toNat

/-- The drive does something that takes a while, and interrupts when it is through. -/
def work : Bus :=
  { b with
    busy := b.delay b.waits
    waits := b.waits + 1
    irqs := if b.control &&& 0x02 = 0 then b.irqs + 1 else b.irqs }

/-- The next sector of a command. -/
def ask (out slave : Bool) (lba left : ℕ) : Bus :=
  work
    { b with
      polls := b.polls + 1
      phase := if b.ready b.polls then .data out slave lba left 0 else .failed
      buffer := if out then b.buffer else fun i ↦ b.disks slave (512 * lba + i) }

def execute (cmd : UInt8) : Bus :=
  if b.present b.slave = false then b
  else if cmd = 0xE7 then work { b with media := b.disks, phase := .rest }
  else if b.hddevsel &&& 0x40 = 0 then { b with phase := .failed } -- no cylinders and heads
  else if cmd = 0x20 then b.ask false b.slave b.lba b.sectors
  else if cmd = 0x30 then b.ask true b.slave b.lba b.sectors
  else { b with phase := .failed }

/-- The command block can be written. -/
def Open : Prop := b.busy = 0 ∧ (b.phase = .rest ∨ b.phase = .failed)

instance : Decidable b.Open :=
  match h : b.phase with
  | .rest => decidable_of_iff (b.busy = 0) (by simp [Open, h])
  | .failed => decidable_of_iff (b.busy = 0) (by simp [Open, h])
  | .data _ _ _ _ _ => isFalse (by simp [Open, h])

def writeRegister (port : ℕ) (v : UInt8) : Bus :=
  if port = 0x1F1 then { b with features := v }
  else if port = 0x1F2 then { b with seccount := v }
  else if port = 0x1F3 then { b with lba0 := v }
  else if port = 0x1F4 then { b with lba1 := v }
  else if port = 0x1F5 then { b with lba2 := v }
  else if port = 0x1F6 then { b with hddevsel := v }
  else b

def outb (port : ℕ) (v : UInt8) : Bus :=
  if port = 0x3F6 then { b with control := v }
  else if ¬b.Open then b
  else if port = 0x1F7 then b.execute v
  else b.writeRegister port v

/-- The status register, also at its second place.  While the drive is busy, ERR reads 0 and the
bits between it and BSY mean nothing. -/
def status : UInt8 :=
  if b.present b.slave = false then 0
  else if 0 < b.busy then 0x80 ||| b.noise b.looks &&& 0x7E
  else match b.phase with
    | .rest => b.noise b.looks &&& 0x76
    | .failed => 0x01 ||| b.noise b.looks &&& 0x76
    | .data _ _ _ _ _ => 0x08 ||| b.noise b.looks &&& 0x76

/-- Time goes on with each look. -/
def tick : Bus := { b with busy := b.busy - 1, looks := b.looks + 1 }

/-- A word is given with its low byte first. -/
def inw : Outcome (UInt8 × UInt8 × Bus) :=
  match b.phase with
  | .data false slave lba left pos =>
      if 0 < b.busy then .halt "data register read while busy"
      else
        .done (b.buffer (2 * pos), b.buffer (2 * pos + 1),
          if pos + 1 < 256 then { b with phase := .data false slave lba left (pos + 1) }
          else if left = 1 then { b with phase := .rest }
          else b.ask false slave (lba + 1) (left - 1))
  | _ => .halt "data register read without a request"

/-- The sector in the buffer goes to the drive. -/
def accept (slave : Bool) (lba : ℕ) : Bus :=
  { b with disks := Function.update b.disks slave ((b.disks slave).blit (512 * lba) 512 b.buffer) }

def outw (low high : UInt8) : Outcome Bus :=
  match b.phase with
  | .data true slave lba left pos =>
      if 0 < b.busy then .halt "data register written while busy"
      else
        let b : Bus := { b with
          buffer := Function.update (Function.update b.buffer (2 * pos) low) (2 * pos + 1) high }
        .done
          (if pos + 1 < 256 then { b with phase := .data true slave lba left (pos + 1) }
          else if left = 1 then work { b.accept slave lba with phase := .rest }
          else (b.accept slave lba).ask true slave (lba + 1) (left - 1))
  | _ => .halt "data register written without a request"

end Device

/-- The bus when the power comes on. -/
def powerOn (media : Bool → Bytes) (present : Bool → Bool) (delay : ℕ → ℕ) (ready : ℕ → Bool) :
    Bus where
  disks := media
  media := media
  present := present
  control := 0
  features := 0
  seccount := 0
  lba0 := 0
  lba1 := 0
  lba2 := 0
  hddevsel := 0
  phase := .rest
  buffer := fun _ ↦ 0
  busy := 0
  waits := 0
  delay := delay
  polls := 0
  ready := ready
  looks := 0
  noise := fun _ ↦ 0
  irqs := 0

/-! ## The code -/

def ataSrBsy : UInt8 := 0x80

def ataSrDrq : UInt8 := 0x08

def ataSrErr : UInt8 := 0x01

def ataIoWait (b : Bus) : Bus := tick^[4] b

/-- `while (inb(ATA_REG_STATUS) & ATA_SR_BSY)` -/
def waitBsy : ℕ → Bus → Outcome Bus
  | 0, _ => .spin
  | fuel + 1, b => if b.status &&& ataSrBsy ≠ 0 then waitBsy fuel b.tick else .done b.tick

/-- The loop of `ata_poll_data_ready`. -/
def pollLoop : ℕ → Bus → Outcome (Bool × Bus)
  | 0, _ => .spin
  | fuel + 1, b =>
      if b.status &&& ataSrErr ≠ 0 then .done (false, b.tick)
      else if b.status &&& ataSrBsy = 0 ∧ b.status &&& ataSrDrq ≠ 0 then .done (true, b.tick)
      else pollLoop fuel b.tick

def ataPollDataReady (fuel : ℕ) (b : Bus) : Outcome (Bool × Bus) := pollLoop fuel b.ataIoWait

/-- `insw` to the address `p` of `buf`. -/
def insw : ℕ → ℕ → Bytes → Bus → Outcome (Bytes × Bus)
  | 0, _, buf, b => .done (buf, b)
  | n + 1, p, buf, b => do
      let (low, high, b) ← b.inw
      insw n (p + 2) (Function.update (Function.update buf p low) (p + 1) high) b

/-- `outsw` from the address `p` of `buf`. -/
def outsw (buf : Bytes) : ℕ → ℕ → Bus → Outcome Bus
  | 0, _, b => .done b
  | n + 1, p, b => do
      let b ← b.outw (buf p) (buf (p + 1))
      outsw buf n (p + 2) b

/-- The drive and the upper four bits of the sector number. -/
def deviceSelect (drive : UInt8) (lba : ℕ) : UInt8 :=
  (0xE0 : UInt8) ||| (drive &&& 1) <<< 4 ||| UInt8.ofNat (lba >>> 24 &&& 0x0F)

/-- What both calls do before the first sector. -/
def issue (fuel : ℕ) (drive : UInt8) (lba : ℕ) (count cmd : UInt8) (b : Bus) : Outcome Bus := do
  let b := b.outb 0x1F6 (deviceSelect drive lba)
  let b := b.ataIoWait
  let b ← waitBsy fuel b
  let b := b.outb 0x1F1 0
  let b := b.outb 0x1F2 count
  let b := b.outb 0x1F3 (UInt8.ofNat (lba &&& 0xFF))
  let b := b.outb 0x1F4 (UInt8.ofNat (lba >>> 8 &&& 0xFF))
  let b := b.outb 0x1F5 (UInt8.ofNat (lba >>> 16 &&& 0xFF))
  return b.outb 0x1F7 cmd

/-- The sectors `s, s + 1, …` of a read, `n` of them. -/
def readSectors (fuel : ℕ) : ℕ → ℕ → Bytes → Bus → Outcome (Bool × Bytes × Bus)
  | 0, _, buf, b => .done (true, buf, b)
  | n + 1, s, buf, b => do
      let (ok, b) ← ataPollDataReady fuel b
      if ok then do
        let (buf, b) ← insw 256 (512 * s) buf b
        readSectors fuel n (s + 1) buf b
      else .done (false, buf, b)

def ataRead (b : Bus) (fuel : ℕ) (drive : UInt8) (lba : ℕ) (count : UInt8) (buf : Bytes) :
    Outcome (Bool × Bytes × Bus) :=
  if count = 0 then .done (true, buf, b)
  else if lba &&& 0xF0000000 ≠ 0 then .done (false, buf, b)
  else do
    let b ← issue fuel drive lba count 0x20 b
    readSectors fuel count.toNat 0 buf b

def writeSectors (fuel : ℕ) (buf : Bytes) : ℕ → ℕ → Bus → Outcome (Bool × Bus)
  | 0, _, b => .done (true, b)
  | n + 1, s, b => do
      let (ok, b) ← ataPollDataReady fuel b
      if ok then do
        let b ← outsw buf 256 (512 * s) b
        writeSectors fuel buf n (s + 1) b
      else .done (false, b)

def ataWrite (b : Bus) (fuel : ℕ) (drive : UInt8) (lba : ℕ) (count : UInt8) (buf : Bytes) :
    Outcome (Bool × Bus) :=
  if count = 0 then .done (true, b)
  else if lba &&& 0xF0000000 ≠ 0 then .done (false, b)
  else do
    let b ← issue fuel drive lba count 0x30 b
    let (ok, b) ← writeSectors fuel buf count.toNat 0 b
    if ok then do
      let b := b.outb 0x1F7 0xE7
      let b := b.ataIoWait
      let b ← waitBsy fuel b
      return (true, b)
    else .done (false, b)

/-! ## Looking at the status -/

section Status

variable {b c : Bus} {fuel : ℕ} {out slave : Bool} {lba left pos : ℕ}

/-- The bus after some looks, when the drive is no longer busy. -/
def settled (b : Bus) (k : ℕ) : Bus := { b with busy := 0, looks := k }

/-- The bus when a drive has answered that was asked for a sector. -/
def answered (b : Bus) (out slave : Bool) (lba left k : ℕ) : Bus :=
  (b.ask out slave lba left).settled k

/-- The bits of the status that the driver looks at. -/
theorem status_bits (noise : UInt8) :
    (0x80 ||| noise &&& 0x7E) &&& ataSrBsy ≠ 0 ∧ (0x80 ||| noise &&& 0x7E) &&& ataSrErr = 0 ∧
    (noise &&& 0x76) &&& ataSrBsy = 0 ∧
    (0x01 ||| noise &&& 0x76) &&& ataSrBsy = 0 ∧ (0x01 ||| noise &&& 0x76) &&& ataSrErr ≠ 0 ∧
    (0x08 ||| noise &&& 0x76) &&& ataSrBsy = 0 ∧ (0x08 ||| noise &&& 0x76) &&& ataSrErr = 0 ∧
    (0x08 ||| noise &&& 0x76) &&& ataSrDrq ≠ 0 := by
  revert noise
  exact Bytes.forall_byte (by decide +kernel)

theorem status_busy (hpresent : b.present b.slave = true) (hbusy : 0 < b.busy) :
    b.status &&& ataSrBsy ≠ 0 ∧ b.status &&& ataSrErr = 0 := by
  have hbits := status_bits (b.noise b.looks)
  rw [status, if_neg (by simp [hpresent]), if_pos hbusy]
  exact ⟨hbits.1, hbits.2.1⟩

theorem status_still (hbusy : b.busy = 0) : b.status &&& ataSrBsy = 0 := by
  have hbits := status_bits (b.noise b.looks)
  rw [status]
  split_ifs with habsent hpos
  · rfl
  · omega
  · cases b.phase with
    | rest => exact hbits.2.2.1
    | failed => exact hbits.2.2.2.1
    | data out slave lba left pos => exact hbits.2.2.2.2.2.1

theorem status_failed (hpresent : b.present b.slave = true) (hbusy : b.busy = 0)
    (hphase : b.phase = .failed) : b.status &&& ataSrErr ≠ 0 := by
  rw [status, if_neg (by simp [hpresent]), if_neg hbusy.not_gt, hphase]
  exact (status_bits (b.noise b.looks)).2.2.2.2.1

theorem status_data (hpresent : b.present b.slave = true) (hbusy : b.busy = 0)
    (hphase : b.phase = .data out slave lba left pos) :
    b.status &&& ataSrErr = 0 ∧ b.status &&& ataSrDrq ≠ 0 := by
  rw [status, if_neg (by simp [hpresent]), if_neg hbusy.not_gt, hphase]
  exact (status_bits (b.noise b.looks)).2.2.2.2.2.2

theorem tick_eq_settled (hbusy : b.busy = 0) : b.tick = b.settled (b.looks + 1) := by
  rw [tick, settled, hbusy]

theorem waitBsy_still (fuel : ℕ) (hstill : b.busy = 0) :
    waitBsy (fuel + 1) b = .done (b.settled (b.looks + 1)) := by
  rw [waitBsy, if_neg (by simp [status_still hstill]), tick_eq_settled hstill]

theorem waitBsy_spec (hpresent : b.present b.slave = true) (hbusy : b.busy < fuel) :
    ∃ k, waitBsy fuel b = .done (b.settled k) := by
  induction fuel generalizing b with
  | zero => omega
  | succ fuel ih =>
      rcases Nat.eq_zero_or_pos b.busy with hstill | hbsy
      · exact ⟨_, waitBsy_still fuel hstill⟩
      · rw [waitBsy, if_pos (status_busy hpresent hbsy).1]
        have htick : b.tick.busy < fuel := by
          simp only [tick]
          omega
        exact ih (b := b.tick) hpresent htick

/-- The loop ends at the first look at which the drive is no longer busy. -/
theorem pollLoop_busy (hpresent : b.present b.slave = true) (hbusy : 0 < b.busy) :
    pollLoop (fuel + 1) b = pollLoop fuel b.tick := by
  obtain ⟨hbsy, herr⟩ := status_busy hpresent hbusy
  rw [pollLoop, if_neg (by simp [herr]), if_neg fun hboth ↦ hbsy hboth.1]

theorem pollLoop_spec {ok : Bool} (hpresent : b.present b.slave = true) (hbusy : b.busy < fuel)
    (hend : ∀ fuel k, pollLoop (fuel + 1) (b.settled k) = .done (ok, b.settled (k + 1))) :
    ∃ k, pollLoop fuel b = .done (ok, b.settled k) := by
  induction fuel generalizing b with
  | zero => omega
  | succ fuel ih =>
      rcases Nat.eq_zero_or_pos b.busy with hstill | hbsy
      · have hsettled : b.settled b.looks = b := by rw [settled, ← hstill]
        exact ⟨b.looks + 1, hsettled ▸ hend fuel b.looks⟩
      · rw [pollLoop_busy hpresent hbsy]
        have htick : b.tick.busy < fuel := by
          simp only [tick]
          omega
        exact ih (b := b.tick) hpresent htick hend

theorem pollLoop_data (hpresent : b.present b.slave = true) (hbusy : b.busy < fuel)
    (hphase : b.phase = .data out slave lba left pos) :
    ∃ k, pollLoop fuel b = .done (true, b.settled k) := by
  refine pollLoop_spec hpresent hbusy fun fuel k ↦ ?_
  obtain ⟨herr, hdrq⟩ := status_data (b := b.settled k) hpresent rfl hphase
  rw [pollLoop, if_neg (by simp [herr]), if_pos ⟨status_still rfl, hdrq⟩]
  rfl

theorem pollLoop_failed (hpresent : b.present b.slave = true) (hbusy : b.busy < fuel)
    (hphase : b.phase = .failed) : ∃ k, pollLoop fuel b = .done (false, b.settled k) := by
  refine pollLoop_spec hpresent hbusy fun fuel k ↦ ?_
  rw [pollLoop, if_pos (status_failed (b := b.settled k) hpresent rfl hphase)]
  rfl

theorem iterate_tick (b : Bus) (n : ℕ) :
    tick^[n] b = { b with busy := b.busy - n, looks := b.looks + n } := by
  induction n with
  | zero => rfl
  | succ n ih =>
      rw [Function.iterate_succ_apply', ih, tick]
      rfl

/-- What `ata_poll_data_ready` finds after a drive was asked for a sector. -/
theorem ataPollDataReady_ask (out slave : Bool) (lba left : ℕ)
    (hpresent : b.present b.slave = true) (hdelay : ∀ k, b.delay k < fuel) :
    ∃ k, ataPollDataReady fuel (b.ask out slave lba left)
      = .done (b.ready b.polls, b.answered out slave lba left k) := by
  rw [ataPollDataReady, ataIoWait, iterate_tick]
  have hbusy : (b.ask out slave lba left).busy - 4 < fuel :=
    (Nat.sub_le _ _).trans_lt (hdelay b.waits)
  cases hready : b.ready b.polls with
  | true =>
      have hphase : (b.ask out slave lba left).phase = .data out slave lba left 0 := if_pos hready
      exact pollLoop_data (b := { b.ask out slave lba left with busy := _, looks := _ })
        hpresent hbusy hphase
  | false =>
      have hphase : (b.ask out slave lba left).phase = .failed := if_neg (by simp [hready])
      exact pollLoop_failed (b := { b.ask out slave lba left with busy := _, looks := _ })
        hpresent hbusy hphase

end Status

/-! ## Moving a sector -/

section Words

variable {b : Bus} {slave : Bool} {lba left pos : ℕ}

theorem update_update_eq_blit (m : Bytes) (p : ℕ) (src : Bytes) :
    Function.update (Function.update m p (src 0)) (p + 1) (src 1) = m.blit p 2 src := by
  funext i
  rcases Nat.lt_trichotomy i p with hi | rfl | hi
  · rw [Function.update_of_ne (by omega), Function.update_of_ne (by omega),
      blit_apply_of_notMem (by omega)]
  · rw [Function.update_of_ne (by omega), Function.update_self, blit_apply (le_refl _) (by omega),
      Nat.sub_self]
  · rcases Nat.eq_or_lt_of_le (Nat.succ_le_of_lt hi) with rfl | hi
    · rw [Function.update_self, blit_apply (by omega) (by omega), Nat.succ_eq_add_one,
        Nat.add_sub_cancel_left]
    · rw [Function.update_of_ne (by omega), Function.update_of_ne (by omega),
        blit_apply_of_notMem (by omega)]

/-- The bus after the last word of a sector that was read. -/
def sectorRead (b : Bus) (slave : Bool) (lba left : ℕ) : Bus :=
  if left = 1 then { b with phase := .rest } else b.ask false slave (lba + 1) (left - 1)

theorem inw_eq (hphase : b.phase = .data false slave lba left pos) (hstill : b.busy = 0) :
    b.inw = .done (b.buffer (2 * pos), b.buffer (2 * pos + 1),
      if pos + 1 < 256 then { b with phase := .data false slave lba left (pos + 1) }
      else b.sectorRead slave lba left) := by
  rw [inw, hphase]
  exact if_neg hstill.not_gt

theorem insw_spec (n p : ℕ) (buf : Bytes) (hphase : b.phase = .data false slave lba left pos)
    (hstill : b.busy = 0) (hn : n ≠ 0) (hpos : pos + n = 256) :
    insw n p buf b = .done (buf.blit p (2 * n) fun i ↦ b.buffer (2 * pos + i),
      b.sectorRead slave lba left) := by
  induction n generalizing b p buf pos with
  | zero => exact absurd rfl hn
  | succ n ih =>
      have hword : Function.update (Function.update buf p (b.buffer (2 * pos))) (p + 1)
          (b.buffer (2 * pos + 1)) = buf.blit p 2 fun i ↦ b.buffer (2 * pos + i) :=
        update_update_eq_blit buf p fun i ↦ b.buffer (2 * pos + i)
      rw [insw, inw_eq hphase hstill, Outcome.done_bind]
      simp only [hword]
      rcases Nat.eq_zero_or_pos n with rfl | hn'
      · rw [if_neg (by omega), insw]
      · have hrest := ih (b := { b with phase := .data false slave lba left (pos + 1) }) (p + 2)
          (buf.blit p 2 fun i ↦ b.buffer (2 * pos + i)) rfl hstill hn'.ne' (by omega)
        rw [if_pos (by omega), hrest]
        have hsrc : (fun i ↦ b.buffer (2 * (pos + 1) + i))
            = fun i ↦ b.buffer (2 * pos + (2 + i)) := by
          funext i
          congr 1
          omega
        have hlen : 2 * (n + 1) = 2 + 2 * n := by omega
        rw [hlen, ← blit_blit_adjacent buf p 2 (2 * n), ← hsrc]
        rfl

/-- The bus after the last word of a sector that was written. -/
def sectorWritten (b : Bus) (slave : Bool) (lba left : ℕ) (buffer : Bytes) : Bus :=
  let b : Bus := { b with buffer := buffer }
  if left = 1 then work { b.accept slave lba with phase := .rest }
  else (b.accept slave lba).ask true slave (lba + 1) (left - 1)

theorem outw_eq (hphase : b.phase = .data true slave lba left pos) (hstill : b.busy = 0)
    (src : Bytes) :
    b.outw (src 0) (src 1) = .done
      (if pos + 1 < 256 then { b with
        phase := .data true slave lba left (pos + 1), buffer := b.buffer.blit (2 * pos) 2 src }
      else b.sectorWritten slave lba left (b.buffer.blit (2 * pos) 2 src)) := by
  rw [outw, hphase, ← update_update_eq_blit b.buffer (2 * pos) src]
  exact if_neg hstill.not_gt

theorem outsw_spec (n p : ℕ) (buf : Bytes) (hphase : b.phase = .data true slave lba left pos)
    (hstill : b.busy = 0) (hn : n ≠ 0) (hpos : pos + n = 256) :
    outsw buf n p b = .done (b.sectorWritten slave lba left
      (b.buffer.blit (2 * pos) (2 * n) fun i ↦ buf (p + i))) := by
  induction n generalizing b p pos with
  | zero => exact absurd rfl hn
  | succ n ih =>
      have hword := outw_eq hphase hstill fun i ↦ buf (p + i)
      rw [outsw]
      rw [Nat.add_zero] at hword
      rw [hword, Outcome.done_bind]
      rcases Nat.eq_zero_or_pos n with rfl | hn'
      · rw [if_neg (by omega), outsw]
      · have hrest := ih (b := { b with
          phase := .data true slave lba left (pos + 1)
          buffer := b.buffer.blit (2 * pos) 2 fun i ↦ buf (p + i) }) (p + 2) rfl hstill hn'.ne'
          (by omega)
        rw [if_pos (by omega), hrest]
        have hsrc : (fun i ↦ buf (p + 2 + i)) = fun i ↦ buf (p + (2 + i)) := by
          funext i
          rw [Nat.add_assoc]
        have hlen : 2 * (n + 1) = 2 + 2 * n := by omega
        have hdst : 2 * (pos + 1) = 2 * pos + 2 := by omega
        rw [hlen, hdst, hsrc, ← blit_blit_adjacent b.buffer (2 * pos) 2 (2 * n)]
        rfl

end Words

/-! ## The sectors of a command -/

/-- The disk of one drive, as `Ata` has it. -/
def ata (b : Bus) (slave : Bool) : Ata := ⟨b.disks slave, b.polls, b.ready⟩

/-- The bus with a sector on the drive and in its buffer. -/
def stored (b : Bus) (slave : Bool) (lba : ℕ) (src : Bytes) : Bus :=
  ({ b with buffer := b.buffer.blit 0 512 src } : Bus).accept slave lba

/-- What a command on one drive leaves alone. -/
structure Kept (slave : Bool) (b c : Bus) : Prop where
  present : c.present = b.present
  delay : c.delay = b.delay
  control : c.control = b.control
  other : c.disks (!slave) = b.disks (!slave)
  quiet : b.control &&& 0x02 ≠ 0 → c.irqs = b.irqs

section Sectors

variable {b c : Bus} {fuel : ℕ} {slave : Bool} {n : ℕ}

theorem Kept.refl (slave : Bool) (b : Bus) : Kept slave b b := ⟨rfl, rfl, rfl, rfl, fun _ ↦ rfl⟩

theorem Kept.trans {d : Bus} (h : Kept slave b c) (h' : Kept slave c d) : Kept slave b d where
  present := h'.present.trans h.present
  delay := h'.delay.trans h.delay
  control := h'.control.trans h.control
  other := h'.other.trans h.other
  quiet := fun hn ↦ (h'.quiet (by rwa [h.control])).trans (h.quiet hn)

theorem kept_ask (slave : Bool) (b : Bus) (out : Bool) (lba left : ℕ) :
    Kept slave b (b.ask out slave lba left) :=
  ⟨rfl, rfl, rfl, rfl, fun hn ↦ if_neg hn⟩

theorem kept_stored (slave : Bool) (b : Bus) (lba : ℕ) (src : Bytes) :
    Kept slave b (b.stored slave lba src) :=
  ⟨rfl, rfl, rfl, Function.update_of_ne (by cases slave <;> decide) _ _, fun _ ↦ rfl⟩

theorem kept_settled (h : Kept slave b c) (k : ℕ) : Kept slave b (c.settled k) :=
  ⟨h.present, h.delay, h.control, h.other, h.quiet⟩

/-- The sectors of a read, from the moment the drive is asked for the first. -/
theorem readSectors_spec (lba s : ℕ) (buf : Bytes) (hn : n ≠ 0) (hslave : b.slave = slave)
    (hpresent : b.present slave = true) (hdelay : ∀ k, b.delay k < fuel) :
    ∃ c, readSectors fuel n s buf (b.ask false slave (lba + s) n)
        = .done ((Ata.readLoop lba n s buf (b.ata slave)).1,
          (Ata.readLoop lba n s buf (b.ata slave)).2.1, c) ∧
      c.ata slave = (Ata.readLoop lba n s buf (b.ata slave)).2.2 ∧
      c.Open ∧ Kept slave b c ∧ c.media = b.media := by
  induction n generalizing b s buf with
  | zero => exact absurd rfl hn
  | succ n ih =>
      obtain ⟨k, hpoll⟩ := ataPollDataReady_ask false slave (lba + s) (n + 1)
        (by rwa [hslave]) hdelay
      have hkept := kept_settled (kept_ask slave b false (lba + s) (n + 1)) k
      rw [readSectors, hpoll, Ata.readLoop, Outcome.done_bind]
      cases hready : b.ready b.polls with
      | false =>
          have hrefused : ¬(b.ata slave).ready (b.ata slave).polls = true := by simp [ata, hready]
          rw [if_neg hrefused]
          exact ⟨_, rfl, rfl, ⟨rfl, .inr (if_neg (by simp [hready]))⟩, hkept, rfl⟩
      | true =>
          have hgranted : (b.ata slave).ready (b.ata slave).polls = true := hready
          have hsector := insw_spec (b := b.answered false slave (lba + s) (n + 1) k) 256
            (512 * s) buf (if_pos hready) rfl (by decide) (by decide)
          have hbuffer :
              (fun i ↦ (b.answered false slave (lba + s) (n + 1) k).buffer (2 * 0 + i))
              = fun i ↦ b.disks slave (512 * (lba + s) + i) := by
            funext i
            rw [Nat.mul_zero, Nat.zero_add]
            rfl
          rw [hbuffer] at hsector
          simp only [if_true, hsector, Outcome.done_bind]
          rw [if_pos hgranted]
          rcases Nat.eq_zero_or_pos n with rfl | hn'
          · exact ⟨_, rfl, rfl, ⟨rfl, .inl rfl⟩, hkept.trans ⟨rfl, rfl, rfl, rfl, fun _ ↦ rfl⟩, rfl⟩
          · have hnext : (b.answered false slave (lba + s) (n + 1) k).sectorRead slave (lba + s)
                (n + 1) = (b.answered false slave (lba + s) (n + 1) k).ask false slave
                  (lba + (s + 1)) n := if_neg (by omega)
            rw [hnext]
            obtain ⟨c, hrun, hata, hopen, hkept', hmedia⟩ := ih
              (b := b.answered false slave (lba + s) (n + 1) k) (s + 1)
              (buf.blit (512 * s) 512 fun i ↦ b.disks slave (512 * (lba + s) + i))
              hn'.ne' hslave hpresent hdelay
            exact ⟨c, hrun, hata, hopen, hkept.trans hkept', hmedia⟩

/-- A sector that was written is on the drive. -/
theorem stored_ata (b : Bus) (slave : Bool) (lba : ℕ) (src : Bytes) :
    (b.stored slave lba src).ata slave
      = { b.ata slave with disk := (b.disks slave).blit (512 * lba) 512 src } := by
  have hdisk : (b.disks slave).blit (512 * lba) 512 (b.buffer.blit 0 512 src)
      = (b.disks slave).blit (512 * lba) 512 src := by
    apply blit_congr
    intro i hi
    rw [blit_apply (Nat.zero_le _) (by omega), Nat.sub_zero]
  rw [ata, ← hdisk]
  simp only [stored, accept, Function.update_self]
  rfl

/-- The sectors of a write.  When all are written, the drive may still be busy with the last. -/
theorem writeSectors_spec (lba s : ℕ) (buf : Bytes) (hn : n ≠ 0) (hslave : b.slave = slave)
    (hpresent : b.present slave = true) (hdelay : ∀ k, b.delay k < fuel) :
    ∃ c, writeSectors fuel buf n s (b.ask true slave (lba + s) n)
        = .done ((Ata.writeLoop lba buf n s (b.ata slave)).1, c) ∧
      c.ata slave = (Ata.writeLoop lba buf n s (b.ata slave)).2 ∧
      c.slave = slave ∧ Kept slave b c ∧ c.media = b.media ∧
      if (Ata.writeLoop lba buf n s (b.ata slave)).1 then
        c.phase = .rest ∧ c.busy = b.delay (b.waits + n)
      else c.Open := by
  induction n generalizing b s with
  | zero => exact absurd rfl hn
  | succ n ih =>
      obtain ⟨k, hpoll⟩ := ataPollDataReady_ask true slave (lba + s) (n + 1)
        (by rwa [hslave]) hdelay
      have hkept := kept_settled (kept_ask slave b true (lba + s) (n + 1)) k
      rw [writeSectors, hpoll, Ata.writeLoop, Outcome.done_bind]
      cases hready : b.ready b.polls with
      | false =>
          have hrefused : ¬(b.ata slave).ready (b.ata slave).polls = true := by simp [ata, hready]
          rw [if_neg hrefused]
          exact ⟨_, rfl, rfl, hslave, hkept, rfl, rfl, .inr (if_neg (by simp [hready]))⟩
      | true =>
          have hgranted : (b.ata slave).ready (b.ata slave).polls = true := hready
          have hsector := outsw_spec (b := b.answered true slave (lba + s) (n + 1) k) 256
            (512 * s) buf (if_pos hready) rfl (by decide) (by decide)
          have hata := stored_ata (b.answered true slave (lba + s) (n + 1) k) slave (lba + s)
            fun i ↦ buf (512 * s + i)
          have hkept' := hkept.trans (kept_stored slave _ (lba + s) fun i ↦ buf (512 * s + i))
          simp only [if_true, hsector, Outcome.done_bind]
          rw [if_pos hgranted]
          rcases Nat.eq_zero_or_pos n with rfl | hn'
          · refine ⟨_, rfl, hata, hslave, ?_, rfl, rfl, rfl⟩
            exact hkept'.trans ⟨rfl, rfl, rfl, rfl, fun hquiet ↦ if_neg hquiet⟩
          · have hnext : (b.answered true slave (lba + s) (n + 1) k).sectorWritten slave (lba + s)
                (n + 1) ((b.answered true slave (lba + s) (n + 1) k).buffer.blit (2 * 0)
                  (2 * 256) fun i ↦ buf (512 * s + i))
                = ((b.answered true slave (lba + s) (n + 1) k).stored slave (lba + s)
                  fun i ↦ buf (512 * s + i)).ask true slave (lba + (s + 1)) n := if_neg (by omega)
            rw [hnext]
            obtain ⟨c, hrun, hc, hslave', hkept'', hmedia, hend⟩ := ih
              (b := (b.answered true slave (lba + s) (n + 1) k).stored slave (lba + s)
                fun i ↦ buf (512 * s + i)) (s + 1) hn'.ne' hslave hpresent hdelay
            rw [hata] at hrun hc hend
            have hwaits : b.waits + (n + 1) = b.waits + 1 + n := by omega
            rw [hwaits]
            exact ⟨c, hrun, hc, hslave', hkept'.trans hkept'', hmedia, hend⟩

end Sectors

/-! ## The calls -/

section Calls

variable {b : Bus} {fuel : ℕ} {drive count cmd : UInt8} {lba : ℕ}

/-- The drive that the calls address. -/
def isSlave (drive : UInt8) : Bool := drive &&& 1 != 0

theorem deviceSelect_bits (drive : UInt8) (lba : ℕ) :
    (deviceSelect drive lba &&& 0x10 != 0) = isSlave drive ∧
    deviceSelect drive lba &&& 0x40 ≠ 0 ∧
    (deviceSelect drive lba &&& 0x0F).toNat = lba / 2 ^ 24 % 16 := by
  have hdrive : ∀ x : UInt8, x &&& 1 = 0 ∨ x &&& 1 = 1 := Bytes.forall_byte (by decide +kernel)
  have hbits : ∀ d : UInt8, d = 0 ∨ d = 1 → ∀ y : UInt8, y.toNat < 16 →
      (((0xE0 : UInt8) ||| d <<< 4 ||| y) &&& 0x10 != 0) = (d != 0) ∧
      ((0xE0 : UInt8) ||| d <<< 4 ||| y) &&& 0x40 ≠ 0 ∧
      ((0xE0 : UInt8) ||| d <<< 4 ||| y) &&& 0x0F = y := by
    rintro d (rfl | rfl)
    · exact Bytes.forall_byte (by decide +kernel)
    · exact Bytes.forall_byte (by decide +kernel)
  have hhigh : (UInt8.ofNat (lba >>> 24 &&& 0x0F)).toNat = lba / 2 ^ 24 % 16 := by
    have hand : lba >>> 24 &&& 0x0F = lba / 2 ^ 24 % 16 := by
      rw [Nat.shiftRight_eq_div_pow]
      exact Nat.and_two_pow_sub_one_eq_mod _ 4
    rw [hand, UInt8.toNat_ofNat']
    omega
  obtain ⟨hslave, hmode, hy⟩ := hbits _ (hdrive drive) (UInt8.ofNat (lba >>> 24 &&& 0x0F))
    (by omega)
  refine ⟨hslave, hmode, ?_⟩
  rw [deviceSelect, hy, hhigh]

/-- The bus with the registers of a command. -/
def addressed (b : Bus) (drive : UInt8) (lba : ℕ) (count : UInt8) (k : ℕ) : Bus :=
  { b with
    hddevsel := deviceSelect drive lba
    features := 0
    seccount := count
    lba0 := UInt8.ofNat (lba &&& 0xFF)
    lba1 := UInt8.ofNat (lba >>> 8 &&& 0xFF)
    lba2 := UInt8.ofNat (lba >>> 16 &&& 0xFF)
    busy := 0
    looks := k }

theorem addressed_slave (b : Bus) (drive : UInt8) (lba : ℕ) (count : UInt8) (k : ℕ) :
    (b.addressed drive lba count k).slave = isSlave drive := (deviceSelect_bits drive lba).1

/-- The sector number that the drive puts together is the one asked for. -/
theorem addressed_lba (b : Bus) (drive count : UInt8) (k : ℕ) (hlba : lba < 2 ^ 28) :
    (b.addressed drive lba count k).lba = lba := by
  have hbyte : ∀ x : ℕ, (UInt8.ofNat (x &&& 0xFF)).toNat = x % 256 := by
    intro x
    have hand : x &&& 0xFF = x % 256 := Nat.and_two_pow_sub_one_eq_mod x 8
    rw [hand, UInt8.toNat_ofNat']
    omega
  rw [Bus.lba]
  simp only [addressed]
  rw [hbyte, hbyte, hbyte, (deviceSelect_bits drive lba).2.2, Nat.shiftRight_eq_div_pow,
    Nat.shiftRight_eq_div_pow]
  omega

theorem addressed_sectors (b : Bus) (drive : UInt8) (lba : ℕ) (k : ℕ) (hcount : count ≠ 0) :
    (b.addressed drive lba count k).sectors = count.toNat := if_neg hcount

theorem outb_register {port : ℕ} (h : b.Open) (hcontrol : port ≠ 0x3F6) (hcmd : port ≠ 0x1F7)
    (v : UInt8) : b.outb port v = b.writeRegister port v := by
  rw [outb, if_neg hcontrol, if_neg (not_not_intro h), if_neg hcmd]

theorem Open.writeRegister (h : b.Open) (port : ℕ) (v : UInt8) :
    (b.writeRegister port v).Open := by
  have hsame : (b.writeRegister port v).busy = b.busy ∧
      (b.writeRegister port v).phase = b.phase := by
    rw [Bus.writeRegister]
    split_ifs <;> exact ⟨rfl, rfl⟩
  rw [Open, hsame.1, hsame.2]
  exact h

theorem outb_command (h : b.Open) (cmd : UInt8) : b.outb 0x1F7 cmd = b.execute cmd := by
  rw [outb, if_neg (by decide), if_neg (not_not_intro h), if_pos rfl]

theorem outb_registers (h : b.Open) (count x y z cmd : UInt8) :
    (((((b.outb 0x1F1 0).outb 0x1F2 count).outb 0x1F3 x).outb 0x1F4 y).outb 0x1F5 z).outb 0x1F7 cmd
      = execute { b with
          features := 0, seccount := count, lba0 := x, lba1 := y, lba2 := z } cmd := by
  have h₁ := h.writeRegister 0x1F1 0
  have h₂ := h₁.writeRegister 0x1F2 count
  have h₃ := h₂.writeRegister 0x1F3 x
  have h₄ := h₃.writeRegister 0x1F4 y
  have h₅ := h₄.writeRegister 0x1F5 z
  rw [outb_register h (by decide) (by decide), outb_register h₁ (by decide) (by decide),
    outb_register h₂ (by decide) (by decide), outb_register h₃ (by decide) (by decide),
    outb_register h₄ (by decide) (by decide), outb_command h₅]
  rfl

/-- Everything up to the command. -/
theorem issue_eq (fuel : ℕ) (drive : UInt8) (lba : ℕ) (count cmd : UInt8) (h : b.Open) :
    ∃ k, issue (fuel + 1) drive lba count cmd b
      = .done ((b.addressed drive lba count k).execute cmd) := by
  have hselect : b.outb 0x1F6 (deviceSelect drive lba)
      = { b with hddevsel := deviceSelect drive lba } := outb_register h (by decide) (by decide) _
  have hwait := waitBsy_still fuel
    (b := { b with hddevsel := deviceSelect drive lba, busy := b.busy - 4, looks := b.looks + 4 })
    (by rw [h.1])
  have hopen : (settled { b with
      hddevsel := deviceSelect drive lba
      busy := b.busy - 4
      looks := b.looks + 4 } (b.looks + 4 + 1)).Open := ⟨rfl, h.2⟩
  refine ⟨b.looks + 4 + 1, ?_⟩
  rw [issue, hselect, ataIoWait, iterate_tick]
  simp only [hwait, Outcome.done_bind]
  exact congrArg Outcome.done (outb_registers hopen count _ _ _ cmd)

theorem kept_addressed (slave : Bool) (b : Bus) (drive : UInt8) (lba : ℕ) (count : UInt8) (k : ℕ) :
    Kept slave b (b.addressed drive lba count k) := ⟨rfl, rfl, rfl, rfl, fun _ ↦ rfl⟩

/-- The command of a transfer makes the drive ask for its first sector. -/
theorem execute_transfer (k : ℕ) (out : Bool) (hpresent : b.present (isSlave drive) = true)
    (hlba : lba < 2 ^ 28) (hcount : count ≠ 0) :
    (b.addressed drive lba count k).execute (if out then 0x30 else 0x20)
      = (b.addressed drive lba count k).ask out (isSlave drive) lba count.toNat := by
  have hthere : ¬(b.addressed drive lba count k).present (b.addressed drive lba count k).slave
      = false := by
    rw [addressed_slave, Bool.not_eq_false]
    exact hpresent
  have hmode : ¬(b.addressed drive lba count k).hddevsel &&& 0x40 = 0 :=
    (deviceSelect_bits drive lba).2.1
  rw [execute, if_neg hthere, if_neg (by cases out <;> decide), if_neg hmode, addressed_slave,
    addressed_lba b drive count k hlba, addressed_sectors b drive lba k hcount]
  cases out with
  | false => rfl
  | true => rfl

theorem lba_lt_of_mask (hlba : lba < 2 ^ 32) (hmask : ¬lba &&& 0xF0000000 ≠ 0) : lba < 2 ^ 28 := by
  by_contra hge
  exact hmask (Ata.lba28_mask_ne (not_lt.mp hge) hlba)

/-- `ata_read` on a drive that is there. -/
theorem ataRead_spec (count : UInt8) (buf : Bytes) (h : b.Open)
    (hpresent : b.present (isSlave drive) = true) (hdelay : ∀ k, b.delay k < fuel)
    (hlba : lba < 2 ^ 32) :
    ∃ c, b.ataRead fuel drive lba count buf
        = .done (((b.ata (isSlave drive)).ataRead lba count.toNat buf).1,
          ((b.ata (isSlave drive)).ataRead lba count.toNat buf).2.1, c) ∧
      c.ata (isSlave drive) = ((b.ata (isSlave drive)).ataRead lba count.toNat buf).2.2 ∧
      c.Open ∧ Kept (isSlave drive) b c ∧ c.media = b.media := by
  rw [ataRead, Ata.ataRead]
  by_cases hcount : count = 0
  · have hnat : count.toNat = 0 := congrArg UInt8.toNat hcount
    rw [if_pos hcount, if_pos hnat]
    exact ⟨b, rfl, rfl, h, Kept.refl _ b, rfl⟩
  · have hnat : ¬count.toNat = 0 := fun hzero ↦ hcount (UInt8.toNat_inj.mp hzero)
    rw [if_neg hcount, if_neg hnat]
    by_cases hmask : lba &&& 0xF0000000 ≠ 0
    · rw [if_pos hmask, if_pos hmask]
      exact ⟨b, rfl, rfl, h, Kept.refl _ b, rfl⟩
    · rw [if_neg hmask, if_neg hmask]
      obtain ⟨fuel, rfl⟩ := Nat.exists_eq_succ_of_ne_zero (Nat.ne_zero_of_lt (hdelay 0))
      obtain ⟨k, hissue⟩ := issue_eq fuel drive lba count 0x20 h
      have hask := execute_transfer (b := b) k false hpresent (lba_lt_of_mask hlba hmask) hcount
      obtain ⟨c, hrun, hata, hopen, hkept, hmedia⟩ := readSectors_spec lba 0 buf hnat
        (addressed_slave b drive lba count k) hpresent hdelay
      refine ⟨c, ?_, hata, hopen, (kept_addressed _ b drive lba count k).trans hkept, hmedia⟩
      rw [Nat.succ_eq_add_one, hissue, Outcome.done_bind]
      rw [if_neg Bool.false_ne_true] at hask
      rw [hask]
      exact hrun

/-- The flush after a write.  It is ignored if the drive is still busy with the last sector. -/
theorem flush_spec {slave : Bool} (hslave : b.slave = slave) (hpresent : b.present slave = true)
    (hdelay : ∀ k, b.delay k < fuel) (hphase : b.phase = .rest) (hbusy : b.busy < fuel) :
    ∃ c, waitBsy fuel (b.outb 0x1F7 0xE7).ataIoWait = .done c ∧ c.ata slave = b.ata slave ∧
      c.Open ∧ Kept slave b c ∧ c.media = if b.busy = 0 then c.disks else b.media := by
  subst hslave
  rw [ataIoWait, iterate_tick]
  rcases Nat.eq_zero_or_pos b.busy with hstill | hbsy
  · have hflush : b.outb 0x1F7 0xE7 = work { b with media := b.disks, phase := .rest } := by
      rw [outb_command ⟨hstill, .inl hphase⟩, execute, if_neg (by simp [hpresent]), if_pos rfl]
    rw [hflush]
    obtain ⟨k, hwait⟩ := waitBsy_spec
      (b := { work { b with media := b.disks, phase := .rest } with
        busy := (work { b with media := b.disks, phase := .rest }).busy - 4
        looks := (work { b with media := b.disks, phase := .rest }).looks + 4 })
      hpresent ((Nat.sub_le _ _).trans_lt (hdelay b.waits))
    refine ⟨_, hwait, rfl, ⟨rfl, .inl rfl⟩, ⟨rfl, rfl, rfl, rfl, fun hquiet ↦ if_neg hquiet⟩, ?_⟩
    rw [if_pos hstill]
    rfl
  · have hignored : b.outb 0x1F7 0xE7 = b := by
      rw [outb, if_neg (by decide), if_pos fun hopen ↦ hbsy.ne' hopen.1]
    rw [hignored]
    obtain ⟨k, hwait⟩ := waitBsy_spec (b := { b with busy := b.busy - 4, looks := b.looks + 4 })
      hpresent ((Nat.sub_le _ _).trans_lt hbusy)
    refine ⟨_, hwait, rfl, ⟨rfl, .inl hphase⟩, ⟨rfl, rfl, rfl, rfl, fun _ ↦ rfl⟩, ?_⟩
    rw [if_neg hbsy.ne']
    rfl

/-- What is left on the drives when the power fails after a call. -/
def flushed (b c : Bus) (count : UInt8) (ok : Bool) : Bool → Bytes :=
  if ok = true ∧ count ≠ 0 ∧ b.delay (b.waits + count.toNat) = 0 then c.disks else b.media

/-- `ata_write` on a drive that is there. -/
theorem ataWrite_spec (count : UInt8) (buf : Bytes) (h : b.Open)
    (hpresent : b.present (isSlave drive) = true) (hdelay : ∀ k, b.delay k < fuel)
    (hlba : lba < 2 ^ 32) :
    ∃ c, b.ataWrite fuel drive lba count buf
        = .done (((b.ata (isSlave drive)).ataWrite lba count.toNat buf).1, c) ∧
      c.ata (isSlave drive) = ((b.ata (isSlave drive)).ataWrite lba count.toNat buf).2 ∧
      c.Open ∧ Kept (isSlave drive) b c ∧
      c.media = b.flushed c count ((b.ata (isSlave drive)).ataWrite lba count.toNat buf).1 := by
  rw [ataWrite, Ata.ataWrite]
  by_cases hcount : count = 0
  · have hnat : count.toNat = 0 := congrArg UInt8.toNat hcount
    rw [if_pos hcount, if_pos hnat]
    exact ⟨b, rfl, rfl, h, Kept.refl _ b, (if_neg fun hall ↦ hall.2.1 hcount).symm⟩
  · have hnat : ¬count.toNat = 0 := fun hzero ↦ hcount (UInt8.toNat_inj.mp hzero)
    rw [if_neg hcount, if_neg hnat]
    by_cases hmask : lba &&& 0xF0000000 ≠ 0
    · rw [if_pos hmask, if_pos hmask]
      exact ⟨b, rfl, rfl, h, Kept.refl _ b, (if_neg fun hall ↦ Bool.false_ne_true hall.1).symm⟩
    · rw [if_neg hmask, if_neg hmask]
      obtain ⟨fuel, rfl⟩ := Nat.exists_eq_succ_of_ne_zero (Nat.ne_zero_of_lt (hdelay 0))
      obtain ⟨k, hissue⟩ := issue_eq fuel drive lba count 0x30 h
      have hask := execute_transfer (b := b) k true hpresent (lba_lt_of_mask hlba hmask) hcount
      obtain ⟨c, hrun, hata, hslave, hkept, hmedia, hend⟩ := writeSectors_spec lba 0 buf hnat
        (addressed_slave b drive lba count k) hpresent hdelay
      have hkept' := (kept_addressed _ b drive lba count k).trans hkept
      rw [if_pos rfl] at hask
      rw [Nat.add_zero] at hrun
      rw [Nat.succ_eq_add_one, hissue, Outcome.done_bind, hask, hrun, Outcome.done_bind]
      have hsame : (b.addressed drive lba count k).ata (isSlave drive) = b.ata (isSlave drive) :=
        rfl
      rw [hsame] at hata hend ⊢
      cases hok : (Ata.writeLoop lba buf count.toNat 0 (b.ata (isSlave drive))).1 with
      | false =>
          rw [hok, if_neg Bool.false_ne_true] at hend
          refine ⟨c, rfl, hata, hend, hkept', ?_⟩
          rw [hmedia]
          exact (if_neg fun hall ↦ Bool.false_ne_true hall.1).symm
      | true =>
          rw [hok, if_pos rfl] at hend
          obtain ⟨d, hflush, hdata, hopen, hkept'', hmedia'⟩ := flush_spec hslave
            (by rw [hkept'.present]; exact hpresent) (by rw [hkept'.delay]; exact hdelay) hend.1
            (by rw [hend.2]; exact hdelay _)
          refine ⟨d, ?_, hdata.trans hata, hopen, hkept'.trans hkept'', ?_⟩
          · simp only [if_true]
            rw [Nat.succ_eq_add_one] at hflush
            rw [hflush]
            rfl
          · rw [hmedia', hend.2, hmedia, flushed]
            by_cases hstill : b.delay (b.waits + count.toNat) = 0
            · exact (if_pos hstill).trans (if_pos ⟨rfl, hcount, hstill⟩).symm
            · exact (if_neg hstill).trans (if_neg fun hall ↦ hstill hall.2.2).symm

end Calls

/-! ## A drive that is not there -/

section Absent

variable {b : Bus} {fuel : ℕ} {drive count : UInt8} {lba : ℕ}

/-- Neither `ERR` nor `DRQ` ever shows. -/
theorem pollLoop_absent (fuel : ℕ) (habsent : b.present b.slave = false) :
    pollLoop fuel b = .spin := by
  induction fuel generalizing b with
  | zero => rfl
  | succ fuel ih =>
      have hstatus : b.status = 0 := if_pos habsent
      rw [pollLoop, hstatus, if_neg (by decide), if_neg (by decide)]
      exact ih habsent

theorem ataPollDataReady_absent (fuel : ℕ) (habsent : b.present b.slave = false) :
    ataPollDataReady fuel b = .spin := by
  rw [ataPollDataReady, ataIoWait, iterate_tick]
  exact pollLoop_absent fuel habsent

/-- The command is not executed, and nothing says so. -/
theorem issue_absent (cmd : UInt8) (h : b.Open) (habsent : b.present (isSlave drive) = false) :
    issue fuel drive lba count cmd b = .spin ∨ ∃ c : Bus, c.present c.slave = false ∧
      issue fuel drive lba count cmd b = .done c := by
  cases fuel with
  | zero => exact .inl rfl
  | succ fuel =>
      obtain ⟨k, hissue⟩ := issue_eq fuel drive lba count cmd h
      have hgone : (b.addressed drive lba count k).present (b.addressed drive lba count k).slave
          = false := by
        rw [addressed_slave]
        exact habsent
      rw [execute, if_pos hgone] at hissue
      exact .inr ⟨_, hgone, hissue⟩

theorem ataRead_absent (buf : Bytes) (h : b.Open) (habsent : b.present (isSlave drive) = false)
    (hlba : lba < 2 ^ 28) (hcount : count ≠ 0) : b.ataRead fuel drive lba count buf = .spin := by
  obtain ⟨n, hn⟩ := Nat.exists_eq_succ_of_ne_zero fun hzero ↦ hcount (UInt8.toNat_inj.mp hzero)
  rw [ataRead, if_neg hcount, if_neg (by simp [Ata.lba28_mask hlba]), hn]
  rcases issue_absent 0x20 h habsent with hissue | ⟨c, hgone, hissue⟩
  · rw [hissue]
    rfl
  · rw [hissue, Outcome.done_bind, readSectors, ataPollDataReady_absent fuel hgone]
    rfl

theorem ataWrite_absent (buf : Bytes) (h : b.Open) (habsent : b.present (isSlave drive) = false)
    (hlba : lba < 2 ^ 28) (hcount : count ≠ 0) : b.ataWrite fuel drive lba count buf = .spin := by
  obtain ⟨n, hn⟩ := Nat.exists_eq_succ_of_ne_zero fun hzero ↦ hcount (UInt8.toNat_inj.mp hzero)
  rw [ataWrite, if_neg hcount, if_neg (by simp [Ata.lba28_mask hlba]), hn]
  rcases issue_absent 0x30 h habsent with hissue | ⟨c, hgone, hissue⟩
  · rw [hissue]
    rfl
  · rw [hissue, Outcome.done_bind, writeSectors, ataPollDataReady_absent fuel hgone]
    rfl

end Absent

/-! ## Whole runs -/

/-- A call of the driver. -/
inductive Transfer where
  | read (drive : UInt8) (lba : ℕ) (count : UInt8) (buf : Bytes)
  | write (drive : UInt8) (lba : ℕ) (count : UInt8) (buf : Bytes)

namespace Transfer

/-- The drive there is, and the sector number is one the calls can be given. -/
def Fits (present : Bool → Bool) : Transfer → Prop
  | read drive lba _ _ => present (isSlave drive) = true ∧ lba < 2 ^ 32
  | write drive lba _ _ => present (isSlave drive) = true ∧ lba < 2 ^ 32

/-- The drive there is not, and the call does not return before it needs it. -/
def Misses (present : Bool → Bool) : Transfer → Prop
  | read drive lba count _ => present (isSlave drive) = false ∧ lba < 2 ^ 28 ∧ count ≠ 0
  | write drive lba count _ => present (isSlave drive) = false ∧ lba < 2 ^ 28 ∧ count ≠ 0

end Transfer

/-- The result of a call and the buffer after it. -/
def serve (fuel : ℕ) (b : Bus) : Transfer → Outcome ((Bool × Bytes) × Bus)
  | .read drive lba count buf => do
      let (ok, buf, b) ← b.ataRead fuel drive lba count buf
      return ((ok, buf), b)
  | .write drive lba count buf => do
      let (ok, b) ← b.ataWrite fuel drive lba count buf
      return ((ok, buf), b)

def serveAll (fuel : ℕ) : List Transfer → Bus → Outcome (List (Bool × Bytes) × Bus)
  | [], b => .done ([], b)
  | t :: ts, b => do
      let (reply, b) ← b.serve fuel t
      let (replies, b) ← serveAll fuel ts b
      return (reply :: replies, b)

end Bus

/-- Two disks without a bus. -/
structure Drives where
  disks : Bool → Bytes
  polls : ℕ
  ready : ℕ → Bool

namespace Drives

def ata (d : Drives) (slave : Bool) : Ata := ⟨d.disks slave, d.polls, d.ready⟩

def after (d : Drives) (slave : Bool) (a : Ata) : Drives :=
  { disks := Function.update d.disks slave a.disk, polls := a.polls, ready := a.ready }

def serve (d : Drives) : Bus.Transfer → (Bool × Bytes) × Drives
  | .read drive lba count buf =>
      let r := (d.ata (Bus.isSlave drive)).ataRead lba count.toNat buf
      ((r.1, r.2.1), d.after (Bus.isSlave drive) r.2.2)
  | .write drive lba count buf =>
      let r := (d.ata (Bus.isSlave drive)).ataWrite lba count.toNat buf
      ((r.1, buf), d.after (Bus.isSlave drive) r.2)

def serveAll : List Bus.Transfer → Drives → List (Bool × Bytes) × Drives
  | [], d => ([], d)
  | t :: ts, d =>
      let r := serveAll ts (d.serve t).2
      ((d.serve t).1 :: r.1, r.2)

end Drives

namespace Bus

section Runs

variable {b c : Bus} {fuel : ℕ}

def drives (b : Bus) : Drives := ⟨b.disks, b.polls, b.ready⟩

theorem drives_eq_after {slave : Bool} {a : Ata} (hkept : Kept slave b c) (hata : c.ata slave = a) :
    c.drives = b.drives.after slave a := by
  subst hata
  have hdisks : c.disks = Function.update b.disks slave (c.disks slave) := by
    funext side
    by_cases hside : side = slave
    · rw [hside, Function.update_self]
    · have hother : side = !slave := by
        revert hside
        cases side <;> cases slave <;> decide
      rw [Function.update_of_ne hside, hother, hkept.other]
  exact congrArg (fun disks ↦ (⟨disks, c.polls, c.ready⟩ : Drives)) hdisks

/-- What holds between the calls. -/
structure Between (b c : Bus) : Prop where
  still : c.Open
  present : c.present = b.present
  delay : c.delay = b.delay
  control : c.control = b.control
  quiet : b.control &&& 0x02 ≠ 0 → c.irqs = b.irqs
  unflushed : (∀ k, b.delay k ≠ 0) → c.media = b.media

theorem Between.trans {d : Bus} (h : Between b c) (h' : Between c d) : Between b d where
  still := h'.still
  present := h'.present.trans h.present
  delay := h'.delay.trans h.delay
  control := h'.control.trans h.control
  quiet := fun hn ↦ (h'.quiet (by rwa [h.control])).trans (h.quiet hn)
  unflushed := fun hslow ↦ (h'.unflushed (by rwa [h.delay])).trans (h.unflushed hslow)

/-- One call. -/
theorem serve_spec (t : Transfer) (h : b.Open) (hfits : t.Fits b.present)
    (hdelay : ∀ k, b.delay k < fuel) :
    ∃ c, b.serve fuel t = .done ((b.drives.serve t).1, c) ∧ c.drives = (b.drives.serve t).2 ∧
      Between b c := by
  cases t with
  | read drive lba count buf =>
      obtain ⟨c, hrun, hata, hopen, hkept, hmedia⟩ :=
        ataRead_spec count buf h hfits.1 hdelay hfits.2
      refine ⟨c, ?_, drives_eq_after hkept hata, hopen, hkept.present, hkept.delay, hkept.control,
        hkept.quiet, fun _ ↦ hmedia⟩
      rw [serve, hrun]
      rfl
  | write drive lba count buf =>
      obtain ⟨c, hrun, hata, hopen, hkept, hmedia⟩ :=
        ataWrite_spec count buf h hfits.1 hdelay hfits.2
      refine ⟨c, ?_, drives_eq_after hkept hata, hopen, hkept.present, hkept.delay, hkept.control,
        hkept.quiet, fun hslow ↦ ?_⟩
      · rw [serve, hrun]
        rfl
      · rw [hmedia]
        exact if_neg fun hall ↦ hslow _ hall.2.2

/-- Any number of calls. -/
theorem serveAll_spec (ts : List Transfer) (h : b.Open) (hfits : ∀ t ∈ ts, t.Fits b.present)
    (hdelay : ∀ k, b.delay k < fuel) :
    ∃ c, serveAll fuel ts b = .done ((Drives.serveAll ts b.drives).1, c) ∧
      c.drives = (Drives.serveAll ts b.drives).2 ∧ Between b c := by
  induction ts generalizing b with
  | nil => exact ⟨b, rfl, rfl, h, rfl, rfl, rfl, fun _ ↦ rfl, fun _ ↦ rfl⟩
  | cons t ts ih =>
      obtain ⟨c, hrun, hdrives, hbetween⟩ := serve_spec t h (hfits t List.mem_cons_self) hdelay
      have hfits' : ∀ t ∈ ts, t.Fits c.present := by
        rw [hbetween.present]
        exact fun t ht ↦ hfits t (List.mem_cons_of_mem _ ht)
      obtain ⟨d, hruns, hdrives', hbetween'⟩ := ih hbetween.still hfits'
        (by rwa [hbetween.delay])
      rw [hdrives] at hruns hdrives'
      refine ⟨d, ?_, hdrives', hbetween.trans hbetween'⟩
      rw [serveAll, hrun, Outcome.done_bind]
      simp only [hruns]
      rfl

/-- The flush that ends a write is lost on a drive that takes any time for a sector: the command is
written while the drive is busy.  The calls succeed all the same, and nothing that they write is
sure to be there after the power has been off. -/
theorem slow_drive_never_flushes (fuel : ℕ) (ts : List Transfer) (h : b.Open)
    (hfits : ∀ t ∈ ts, t.Fits b.present) (hdelay : ∀ k, b.delay k < fuel)
    (hslow : ∀ k, b.delay k ≠ 0) :
    ∃ c, serveAll fuel ts b = .done ((Drives.serveAll ts b.drives).1, c) ∧ c.media = b.media := by
  obtain ⟨c, hruns, -, hbetween⟩ := serveAll_spec ts h hfits hdelay
  exact ⟨c, hruns, hbetween.unflushed hslow⟩

theorem slow_drive_never_flushes_sector : ∃ c,
    serveAll 3 [.write 1 7 1 fun _ ↦ 0x5A]
        (powerOn (fun _ _ ↦ 0) (fun _ ↦ true) (fun _ ↦ 2) fun _ ↦ true)
      = .done ((Drives.serveAll [.write 1 7 1 fun _ ↦ 0x5A] ⟨fun _ _ ↦ 0, 0, fun _ ↦ true⟩).1, c) ∧
      c.media = fun _ _ ↦ 0 := by
  exact slow_drive_never_flushes 3
    (b := powerOn (fun _ _ ↦ 0) (fun _ ↦ true) (fun _ ↦ 2) fun _ ↦ true)
    [.write 1 7 1 fun _ ↦ 0x5A] ⟨rfl, .inl rfl⟩ (by simp [Transfer.Fits, powerOn])
    (fun _ ↦ Nat.lt_succ_self 2) fun _ ↦ two_ne_zero

/-- The first call on a drive that is not there never returns, however long it is given: the
other drive answers for it with a status of zero, in which the driver looks for `ERR` or `DRQ`. -/
theorem absent_drive_hangs (ts rest : List Transfer) {t : Transfer} (h : b.Open)
    (hfits : ∀ t ∈ ts, t.Fits b.present) (hdelay : ∀ k, b.delay k < fuel)
    (hmiss : t.Misses b.present) : serveAll fuel (ts ++ t :: rest) b = .spin := by
  induction ts generalizing b with
  | nil =>
      have hspin : b.serve fuel t = .spin := by
        cases t with
        | read drive lba count buf =>
            rw [serve, ataRead_absent buf h hmiss.1 hmiss.2.1 hmiss.2.2]
            rfl
        | write drive lba count buf =>
            rw [serve, ataWrite_absent buf h hmiss.1 hmiss.2.1 hmiss.2.2]
            rfl
      rw [List.nil_append, serveAll, hspin]
      rfl
  | cons t' ts ih =>
      obtain ⟨c, hrun, -, hbetween⟩ := serve_spec t' h (hfits t' List.mem_cons_self) hdelay
      have hfits' : ∀ t ∈ ts, t.Fits c.present := by
        rw [hbetween.present]
        exact fun t ht ↦ hfits t (List.mem_cons_of_mem _ ht)
      have hspin := ih hbetween.still hfits' (by rwa [hbetween.delay]) (by rwa [hbetween.present])
      rw [List.cons_append, serveAll, hrun, Outcome.done_bind]
      simp only [hspin]
      rfl

/-- The boot sector of a second drive when there is only one. -/
theorem absent_drive_hangs_mount :
    serveAll 3 [.read 1 0 1 fun _ ↦ 0]
      (powerOn (fun _ _ ↦ 0) (fun slave ↦ !slave) (fun _ ↦ 2) fun _ ↦ true) = .spin ∧
    serveAll 1000000 [.read 1 0 1 fun _ ↦ 0]
      (powerOn (fun _ _ ↦ 0) (fun slave ↦ !slave) (fun _ ↦ 2) fun _ ↦ true) = .spin := by
  constructor
  · exact absent_drive_hangs [] [] ⟨rfl, .inl rfl⟩ (by simp) (fun _ ↦ Nat.lt_succ_self 2)
      ⟨rfl, by decide, by decide⟩
  · exact absent_drive_hangs [] [] ⟨rfl, .inl rfl⟩ (by simp) (fun _ ↦ by simp [powerOn])
      ⟨rfl, by decide, by decide⟩

end Runs

end Bus

end MyOS
