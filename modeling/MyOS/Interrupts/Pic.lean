import MyOS.Lib.Outcome
import Mathlib.Logic.Function.Basic
import Mathlib.Data.Nat.Bitwise

/-!
# Device interrupts

Two interrupt controllers, the second one on line 2 of the first, turn the requests of sixteen
lines into vectors.  `pic_init` programs them through their ports, and `isr_handler` ends each
interrupt with `pic_send_eoi`.  The controllers are modelled as far as these writes reach: the
initialisation words, the mask, the end of an interrupt and the order of the lines.

A line in service blocks itself and all lines behind it.  The gates of the device interrupts mask
interrupts, so that the kernel takes one at a time; in every run nothing is in service when
interrupts are enabled, and each request is taken after the requests before it.
-/

namespace MyOS.Interrupts

/-! ## The controllers -/

/-- A controller: requests, lines in service and the mask; what the initialisation words set; and
the word that it waits for, 0 if none. -/
structure Chip where
  irr : ℕ → Bool
  isr : ℕ → Bool
  imr : ℕ → Bool
  offset : ℕ
  wiring : ℕ
  autoEoi : Bool
  single : Bool
  needIcw4 : Bool
  waits : ℕ

/-- The first of eight lines. -/
def firstSet (f : ℕ → Bool) : Option ℕ := (List.range 8).find? f

def clearFirst (f : ℕ → Bool) : ℕ → Bool :=
  match firstSet f with
  | none => f
  | some i => Function.update f i false

namespace Chip

variable (c : Chip)

/-- A write to the command port.  Of the operation words only the ends of interrupts matter here. -/
def command (v : ℕ) : Chip :=
  if v.testBit 4 then
    { c with
      irr := fun _ ↦ false
      isr := fun _ ↦ false
      imr := fun _ ↦ false
      single := v.testBit 1
      needIcw4 := v.testBit 0
      autoEoi := false
      waits := 2 }
  else if v / 8 = 4 then { c with isr := clearFirst c.isr }
  else if v / 8 = 12 then { c with isr := Function.update c.isr (v % 8) false }
  else c

/-- A write to the data port: the initialisation word that is waited for, or the mask. -/
def data (v : ℕ) : Chip :=
  match c.waits with
  | 2 => { c with
      offset := v / 8 * 8
      waits := if ¬c.single then 3 else if c.needIcw4 then 4 else 0 }
  | 3 => { c with
      wiring := v
      waits := if c.needIcw4 then 4 else 0 }
  | 4 => { c with
      autoEoi := v.testBit 1
      waits := 0 }
  | _ => { c with imr := v.testBit }

/-- The line whose request is passed on, given the requests. -/
def present (req : ℕ → Bool) : Option ℕ :=
  firstSet fun i ↦ req i && !c.imr i && (List.range (i + 1)).all fun j ↦ !c.isr j

/-- Line `i` is taken into service. -/
def take (i : ℕ) : Chip :=
  { c with
    irr := Function.update c.irr i false
    isr := if c.autoEoi then c.isr else Function.update c.isr i true }

end Chip

structure Pics where
  master : Chip
  slave : Chip

namespace Pics

variable (p : Pics)

def outb (port v : ℕ) : Pics :=
  if port = 0x20 then { p with master := p.master.command v }
  else if port = 0x21 then { p with master := p.master.data v }
  else if port = 0xA0 then { p with slave := p.slave.command v }
  else if port = 0xA1 then { p with slave := p.slave.data v }
  else p

/-- The requests at the inputs of the master; the slave is on line 2. -/
def inputs (i : ℕ) : Bool :=
  if i = 2 then (p.slave.present p.slave.irr).isSome else p.master.irr i

/-- The processor acknowledges an interrupt: the vector that it gets.  If the request is gone, it
is the vector of the last line, and nothing is taken into service.  With `gone` the request of the
slave goes when the master has already passed it on. -/
def acknowledge (gone : Bool) : ℕ × Pics :=
  match p.master.present p.inputs with
  | none => (p.master.offset + 7, p)
  | some i =>
      if p.master.wiring.testBit i ∧ p.slave.wiring = i then
        match if gone then none else p.slave.present p.slave.irr with
        | none => (p.slave.offset + 7, { p with master := p.master.take i })
        | some j =>
            (p.slave.offset + j, { master := p.master.take i, slave := p.slave.take j })
      else (p.master.offset + i, { p with master := p.master.take i })

/-- A device on line `i` asks for an interrupt, or takes the request back. -/
def setRequest (i : ℕ) (b : Bool) : Pics :=
  if i < 8 then { p with master := { p.master with irr := Function.update p.master.irr i b } }
  else { p with slave := { p.slave with irr := Function.update p.slave.irr (i - 8) b } }

def request (i : ℕ) : Bool := if i < 8 then p.master.irr i else p.slave.irr (i - 8)

end Pics

/-! ## The code -/

/-- `pic_init`, with the writes of `io_wait` to port `0x80`. -/
def picInit (p : Pics) : Pics :=
  [(0x20, 0x11), (0x80, 0), (0xA0, 0x11), (0x80, 0), (0x21, 0x20), (0x80, 0), (0xA1, 0x28),
    (0x80, 0), (0x21, 0x04), (0x80, 0), (0xA1, 0x02), (0x80, 0), (0x21, 0x01), (0x80, 0),
    (0xA1, 0x01), (0x80, 0), (0x21, 0x00), (0xA1, 0x00)].foldl (fun p w ↦ p.outb w.1 w.2) p

def picSendEoi (p : Pics) (irq : ℕ) : Pics :=
  let p := if 8 ≤ irq then p.outb 0xA0 0x20 else p
  p.outb 0x20 0x20

/-- What `isr_handler` calls, on a state of the kernel. -/
structure Kernel (σ : Type) where
  handlers : ℕ → Option (σ → Outcome σ)
  sendEoi : ℕ → σ → σ
  taskShouldResched : σ → Bool × σ
  taskYield : σ → Outcome σ
  syscallDispatch : σ → Outcome σ

/-- `isr_handler`; what it prints before it halts is left out. -/
def isrHandler {σ : Type} (k : Kernel σ) (intNo : ℕ) (s : σ) : Outcome σ :=
  if intNo < 32 then
    match k.handlers intNo with
    | some handler => handler s
    | none => .halt "exception"
  else if intNo < 48 then do
    let s ← match k.handlers intNo with
      | some handler => handler s
      | none => .done s
    let r := k.taskShouldResched (k.sendEoi (intNo - 32) s)
    if r.1 then k.taskYield r.2 else .done r.2
  else if intNo = 128 then k.syscallDispatch s
  else .done s

/-! ## Runs -/

/-- What `isr_handler` does to the controllers: no handler and no task writes to their ports. -/
def picKernel : Kernel Pics where
  handlers := fun _ ↦ none
  sendEoi := fun irq p ↦ picSendEoi p irq
  taskShouldResched := fun p ↦ (false, p)
  taskYield := .done
  syscallDispatch := .done

/-- The controllers, the interrupt flag and the vector of the handler that runs, up to its
`pic_send_eoi`. -/
structure Irqs where
  pics : Pics
  interrupts : Bool
  handling : Option ℕ

/-- Devices make requests and take them back at any time.  Outside the handlers the flag changes
freely, with `cli`, `sti`, `iret` and switches to other tasks.  An interrupt is taken if the flag
is set, also without a request. -/
inductive Irqs.Step : Irqs → Irqs → Prop
  | device {s : Irqs} (i : ℕ) (b : Bool) : Step s { s with pics := s.pics.setRequest i b }
  | flag {s : Irqs} (b : Bool) (hout : s.handling = none) : Step s { s with interrupts := b }
  | accept {s : Irqs} (gone : Bool) (hflag : s.interrupts = true) :
      Step s ⟨(s.pics.acknowledge gone).2, false, some (s.pics.acknowledge gone).1⟩
  | finish {s : Irqs} {v : ℕ} {p : Pics} (hin : s.handling = some v)
      (hrun : isrHandler picKernel v s.pics = .done p) :
      Step s { s with pics := p, handling := none }

/-- Everything from the end of `pic_init` on, which runs with interrupts masked. -/
inductive Irqs.Reachable : Irqs → Prop
  | boot (p : Pics) : Reachable ⟨picInit p, false, none⟩
  | step {s s' : Irqs} (hrun : Reachable s) (hstep : s.Step s') : Reachable s'

variable {c : Chip} {p : Pics} {s s' : Irqs} {f g : ℕ → Bool} {i j v : ℕ}

/-! ## Lines -/

theorem firstSet_eq_some : firstSet f = some i ↔ i < 8 ∧ f i = true ∧ ∀ j < i, f j = false := by
  rw [firstSet, List.find?_range_eq_some]
  simp only [List.mem_range, Bool.not_eq_true']
  tauto

theorem firstSet_eq_none : firstSet f = none ↔ ∀ i < 8, f i = false := by
  rw [firstSet, List.find?_range_eq_none]
  simp only [Bool.not_eq_true']

theorem firstSet_congr (h : ∀ i < 8, f i = g i) : firstSet f = firstSet g := by
  cases hf : firstSet f with
  | none =>
      rw [firstSet_eq_none] at hf
      exact (firstSet_eq_none.mpr fun i hi ↦ (h i hi).symm.trans (hf i hi)).symm
  | some i =>
      obtain ⟨hi, hset, hbefore⟩ := firstSet_eq_some.mp hf
      exact (firstSet_eq_some.mpr ⟨hi, (h i hi).symm.trans hset,
        fun j hj ↦ (h j (by omega)).symm.trans (hbefore j hj)⟩).symm

/-- No line of the chip is in service. -/
def Chip.Idle (c : Chip) : Prop := ∀ i < 8, c.isr i = false

/-- The only line in service is `i`. -/
def Chip.Serves (c : Chip) (i : ℕ) : Prop := ∀ j < 8, c.isr j = decide (j = i)

/-- The chip is initialised, and no line is masked. -/
structure Chip.Set (c : Chip) (offset wiring : ℕ) : Prop where
  offset : c.offset = offset
  wiring : c.wiring = wiring
  autoEoi : c.autoEoi = false
  waits : c.waits = 0
  imr : ∀ i < 8, c.imr i = false

theorem Chip.present_idle {o w : ℕ} (h : c.Set o w) (hidle : c.Idle) (req : ℕ → Bool) :
    c.present req = firstSet req := by
  refine firstSet_congr fun i hi ↦ ?_
  have hall : (List.range (i + 1)).all (fun j ↦ !c.isr j) = true := by
    rw [List.all_eq_true]
    intro j hj
    rw [hidle j (by have := List.mem_range.mp hj; omega)]
    rfl
  rw [h.imr i hi, hall, Bool.not_false, Bool.and_true, Bool.and_true]

theorem Chip.take_serves {o w : ℕ} (h : c.Set o w) (hidle : c.Idle) (i : ℕ) :
    (c.take i).Serves i := by
  intro j hj
  simp only [Chip.take, h.autoEoi, Bool.false_eq_true, if_false, Function.update_apply]
  by_cases hji : j = i
  · rw [if_pos hji, decide_eq_true hji]
  · rw [if_neg hji, hidle j hj, decide_eq_false hji]

theorem Chip.Set.take {o w : ℕ} (h : c.Set o w) (i : ℕ) : (c.take i).Set o w :=
  ⟨h.offset, h.wiring, h.autoEoi, h.waits, h.imr⟩

/-- `0x20` in the command port. -/
theorem Chip.command_eoi (c : Chip) : c.command 0x20 = { c with isr := clearFirst c.isr } := by
  rw [Chip.command, if_neg (by decide), if_pos (by decide)]

theorem Chip.Set.eoi {o w : ℕ} (h : c.Set o w) : (c.command 0x20).Set o w := by
  rw [Chip.command_eoi]
  exact ⟨h.offset, h.wiring, h.autoEoi, h.waits, h.imr⟩

theorem Chip.Idle.eoi (h : c.Idle) : (c.command 0x20).Idle := by
  rw [Chip.command_eoi]
  have hnone : firstSet c.isr = none := firstSet_eq_none.mpr h
  intro i hi
  simp only [clearFirst, hnone]
  exact h i hi

/-- The end of an interrupt is the end of the one in service. -/
theorem Chip.Serves.eoi (h : c.Serves i) (hi : i < 8) : (c.command 0x20).Idle := by
  have hfirst : firstSet c.isr = some i := by
    refine firstSet_eq_some.mpr ⟨hi, ?_, fun j hj ↦ ?_⟩
    · rw [h i hi, decide_eq_true rfl]
    · rw [h j (by omega), decide_eq_false (by omega)]
  rw [Chip.command_eoi]
  intro j hj
  simp only [clearFirst, hfirst, Function.update_apply]
  split_ifs with hji
  · rfl
  · rw [h j hj, decide_eq_false hji]

/-! ## Both controllers -/

/-- Both chips are initialised. -/
structure Pics.Ready (p : Pics) : Prop where
  master : p.master.Set 32 4
  slave : p.slave.Set 40 2

/-- Nothing is in service. -/
structure Pics.Idle (p : Pics) : Prop extends p.Ready where
  master_idle : p.master.Idle
  slave_idle : p.slave.Idle

/-- The handler of vector `v` runs.  Without a request nothing is in service for it, except the
line of the slave. -/
structure Pics.Busy (p : Pics) (v : ℕ) : Prop extends p.Ready where
  lower : 32 ≤ v
  upper : v < 48
  master_busy : v < 40 → p.slave.Idle ∧ (p.master.Serves (v - 32) ∨ p.master.Idle)
  slave_busy : 40 ≤ v → p.master.Serves 2 ∧ (p.slave.Serves (v - 40) ∨ p.slave.Idle)

theorem picInit_idle (p : Pics) : (picInit p).Idle := by
  refine ⟨⟨⟨rfl, rfl, rfl, rfl, fun i _ ↦ ?_⟩, ⟨rfl, rfl, rfl, rfl, fun i _ ↦ ?_⟩⟩,
    fun i _ ↦ rfl, fun i _ ↦ rfl⟩
  · exact Nat.zero_testBit i
  · exact Nat.zero_testBit i

/-- Requests change nothing else. -/
theorem Pics.setRequest_rest (p : Pics) (i : ℕ) (b : Bool) :
    (p.setRequest i b).master.isr = p.master.isr ∧ (p.setRequest i b).slave.isr = p.slave.isr ∧
      (p.Ready → (p.setRequest i b).Ready) := by
  rw [Pics.setRequest]
  split
  · exact ⟨rfl, rfl, fun h ↦ ⟨⟨h.master.offset, h.master.wiring, h.master.autoEoi, h.master.waits,
      h.master.imr⟩, h.slave⟩⟩
  · exact ⟨rfl, rfl, fun h ↦ ⟨h.master, ⟨h.slave.offset, h.slave.wiring, h.slave.autoEoi,
      h.slave.waits, h.slave.imr⟩⟩⟩

theorem Pics.Idle.setRequest (h : p.Idle) (i : ℕ) (b : Bool) : (p.setRequest i b).Idle := by
  obtain ⟨hmaster, hslave, hready⟩ := p.setRequest_rest i b
  refine ⟨hready h.toReady, ?_, ?_⟩
  · rw [Chip.Idle, hmaster]
    exact h.master_idle
  · rw [Chip.Idle, hslave]
    exact h.slave_idle

theorem Pics.Busy.setRequest (h : p.Busy v) (i : ℕ) (b : Bool) : (p.setRequest i b).Busy v := by
  obtain ⟨hmaster, hslave, hready⟩ := p.setRequest_rest i b
  refine ⟨hready h.toReady, h.lower, h.upper, ?_, ?_⟩
  · rw [Chip.Idle, Chip.Serves, Chip.Idle, hmaster, hslave]
    exact h.master_busy
  · rw [Chip.Serves, Chip.Serves, Chip.Idle, hmaster, hslave]
    exact h.slave_busy

/-- With nothing in service, the first request is taken. -/
theorem Pics.Idle.acknowledge_cases (h : p.Idle) (gone : Bool) :
    (p.acknowledge gone = (39, p) ∧ ∀ i < 8, p.inputs i = false) ∨
      (∃ i < 8, i ≠ 2 ∧ p.acknowledge gone = (32 + i, { p with master := p.master.take i }) ∧
        p.master.irr i = true ∧ ∀ j < i, p.inputs j = false) ∨
      ∃ j < 8, p.slave.irr j = true ∧ (∀ k < j, p.slave.irr k = false) ∧
        (∀ k < 2, p.inputs k = false) ∧
        p.acknowledge gone = if gone then (47, { p with master := p.master.take 2 })
          else (40 + j, { master := p.master.take 2, slave := p.slave.take j }) := by
  have hmaster := Chip.present_idle h.master h.master_idle p.inputs
  have hslave := Chip.present_idle h.slave h.slave_idle p.slave.irr
  cases hfirst : firstSet p.inputs with
  | none =>
      refine Or.inl ⟨?_, firstSet_eq_none.mp hfirst⟩
      rw [Pics.acknowledge, hmaster, hfirst, h.master.offset]
  | some i =>
      obtain ⟨hi, hset, hbefore⟩ := firstSet_eq_some.mp hfirst
      by_cases htwo : i = 2
      · subst htwo
        have hsome : (firstSet p.slave.irr).isSome = true := by
          rw [← hslave]
          exact hset
        obtain ⟨j, hj⟩ := Option.isSome_iff_exists.mp hsome
        obtain ⟨hj8, hjset, hjbefore⟩ := firstSet_eq_some.mp hj
        refine Or.inr (Or.inr ⟨j, hj8, hjset, hjbefore, hbefore, ?_⟩)
        rw [Pics.acknowledge, hmaster, hfirst, h.master.wiring, h.slave.wiring, hslave, hj]
        simp only [show Nat.testBit 4 2 = true by decide, true_and, if_true, h.slave.offset]
        cases gone <;> rfl
      · refine Or.inr (Or.inl ⟨i, hi, htwo, ?_, ?_, hbefore⟩)
        · have hno : ¬(p.master.wiring.testBit i = true ∧ p.slave.wiring = i) := by
            rw [h.slave.wiring]
            exact fun hboth ↦ htwo hboth.2.symm
          rw [Pics.acknowledge, hmaster, hfirst]
          simp only [if_neg hno, h.master.offset]
        · rwa [Pics.inputs, if_neg htwo] at hset

theorem Pics.Idle.acknowledge_busy (h : p.Idle) (gone : Bool) :
    (p.acknowledge gone).2.Busy (p.acknowledge gone).1 := by
  rcases h.acknowledge_cases gone with ⟨heq, -⟩ | ⟨i, hi, -, heq, -⟩ | ⟨j, hj, -, -, -, heq⟩
  · rw [heq]
    exact ⟨h.toReady, by norm_num, by norm_num, fun _ ↦ ⟨h.slave_idle, Or.inr h.master_idle⟩,
      fun hv ↦ absurd hv (by norm_num)⟩
  · have hsub : 32 + i - 32 = i := by omega
    rw [heq]
    refine ⟨⟨h.master.take i, h.slave⟩, by omega, by omega,
      fun _ ↦ ⟨h.slave_idle, Or.inl ?_⟩, fun hv ↦ absurd hv (by omega)⟩
    rw [hsub]
    exact Chip.take_serves h.master h.master_idle i
  · have hserves := Chip.take_serves h.master h.master_idle 2
    have hsub : 40 + j - 40 = j := by omega
    rw [heq]
    cases gone with
    | true =>
        exact ⟨⟨h.master.take 2, h.slave⟩, by norm_num, by norm_num,
          fun hv ↦ absurd hv (by norm_num), fun _ ↦ ⟨hserves, Or.inr h.slave_idle⟩⟩
    | false =>
        have hlt : 40 + j < 48 := by omega
        refine ⟨⟨h.master.take 2, h.slave.take j⟩, (by omega : 32 ≤ 40 + j), hlt,
          fun hv ↦ absurd hv (Nat.not_lt.mpr (Nat.le_add_right 40 j)),
          fun _ ↦ ⟨hserves, Or.inl ?_⟩⟩
        simp only [Bool.false_eq_true, if_false, hsub]
        exact Chip.take_serves h.slave h.slave_idle j

theorem picSendEoi_low (p : Pics) (h : i < 8) :
    picSendEoi p i = { p with master := p.master.command 0x20 } := by
  rw [picSendEoi, if_neg (by omega)]
  rfl

theorem picSendEoi_high (p : Pics) (h : 8 ≤ i) : picSendEoi p i =
    { master := p.master.command 0x20, slave := p.slave.command 0x20 } := by
  rw [picSendEoi, if_pos h]
  rfl

/-- `pic_send_eoi` ends what is in service. -/
theorem Pics.Busy.sendEoi (h : p.Busy v) : (picSendEoi p (v - 32)).Idle := by
  have hlower := h.lower
  by_cases hv : v < 40
  · obtain ⟨hslave, hmaster⟩ := h.master_busy hv
    rw [picSendEoi_low p (by omega)]
    refine ⟨⟨h.master.eoi, h.slave⟩, ?_, hslave⟩
    rcases hmaster with hserves | hidle
    · exact hserves.eoi (by omega)
    · exact hidle.eoi
  · have hupper := h.upper
    obtain ⟨hmaster, hslave⟩ := h.slave_busy (by omega)
    rw [picSendEoi_high p (by omega)]
    refine ⟨⟨h.master.eoi, h.slave.eoi⟩, hmaster.eoi (by norm_num), ?_⟩
    rcases hslave with hserves | hidle
    · exact hserves.eoi (by omega)
    · exact hidle.eoi

/-- A handler of a device interrupt returns. -/
theorem isrHandler_pics (hlo : 32 ≤ v) (hhi : v < 48) (p : Pics) :
    isrHandler picKernel v p = .done (picSendEoi p (v - 32)) := by
  rw [isrHandler, if_neg (by omega), if_pos hhi]
  rfl

/-! ## Every run -/

/-- Nothing is in service between the handlers, and one interrupt during each. -/
structure Irqs.Sound (s : Irqs) : Prop where
  outside : s.handling = none → s.pics.Idle
  inside : ∀ v, s.handling = some v → s.interrupts = false ∧ s.pics.Busy v

theorem Irqs.Sound.no_handler (h : s.Sound) (hflag : s.interrupts = true) :
    s.handling = none := by
  cases hhandling : s.handling with
  | none => rfl
  | some v =>
      have hmasked := (h.inside v hhandling).1
      rw [hflag] at hmasked
      cases hmasked

theorem Irqs.Sound.step (h : s.Sound) (hstep : s.Step s') : s'.Sound := by
  cases hstep with
  | device i b =>
      exact ⟨fun hout ↦ (h.outside hout).setRequest i b,
        fun v hin ↦ ⟨(h.inside v hin).1, (h.inside v hin).2.setRequest i b⟩⟩
  | flag b hout =>
      refine ⟨h.outside, fun v hin ↦ ?_⟩
      cases hout.symm.trans hin
  | accept gone hflag =>
      constructor
      · intro hno
        cases hno
      · intro v hin
        cases hin
        exact ⟨rfl, (h.outside (h.no_handler hflag)).acknowledge_busy gone⟩
  | finish hin hrun =>
      obtain ⟨-, hbusy⟩ := h.inside _ hin
      rw [isrHandler_pics hbusy.lower hbusy.upper] at hrun
      cases hrun
      constructor
      · exact fun _ ↦ hbusy.sendEoi
      · intro v hin
        cases hin

theorem Irqs.Reachable.sound (hrun : s.Reachable) : s.Sound := by
  induction hrun with
  | boot p =>
      constructor
      · exact fun _ ↦ picInit_idle p
      · intro v hin
        cases hin
  | step _ hstep ih => exact ih.step hstep

/-! ## Requests are served in order -/

/-- The place of a line: the lines of the slave come in place of line 2. -/
def place (i : ℕ) : ℕ := if i < 2 then i else if 8 ≤ i then i - 6 else i + 7

/-- One interrupt, with the end that its handler makes of it: the vector, and the controllers
afterwards. -/
def serve (p : Pics) : ℕ × Pics :=
  ((p.acknowledge false).1, picSendEoi (p.acknowledge false).2 ((p.acknowledge false).1 - 32))

/-- The lines with a request. -/
def Pics.waiting (p : Pics) : List ℕ := (List.range 16).filter fun i ↦ p.request i && i != 2

theorem Pics.mem_waiting : i ∈ p.waiting ↔ i < 16 ∧ p.request i = true ∧ i ≠ 2 := by
  simp [Pics.waiting]

/-- Line 2 has no device. -/
theorem Pics.waiting_length (p : Pics) : p.waiting.length ≤ 15 := by
  have hsplit : p.waiting = ((List.range 16).filter (· != 2)).filter p.request :=
    (List.filter_filter ..).symm
  rw [hsplit]
  exact (List.length_filter_le _ _).trans (by decide)

theorem Pics.Idle.serve (h : p.Idle) : (serve p).2.Idle :=
  (h.acknowledge_busy false).sendEoi

/-- `pic_send_eoi` leaves the requests. -/
theorem picSendEoi_request (p : Pics) (irq i : ℕ) :
    (picSendEoi p irq).request i = p.request i := by
  have hirr : ∀ c : Chip, (c.command 0x20).irr = c.irr := fun c ↦ by rw [Chip.command_eoi]
  by_cases hirq : irq < 8
  · rw [picSendEoi_low p hirq, Pics.request, Pics.request, hirr]
  · rw [picSendEoi_high p (by omega), Pics.request, Pics.request, hirr, hirr]

/-- The inputs of the master. -/
theorem Pics.Idle.inputs_of_request (h : p.Idle) (hi : i < 16) (hne : i ≠ 2)
    (hreq : p.request i = true) : p.inputs (if i < 8 then i else 2) = true := by
  rw [Pics.request] at hreq
  split_ifs at hreq ⊢ with hlow
  · rwa [Pics.inputs, if_neg hne]
  · rw [Pics.inputs, if_pos rfl, Chip.present_idle h.slave h.slave_idle]
    by_contra hnone
    rw [Bool.not_eq_true, Option.isSome_eq_false_iff, Option.isNone_iff_eq_none] at hnone
    rw [firstSet_eq_none.mp hnone (i - 8) (by omega)] at hreq
    cases hreq

theorem Pics.request_take_master (p : Pics) (i k : ℕ) (hi : i < 8) :
    ({ p with master := p.master.take i } : Pics).request k = (p.request k && decide (k ≠ i)) := by
  simp only [Pics.request, Chip.take, Function.update_apply]
  split_ifs with hlow hki
  · simp [hki]
  · simp [hki]
  · have hne : k ≠ i := by omega
    simp [hne]

/-- Of the waiting lines the one with the first place is taken next, and only its request goes. -/
theorem Pics.Idle.serve_spec (h : p.Idle) (hi : i ∈ p.waiting) :
    ∃ j ∈ p.waiting, (Interrupts.serve p).1 = 32 + j ∧ (∀ k ∈ p.waiting, place j ≤ place k) ∧
      ∀ k, k ≠ 2 → (Interrupts.serve p).2.request k = (p.request k && decide (k ≠ j)) := by
  have hinput : ∀ k ∈ p.waiting, p.inputs (if k < 8 then k else 2) = true := by
    intro k hk
    obtain ⟨hk16, hreq, hne⟩ := Pics.mem_waiting.mp hk
    exact h.inputs_of_request hk16 hne hreq
  rcases h.acknowledge_cases false with ⟨-, hnone⟩ | ⟨j, hj, hne, heq, hset, hbefore⟩ |
    ⟨j, hj, hset, hjbefore, hbefore, heq⟩
  · have hno := hnone (if i < 8 then i else 2) (by split <;> omega)
    rw [hinput i hi] at hno
    cases hno
  · have hreq : p.request j = true := by rwa [Pics.request, if_pos hj]
    refine ⟨j, Pics.mem_waiting.mpr ⟨by omega, hreq, hne⟩, ?_, fun k hk ↦ ?_, fun k _ ↦ ?_⟩
    · rw [Interrupts.serve, heq]
    · -- a better place would be an input before line `j`
      have hnot : ¬(if k < 8 then k else 2) < j := by
        intro hlt
        have hno := hbefore _ hlt
        rw [hinput k hk] at hno
        cases hno
      obtain ⟨hk16, -, hkne⟩ := Pics.mem_waiting.mp hk
      simp only [place]
      split_ifs at hnot ⊢ <;> omega
    · rw [Interrupts.serve, picSendEoi_request, heq]
      exact p.request_take_master j k hj
  · have hreq : p.request (8 + j) = true := by
      rwa [Pics.request, if_neg (by omega), Nat.add_sub_cancel_left]
    refine ⟨8 + j, Pics.mem_waiting.mpr ⟨by omega, hreq, by omega⟩, ?_, fun k hk ↦ ?_,
      fun k hk ↦ ?_⟩
    · rw [Interrupts.serve, heq]
      exact (by omega : 40 + j = 32 + (8 + j))
    · obtain ⟨hk16, hkreq, hkne⟩ := Pics.mem_waiting.mp hk
      have hnot : ¬(if k < 8 then k else 2) < 2 := by
        intro hlt
        have hno := hbefore _ hlt
        rw [hinput k hk] at hno
        cases hno
      have hslave : 8 ≤ k → j ≤ k - 8 := by
        intro hk8
        by_contra hlt
        rw [Pics.request, if_neg (by omega), hjbefore (k - 8) (by omega)] at hkreq
        cases hkreq
      simp only [place]
      split_ifs at hnot ⊢ <;> omega
    · rw [Interrupts.serve, picSendEoi_request, heq]
      simp only [Bool.false_eq_true, if_false, Pics.request, Chip.take, Function.update_apply]
      split_ifs with hlow hkj
      · have hne : k ≠ 8 + j := by omega
        simp [hne]
      · have heq : k = 8 + j := by omega
        simp [heq]
      · have hne : k ≠ 8 + j := by omega
        simp [hne]

theorem Pics.Idle.waiting_serve (h : p.Idle) (hi : i ∈ p.waiting) :
    ∃ j ∈ p.waiting, (Interrupts.serve p).1 = 32 + j ∧ (∀ k ∈ p.waiting, place j ≤ place k) ∧
      (Interrupts.serve p).2.waiting = p.waiting.filter fun k ↦ decide (k ≠ j) := by
  obtain ⟨j, hj, hvector, hplace, hrequest⟩ := h.serve_spec hi
  refine ⟨j, hj, hvector, hplace, ?_⟩
  rw [Pics.waiting, Pics.waiting, List.filter_filter]
  refine List.filter_congr fun k _ ↦ ?_
  by_cases hk : k = 2
  · simp [hk]
  · rw [hrequest k hk, Bool.and_right_comm, Bool.and_comm]

/-- A line with a request is taken after the other waiting lines at the latest. -/
theorem Pics.Idle.taken (h : p.Idle) (hi : i ∈ p.waiting) :
    ∃ n < p.waiting.length,
      (Interrupts.serve ((fun p ↦ (Interrupts.serve p).2)^[n] p)).1 = 32 + i := by
  induction hlen : p.waiting.length using Nat.strong_induction_on generalizing p with
  | _ len ih =>
      obtain ⟨j, hj, hvector, -, hwaiting⟩ := h.waiting_serve hi
      by_cases hij : i = j
      · exact ⟨0, hlen ▸ List.length_pos_of_mem hi, by rw [hij]; exact hvector⟩
      · have hshort : (Interrupts.serve p).2.waiting.length < len := by
          rw [hwaiting, ← hlen]
          exact List.length_filter_lt_length_iff_exists.mpr ⟨j, hj, by simp⟩
        have hmem : i ∈ (Interrupts.serve p).2.waiting := by
          rw [hwaiting]
          exact List.mem_filter.mpr ⟨hi, by simpa using hij⟩
        obtain ⟨n, hn, htaken⟩ := ih _ hshort h.serve hmem rfl
        exact ⟨n + 1, by omega, htaken⟩

/-! ## How long a request waits -/

/-- The waiting lines with a place before that of line `i`. -/
def Pics.front (p : Pics) (i : ℕ) : List ℕ := p.waiting.filter fun k ↦ decide (place k < place i)

/-- A run in which line `i` keeps its request: `n` other interrupts are taken.  Meanwhile lines
with a place before it ask, and requests go that the master has already passed on, `m` times
altogether. -/
inductive Irqs.Waits (i : ℕ) (s : Irqs) : ℕ → ℕ → Irqs → Prop
  | refl : Waits i s 0 0 s
  | device {s' : Irqs} {n m : ℕ} (h : Waits i s n m s') (k : ℕ) (b : Bool)
      (hkeep : k = i → b = true) :
      Waits i s n (if b = true ∧ place k < place i then m + 1 else m)
        { s' with pics := s'.pics.setRequest k b }
  | flag {s' : Irqs} {n m : ℕ} (h : Waits i s n m s') (b : Bool) (hout : s'.handling = none) :
      Waits i s n m { s' with interrupts := b }
  | accept {s' : Irqs} {n m : ℕ} (h : Waits i s n m s') (gone : Bool)
      (hflag : s'.interrupts = true)
      (hkeep : (s'.pics.acknowledge gone).2.request i = true) :
      Waits i s (n + 1) (if gone = true then m + 1 else m)
        ⟨(s'.pics.acknowledge gone).2, false, some (s'.pics.acknowledge gone).1⟩
  | finish {s' : Irqs} {n m v : ℕ} {p : Pics} (h : Waits i s n m s')
      (hin : s'.handling = some v) (hrun : isrHandler picKernel v s'.pics = .done p) :
      Waits i s n m { s' with pics := p, handling := none }

theorem Pics.mem_front :
    j ∈ p.front i ↔ j < 16 ∧ p.request j = true ∧ j ≠ 2 ∧ place j < place i := by
  rw [Pics.front, List.mem_filter, Pics.mem_waiting, decide_eq_true_eq, and_assoc, and_assoc]

theorem Pics.nodup_front (p : Pics) (i : ℕ) : (p.front i).Nodup :=
  (List.nodup_range.filter _).filter _

/-- All lines but 2 and `i` can have a place before that of `i`. -/
theorem Pics.front_length (p : Pics) (hi : i < 16) : (p.front i).length ≤ 14 := by
  have hsub : p.front i ⊆ (List.range 16).filter fun k ↦ k != 2 && decide (place k < place i) := by
    intro k hk
    obtain ⟨hk16, -, hne, hplace⟩ := Pics.mem_front.mp hk
    simp [hk16, hne, hplace]
  have hall : ∀ i < 16,
      ((List.range 16).filter fun k ↦ k != 2 && decide (place k < place i)).length ≤ 14 := by
    decide
  exact (List.subperm_of_subset (p.nodup_front i) hsub).length_le.trans (hall i hi)

/-- Two devices have two places. -/
theorem eq_of_place_eq (hi : i < 16) (hj : j < 16) (hi₂ : i ≠ 2) (hj₂ : j ≠ 2)
    (h : place i = place j) : i = j := by
  simp only [place] at h
  split_ifs at h <;> omega

theorem Pics.front_length_le {q : Pics} (h : ∀ k, k ≠ 2 → q.request k = true → p.request k = true) :
    (q.front i).length ≤ (p.front i).length := by
  refine (List.subperm_of_subset (q.nodup_front i) fun k hk ↦ ?_).length_le
  obtain ⟨hk16, hreq, hne, hplace⟩ := Pics.mem_front.mp hk
  exact Pics.mem_front.mpr ⟨hk16, h k hne hreq, hne, hplace⟩

theorem Pics.request_setRequest (p : Pics) (k : ℕ) (b : Bool) (hj : j ≠ k) :
    (p.setRequest k b).request j = p.request j := by
  rw [Pics.setRequest, Pics.request, Pics.request]
  split_ifs with hk hlow hlow
  · exact Function.update_of_ne hj _ _
  · rfl
  · rfl
  · exact Function.update_of_ne (by omega) _ _

theorem Pics.request_setRequest_self (p : Pics) (k : ℕ) (b : Bool) :
    (p.setRequest k b).request k = b := by
  rw [Pics.setRequest, Pics.request]
  split_ifs with hk
  · exact Function.update_self _ _ _
  · exact Function.update_self _ _ _

/-- A request of a device puts at most its own line in front of another. -/
theorem Pics.front_setRequest (p : Pics) (i k : ℕ) (b : Bool) :
    ((p.setRequest k b).front i).length ≤
      (p.front i).length + if b = true ∧ place k < place i then 1 else 0 := by
  split_ifs with hfront
  · have hsub : (p.setRequest k b).front i ⊆ k :: p.front i := by
      intro j hj
      obtain ⟨hj16, hreq, hne, hplace⟩ := Pics.mem_front.mp hj
      by_cases hjk : j = k
      · exact hjk ▸ List.mem_cons_self
      · rw [p.request_setRequest k b hjk] at hreq
        exact List.mem_cons_of_mem k (Pics.mem_front.mpr ⟨hj16, hreq, hne, hplace⟩)
    exact (List.subperm_of_subset (Pics.nodup_front _ i) hsub).length_le
  · refine (List.subperm_of_subset (Pics.nodup_front _ i) fun j hj ↦ ?_).length_le
    obtain ⟨hj16, hreq, hne, hplace⟩ := Pics.mem_front.mp hj
    refine Pics.mem_front.mpr ⟨hj16, ?_, hne, hplace⟩
    by_cases hjk : j = k
    · subst hjk
      rw [p.request_setRequest_self] at hreq
      exact absurd ⟨hreq, hplace⟩ hfront
    · rwa [p.request_setRequest k b hjk] at hreq

/-- An interrupt makes no request. -/
theorem Pics.Idle.request_of_acknowledge (h : p.Idle) {gone : Bool} {k : ℕ} (hk : k ≠ 2)
    (hreq : (p.acknowledge gone).2.request k = true) : p.request k = true := by
  rcases h.acknowledge_cases gone with ⟨heq, -⟩ | ⟨j, hj, -, heq, -⟩ | ⟨j, -, -, -, -, heq⟩
  · rwa [heq] at hreq
  · rw [heq, p.request_take_master j k hj] at hreq
    exact (Bool.and_eq_true_iff.mp hreq).1
  · rw [heq] at hreq
    cases gone with
    | true =>
        rw [if_pos rfl, p.request_take_master 2 k (by norm_num)] at hreq
        exact (Bool.and_eq_true_iff.mp hreq).1
    | false =>
        simp only [Bool.false_eq_true, if_false, Pics.request, Chip.take,
          Function.update_apply] at hreq ⊢
        split_ifs at hreq ⊢ with hlow
        · exact hreq
        · exact hreq

/-- An interrupt that leaves the request of line `i` takes one from a line in front. -/
theorem Pics.Idle.front_acknowledge (h : p.Idle) (hi : i < 16) (hne : i ≠ 2)
    (hreq : p.request i = true) (hkeep : (p.acknowledge false).2.request i = true) :
    ((p.acknowledge false).2.front i).length + 1 ≤ (p.front i).length := by
  obtain ⟨j, hj, -, hplace, hrequest⟩ :=
    h.serve_spec (Pics.mem_waiting.mpr ⟨hi, hreq, hne⟩)
  have hafter : ∀ k, k ≠ 2 →
      (p.acknowledge false).2.request k = (p.request k && decide (k ≠ j)) := by
    intro k hk
    rw [← hrequest k hk, Interrupts.serve, picSendEoi_request]
  obtain ⟨hj16, hjreq, hj₂⟩ := Pics.mem_waiting.mp hj
  have hij : i ≠ j := by
    rintro rfl
    rw [hafter i hne, decide_eq_false (not_not.mpr rfl), Bool.and_false] at hkeep
    cases hkeep
  have hlt : place j < place i := by
    refine lt_of_le_of_ne (hplace i (Pics.mem_waiting.mpr ⟨hi, hreq, hne⟩)) fun heq ↦ ?_
    exact hij (eq_of_place_eq hi hj16 hne hj₂ heq.symm)
  have hnotMem : j ∉ (p.acknowledge false).2.front i := by
    intro hmem
    obtain ⟨-, hagain, -⟩ := Pics.mem_front.mp hmem
    rw [hafter j hj₂, decide_eq_false (not_not.mpr rfl), Bool.and_false] at hagain
    cases hagain
  have hsub : j :: (p.acknowledge false).2.front i ⊆ p.front i := by
    rw [List.cons_subset]
    refine ⟨Pics.mem_front.mpr ⟨hj16, hjreq, hj₂, hlt⟩, fun k hk ↦ ?_⟩
    obtain ⟨hk16, hkreq, hk₂, hkplace⟩ := Pics.mem_front.mp hk
    exact Pics.mem_front.mpr ⟨hk16, h.request_of_acknowledge hk₂ hkreq, hk₂, hkplace⟩
  exact (List.subperm_of_subset (List.nodup_cons.mpr ⟨hnotMem, Pics.nodup_front _ i⟩)
    hsub).length_le

/-- While a line waits, the interrupts taken and the lines still in front of it are no more than
the lines in front at the beginning and those that have come. -/
theorem Irqs.Waits.front_le {n m : ℕ} (h : s.Waits i n m s') (hs : s.Sound) (hi : i < 16)
    (hne : i ≠ 2) (hreq : s.pics.request i = true) :
    s'.Sound ∧ s'.pics.request i = true ∧
      n + (s'.pics.front i).length ≤ (s.pics.front i).length + m := by
  induction h with
  | refl => exact ⟨hs, hreq, by omega⟩
  | @device w n m _ k b hkeep ih =>
      obtain ⟨hsound, hreq', hle⟩ := ih
      refine ⟨hsound.step (.device k b), ?_, ?_⟩
      · by_cases hik : i = k
        · subst hik
          exact (Pics.request_setRequest_self _ i b).trans (hkeep rfl)
        · exact (Pics.request_setRequest _ k b hik).trans hreq'
      · have hfront := w.pics.front_setRequest i k b
        dsimp only
        split_ifs at hfront ⊢ <;> omega
  | flag _ b hout ih =>
      obtain ⟨hsound, hreq', hle⟩ := ih
      exact ⟨hsound.step (.flag b hout), hreq', hle⟩
  | @accept w n m _ gone hflag hkeep ih =>
      obtain ⟨hsound, hreq', hle⟩ := ih
      have hidle := hsound.outside (hsound.no_handler hflag)
      refine ⟨hsound.step (.accept gone hflag), hkeep, ?_⟩
      cases gone with
      | true =>
          have hfront : ((w.pics.acknowledge true).2.front i).length ≤ (w.pics.front i).length :=
            Pics.front_length_le fun k hk ↦ hidle.request_of_acknowledge hk
          simp only [if_true]
          omega
      | false =>
          have hfront := hidle.front_acknowledge hi hne hreq' hkeep
          simp only [Bool.false_eq_true, if_false]
          omega
  | @finish w n m v p _ hin hrun ih =>
      obtain ⟨hsound, hreq', hle⟩ := ih
      obtain ⟨-, hbusy⟩ := hsound.inside _ hin
      have hstep := hsound.step (.finish hin hrun)
      rw [isrHandler_pics hbusy.lower hbusy.upper] at hrun
      cases hrun
      have hfront : ((picSendEoi w.pics (v - 32)).front i).length ≤ (w.pics.front i).length :=
        Pics.front_length_le fun k _ hk ↦ (picSendEoi_request w.pics (v - 32) k).symm.trans hk
      refine ⟨hstep, (picSendEoi_request _ _ i).trans hreq', ?_⟩
      dsimp only
      omega

/-- From `pic_init` on, whatever the devices do and however tasks set the flag: nothing is in
service when interrupts are enabled; the vectors are 32 to 47, and the handler of each returns with
nothing in service; between the handlers the waiting line with the first place is taken next.  If
the devices ask for nothing more, each waiting line is taken after at most fourteen others.  In any
run, those taken before it are no more than the lines in front of it, at most fourteen, and those
that come in front of it meanwhile. -/
theorem requests_served (hrun : s.Reachable) :
    (s.interrupts = true → ∀ i < 8, s.pics.master.isr i = false ∧ s.pics.slave.isr i = false) ∧
    (∀ v, s.handling = some v → 32 ≤ v ∧ v < 48 ∧ s.interrupts = false ∧
      ∃ p, isrHandler picKernel v s.pics = .done p ∧
        ∀ i < 8, p.master.isr i = false ∧ p.slave.isr i = false) ∧
    ∀ i < 16, i ≠ 2 → s.pics.request i = true →
      (s.handling = none →
        (∃ j ∈ s.pics.waiting, (serve s.pics).1 = 32 + j ∧
          ∀ k ∈ s.pics.waiting, place j ≤ place k) ∧
        ∃ n < 15, (serve ((fun p ↦ (serve p).2)^[n] s.pics)).1 = 32 + i) ∧
      (s.pics.front i).length ≤ 14 ∧
      ∀ n m s', s.Waits i n m s' → n ≤ (s.pics.front i).length + m := by
  have hsound := hrun.sound
  refine ⟨fun hflag i hi ↦ ?_, fun v hin ↦ ?_, fun i hi hne hreq ↦ ⟨fun hout ↦ ?_, ?_, ?_⟩⟩
  · have hidle := hsound.outside (hsound.no_handler hflag)
    exact ⟨hidle.master_idle i hi, hidle.slave_idle i hi⟩
  · obtain ⟨hmasked, hbusy⟩ := hsound.inside v hin
    exact ⟨hbusy.lower, hbusy.upper, hmasked, _, isrHandler_pics hbusy.lower hbusy.upper _,
      fun i hi ↦ ⟨hbusy.sendEoi.master_idle i hi, hbusy.sendEoi.slave_idle i hi⟩⟩
  · have hmem := Pics.mem_waiting.mpr ⟨hi, hreq, hne⟩
    obtain ⟨j, hj, hvector, hplace, -⟩ := (hsound.outside hout).waiting_serve hmem
    refine ⟨⟨j, hj, hvector, hplace⟩, ?_⟩
    obtain ⟨n, hn, htaken⟩ := (hsound.outside hout).taken hmem
    exact ⟨n, hn.trans_le s.pics.waiting_length, htaken⟩
  · exact s.pics.front_length hi
  · intro n m s' hwaits
    obtain ⟨-, -, hle⟩ := hwaits.front_le hsound hi hne hreq
    omega

def coldChip : Chip where
  irr := fun _ ↦ false
  isr := fun _ ↦ false
  imr := fun _ ↦ false
  offset := 0
  wiring := 0
  autoEoi := false
  single := false
  needIcw4 := false
  waits := 0

/-- The keyboard and the disk have made requests. -/
def twoRequests : Irqs :=
  ⟨((picInit ⟨coldChip, coldChip⟩).setRequest 1 true).setRequest 14 true, true, none⟩

/-- The disk waits while the keyboard is served and then the timer, which asks meanwhile; no third
line can come before it. -/
theorem requests_served_disk : twoRequests.Reachable ∧ (serve twoRequests.pics).1 = 33 ∧
    (∃ n < 15, (serve ((fun p ↦ (serve p).2)^[n] twoRequests.pics)).1 = 46) ∧
    (∃ s', twoRequests.Waits 14 2 1 s' ∧ s'.handling = some 32) ∧
    ∀ n m s', twoRequests.Waits 14 n m s' → n ≤ 1 + m := by
  have hboot := Irqs.Reachable.boot ⟨coldChip, coldChip⟩
  have hrun : twoRequests.Reachable :=
    ((hboot.step (.device 1 true)).step (.device 14 true)).step (.flag true rfl)
  obtain ⟨hserved, -, hwaits⟩ :=
    (requests_served hrun).2.2 14 (by norm_num) (by norm_num) (by decide)
  have hkeyboard : twoRequests.Waits 14 1 0 _ := .accept .refl false rfl (by decide)
  have hended := hkeyboard.finish rfl rfl
  have htimer := ((hended.device 0 true (by decide)).flag true rfl).accept false rfl (by decide)
  exact ⟨hrun, by decide, (hserved rfl).2, ⟨_, htimer, by decide⟩, hwaits⟩

end MyOS.Interrupts
