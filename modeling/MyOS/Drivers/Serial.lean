import MyOS.Drivers.Print

/-!
# The serial line

`serial_init` programs the UART behind the ports from `0x3F8` on, and `serial_putc` waits until its
transmitter is empty before it writes a byte, with a carriage return before each line feed.  The
UART is modelled with its registers, its queue and the bytes that have left it, each with the
divisor and the line control at that moment.  How many bytes leave the queue between two looks at
the line status, and the other bits of that register, are parameters.

What is printed on the console leaves the UART as a text from which it can be read off again, in
order and with nothing lost, however slow the line is as long as it never stops for good.
-/

namespace MyOS

/-! ## The UART -/

/-- A byte on the line, with the divisor of its rate and its format. -/
structure Frame where
  divisor : ℕ
  lcr : UInt8
  byte : UInt8
  deriving DecidableEq

structure Uart where
  dll : UInt8
  dlm : UInt8
  lcr : UInt8
  ier : UInt8
  mcr : UInt8
  /-- The transmitter has a queue of sixteen bytes, and of one otherwise. -/
  fifo : Bool
  queue : List UInt8
  line : List Frame
  /-- The bytes written to a full queue. -/
  lost : List UInt8
  polls : ℕ
  /-- How many bytes have left the queue at a look at the status, since the one before. -/
  speed : ℕ → ℕ
  /-- The bits of the status that are not about the transmitter. -/
  status : ℕ → UInt8

namespace Uart

variable (u : Uart)

def divisor : ℕ := u.dll.toNat + 256 * u.dlm.toNat

def dlab : Bool := u.lcr &&& 0x80 != 0

def capacity : ℕ := if u.fifo then 16 else 1

def frame (b : UInt8) : Frame := ⟨u.divisor, u.lcr, b⟩

def transmit (b : UInt8) : Uart :=
  if u.queue.length < u.capacity then { u with queue := u.queue ++ [b] }
  else { u with lost := u.lost ++ [b] }

def outb (port : ℕ) (v : UInt8) : Uart :=
  if port = 0x3F8 then (if u.dlab then { u with dll := v } else u.transmit v)
  else if port = 0x3F9 then (if u.dlab then { u with dlm := v } else { u with ier := v })
  else if port = 0x3FA then
    { u with
      fifo := v &&& 0x01 != 0
      queue := if v &&& 0x04 != 0 then [] else u.queue }
  else if port = 0x3FB then { u with lcr := v }
  else if port = 0x3FC then { u with mcr := v }
  else u

/-- The bytes that have left the queue by now. -/
def drain : Uart :=
  { u with
    queue := u.queue.drop (u.speed u.polls)
    line := u.line ++ (u.queue.take (u.speed u.polls)).map u.frame
    polls := u.polls + 1 }

/-- `inb(COM1_LSR)` -/
def readLsr : UInt8 × Uart :=
  (u.status u.polls &&& 0x9F ||| (if u.drain.queue.isEmpty then 0x60 else 0), u.drain)

end Uart

/-! ## The code -/

structure Serial where
  uart : Uart
  gInitialized : Bool

namespace Serial

def com1Data : ℕ := 0x3F8

def com1Ier : ℕ := 0x3F8 + 1

def com1Dll : ℕ := 0x3F8 + 0

def com1Dlm : ℕ := 0x3F8 + 1

def com1Fcr : ℕ := 0x3F8 + 2

def com1Lcr : ℕ := 0x3F8 + 3

def com1Mcr : ℕ := 0x3F8 + 4

def lsrThrEmpty : UInt8 := 0x20

def serialInit (s : Serial) : Serial :=
  let u := s.uart.outb com1Ier 0x00
  let u := u.outb com1Lcr 0x80
  let u := u.outb com1Dll 0x01
  let u := u.outb com1Dlm 0x00
  let u := u.outb com1Lcr 0x03
  let u := u.outb com1Fcr 0xC7
  let u := u.outb com1Mcr 0x0B
  { uart := u, gInitialized := true }

def waitTxEmpty : ℕ → Uart → Outcome Uart
  | 0, _ => .spin
  | fuel + 1, u =>
      if u.readLsr.1 &&& lsrThrEmpty = 0 then waitTxEmpty fuel u.readLsr.2 else .done u.readLsr.2

/-- Wait and write one byte. -/
def sendByte (fuel : ℕ) (u : Uart) (b : UInt8) : Outcome Uart := do
  let u ← waitTxEmpty fuel u
  return u.outb com1Data b

def serialPutc (fuel : ℕ) (s : Serial) (c : UInt8) : Outcome Serial :=
  if s.gInitialized = false then .done s
  else do
    let u ← if c = Screen.newline then sendByte fuel s.uart Screen.carriageReturn else .done s.uart
    let u ← sendByte fuel u c
    return { s with uart := u }

/-! ## Texts on the line -/

/-- What goes over the line for a character. -/
def charBytes (c : UInt8) : List UInt8 :=
  if c = Screen.newline then [Screen.carriageReturn, Screen.newline] else [c]

/-- What goes over the line for a text. -/
def wire (text : List UInt8) : List UInt8 := text.flatMap charBytes

/-- The reader at the other end drops the carriage return before each line feed. -/
def unwire : List UInt8 → List UInt8
  | [] => []
  | [b] => [b]
  | a :: b :: rest =>
      if a = Screen.carriageReturn ∧ b = Screen.newline then Screen.newline :: unwire rest
      else a :: unwire (b :: rest)

theorem wire_cons (c : UInt8) (text : List UInt8) : wire (c :: text) = charBytes c ++ wire text :=
  List.flatMap_cons

/-- No line feed comes without its carriage return. -/
theorem ne_newline_of_wire {b : UInt8} {text rest : List UInt8} (h : wire text = b :: rest) :
    b ≠ Screen.newline := by
  cases text with
  | nil => cases h
  | cons c text =>
      rw [wire_cons, charBytes] at h
      split_ifs at h with hc
      · rw [← (List.cons.inj h).1]
        decide
      · rwa [← (List.cons.inj h).1]

/-- Every text can be read off the line again, also one with carriage returns of its own. -/
theorem unwire_wire (text : List UInt8) : unwire (wire text) = text := by
  induction text with
  | nil => rfl
  | cons c text ih =>
      rw [wire_cons, charBytes]
      split_ifs with hc
      · rw [List.cons_append, List.cons_append, List.nil_append, unwire, if_pos ⟨rfl, rfl⟩, ih, hc]
      · rw [List.singleton_append]
        cases hwire : wire text with
        | nil =>
            rw [hwire] at ih
            rw [← ih]
            rfl
        | cons b rest =>
            have hb := ne_newline_of_wire hwire
            rw [unwire, if_neg fun hboth ↦ hb hboth.2, ← hwire, ih]

/-! ## The UART in use -/

end Serial

namespace Uart

variable {u v : Uart} {b : UInt8}

/-- What has left the queue or will leave it. -/
def sent (u : Uart) : List Frame := u.line ++ u.queue.map u.frame

/-- The UART as `serial_init` leaves it: 115200 baud, eight bits, no parity, one stop bit, with a
queue, into which `serial_putc` puts one byte at a time. -/
structure Configured (u : Uart) : Prop where
  dll : u.dll = 1
  dlm : u.dlm = 0
  lcr : u.lcr = 3
  fifo : u.fifo = true
  room : u.queue.length ≤ 1

/-- The line never stops for good: after any number of looks at the status comes one at which a
byte has left the queue. -/
def Drains (u : Uart) : Prop := ∀ k, ∃ i, 0 < u.speed (k + i)

/-- Only the transmitter has worked between `u` and `v`. -/
structure Sends (u v : Uart) (frames : List Frame) : Prop where
  sent : v.sent = u.sent ++ frames
  lost : v.lost = u.lost
  speed : v.speed = u.speed

theorem Sends.trans {w : Uart} {f g : List Frame} (h : Sends u v f) (h' : Sends v w g) :
    Sends u w (f ++ g) where
  sent := by rw [h'.sent, h.sent, List.append_assoc]
  lost := h'.lost.trans h.lost
  speed := h'.speed.trans h.speed

theorem drain_sent (u : Uart) : u.drain.sent = u.sent := by
  have hframe : u.drain.frame = u.frame := rfl
  rw [sent, sent, hframe]
  simp only [drain]
  rw [List.append_assoc, ← List.map_append, List.take_append_drop]

theorem Configured.drain (h : u.Configured) : u.drain.Configured :=
  ⟨h.dll, h.dlm, h.lcr, h.fifo, (List.drop_sublist _ _).length_le.trans h.room⟩

/-- The bit that `wait_tx_empty` tests. -/
theorem readLsr_bit (u : Uart) :
    u.readLsr.1 &&& Serial.lsrThrEmpty = 0 ↔ u.drain.queue ≠ [] := by
  have hbits : ∀ x : UInt8, (x &&& 0x9F ||| 0x60) &&& Serial.lsrThrEmpty ≠ 0 ∧
      (x &&& 0x9F ||| 0) &&& Serial.lsrThrEmpty = 0 := Bytes.forall_byte (by decide +kernel)
  rw [readLsr]
  cases hqueue : u.drain.queue with
  | nil => simpa using (hbits (u.status u.polls)).1
  | cons b rest => simpa using (hbits (u.status u.polls)).2

theorem drain_sends (u : Uart) : Sends u u.drain [] :=
  ⟨by rw [drain_sent, List.append_nil], rfl, rfl⟩

theorem waitTxEmpty_empty (hempty : u.drain.queue = []) {fuel : ℕ} (hfuel : 0 < fuel) :
    Serial.waitTxEmpty fuel u = .done u.drain := by
  obtain ⟨fuel, rfl⟩ := Nat.exists_eq_add_one.mpr hfuel
  rw [Serial.waitTxEmpty, if_neg fun hbit ↦ u.readLsr_bit.mp hbit hempty]
  rfl

/-- The wait ends at the latest when a byte has left. -/
theorem waitTxEmpty_spec (h : u.Configured) {i : ℕ} (hspeed : 0 < u.speed (u.polls + i)) :
    ∃ v, (∀ fuel > i, Serial.waitTxEmpty fuel u = .done v) ∧ v.queue = [] ∧ v.Configured ∧
      Sends u v [] := by
  induction i generalizing u with
  | zero =>
      -- the one byte that may be in the queue has left at this look
      have hempty : u.drain.queue = [] := List.drop_eq_nil_of_le (h.room.trans hspeed)
      exact ⟨u.drain, fun fuel hfuel ↦ waitTxEmpty_empty hempty hfuel, hempty, h.drain,
        u.drain_sends⟩
  | succ i ih =>
      by_cases hempty : u.drain.queue = []
      · exact ⟨u.drain, fun fuel hfuel ↦ waitTxEmpty_empty hempty (Nat.zero_lt_of_lt hfuel), hempty,
          h.drain, u.drain_sends⟩
      · have hpolls : u.drain.polls + i = u.polls + (i + 1) := by
          simp only [Uart.drain]
          omega
        obtain ⟨v, hrun, hqueue, hv, hsends⟩ := ih h.drain (by rw [hpolls]; exact hspeed)
        refine ⟨v, fun fuel hfuel ↦ ?_, hqueue, hv, u.drain_sends.trans hsends⟩
        obtain ⟨fuel, rfl⟩ := Nat.exists_eq_add_one.mpr (Nat.zero_lt_of_lt hfuel)
        rw [Serial.waitTxEmpty, if_pos (u.readLsr_bit.mpr hempty)]
        exact hrun fuel (by omega)

theorem sendByte_spec (h : u.Configured) (hdrain : u.Drains) (b : UInt8) :
    ∃ v enough, (∀ fuel ≥ enough, Serial.sendByte fuel u b = .done v) ∧ v.Configured ∧
      Sends u v [⟨1, 3, b⟩] := by
  obtain ⟨i, hspeed⟩ := hdrain u.polls
  obtain ⟨v, hrun, hqueue, hv, hsends⟩ := waitTxEmpty_spec h hspeed
  have hdlab : v.dlab = false := by
    rw [dlab, hv.lcr]
    decide
  have hroom : v.queue.length < v.capacity := by
    rw [hqueue, capacity, hv.fifo]
    decide
  have hout : v.outb Serial.com1Data b = { v with queue := [b] } := by
    have hport : Serial.com1Data = 0x3F8 := rfl
    rw [outb, if_pos hport, hdlab, if_neg Bool.false_ne_true, transmit, if_pos hroom, hqueue]
    rfl
  have hframe : v.frame b = ⟨1, 3, b⟩ := by
    rw [frame, divisor, hv.dll, hv.dlm, hv.lcr]
    rfl
  refine ⟨{ v with queue := [b] }, i + 1, fun fuel hfuel ↦ ?_,
    ⟨hv.dll, hv.dlm, hv.lcr, hv.fifo, by simp⟩, ?_⟩
  · rw [Serial.sendByte, hrun fuel hfuel, ← hout]
    rfl
  · refine ⟨?_, hsends.lost, hsends.speed⟩
    have hsent := hsends.sent
    rw [List.append_nil, sent, hqueue, List.map_nil, List.append_nil] at hsent
    rw [← hsent, ← hframe]
    rfl

end Uart

namespace Serial

variable {s t : Serial}

/-- `serial_init` sets the line up from whatever state the UART was in; only what was in the queue
is dropped. -/
theorem serialInit_spec (s : Serial) : (serialInit s).uart.Configured ∧
    (serialInit s).uart.sent = s.uart.line ∧ (serialInit s).uart.lost = s.uart.lost ∧
      (serialInit s).uart.speed = s.uart.speed := by
  -- the first write goes to the divisor if the latch bit happens to be set
  have hfirst : (s.uart.outb com1Ier 0x00).line = s.uart.line ∧
      (s.uart.outb com1Ier 0x00).lost = s.uart.lost ∧
        (s.uart.outb com1Ier 0x00).speed = s.uart.speed := by
    have hout : s.uart.outb com1Ier 0x00
        = if s.uart.dlab then { s.uart with dlm := 0 } else { s.uart with ier := 0 } := rfl
    rw [hout]
    split_ifs with hdlab
    · exact ⟨rfl, rfl, rfl⟩
    · exact ⟨rfl, rfl, rfl⟩
  have hinit : (serialInit s).uart = { s.uart.outb com1Ier 0x00 with
      dll := 1, dlm := 0, lcr := 3, fifo := true, queue := [], mcr := 0x0B } := by
    have hfcr : (0xC7 : UInt8) &&& 0x01 ≠ 0 ∧ (0xC7 : UInt8) &&& 0x04 ≠ 0 := by decide
    rw [serialInit]
    generalize s.uart.outb com1Ier 0x00 = u
    simp [Uart.outb, Uart.dlab, com1Lcr, com1Dll, com1Dlm, com1Fcr, com1Mcr, hfcr]
  rw [hinit]
  refine ⟨⟨rfl, rfl, rfl, rfl, Nat.zero_le _⟩, ?_, hfirst.2⟩
  exact (List.append_nil _).trans hfirst.1

/-- One character. -/
theorem serialPutc_spec (hready : s.gInitialized = true) (h : s.uart.Configured)
    (hdrain : s.uart.Drains) (c : UInt8) :
    ∃ t enough, (∀ fuel ≥ enough, serialPutc fuel s c = .done t) ∧ t.gInitialized = true ∧
      t.uart.Configured ∧ Uart.Sends s.uart t.uart ((charBytes c).map (Frame.mk 1 3)) := by
  have hon : ¬s.gInitialized = false := by simp [hready]
  rw [charBytes]
  split_ifs with hc
  · obtain ⟨u, n, hcr, hu, hsends⟩ := Uart.sendByte_spec h hdrain Screen.carriageReturn
    have hdrain' : u.Drains := by rwa [Uart.Drains, hsends.speed]
    obtain ⟨v, m, hlf, hv, hsends'⟩ := Uart.sendByte_spec hu hdrain' c
    refine ⟨{ s with uart := v }, max n m, fun fuel hfuel ↦ ?_, hready, hv, ?_⟩
    · rw [serialPutc, if_neg hon, if_pos hc, hcr fuel (by omega)]
      simp only [Outcome.done_bind, hlf fuel (by omega), Outcome.pure_eq_done]
    · rw [← hc]
      exact hsends.trans hsends'
  · obtain ⟨v, n, hrun, hv, hsends⟩ := Uart.sendByte_spec h hdrain c
    refine ⟨{ s with uart := v }, n, fun fuel hfuel ↦ ?_, hready, hv, hsends⟩
    rw [serialPutc, if_neg hon, if_neg hc]
    simp only [Outcome.done_bind, hrun fuel hfuel, Outcome.pure_eq_done]

end Serial

/-! ## The screen and the line -/

/-- What `kputchar_color` writes to. -/
structure Terminal where
  screen : Screen
  serial : Serial

namespace Terminal

variable {t : Terminal}

/-- `kputchar_color`, with the line to which it hands the character first. -/
def kputcharColor (fuel : ℕ) (t : Terminal) (c fg bg : UInt8) : Outcome Terminal := do
  let serial ← Serial.serialPutc fuel t.serial c
  let screen ← t.screen.kputcharColor c fg bg
  return { screen := screen, serial := serial }

/-- A text printed character by character. -/
def print (fuel : ℕ) : List Screen.Glyph → Terminal → Outcome Terminal
  | [], t => .done t
  | g :: text, t => t.kputcharColor fuel g.c g.fg g.bg >>= print fuel text

def serialInit (t : Terminal) : Terminal := { t with serial := Serial.serialInit t.serial }

/-- What is printed before `serial_init` is only on the screen. -/
theorem print_before (h : t.screen.OnScreen) (hoff : t.serial.gInitialized = false)
    (text : List Screen.Glyph) : ∃ s, (∀ fuel, t.print fuel text = .done { t with screen := s }) ∧
      Screen.print text t.screen = .done s ∧ s.OnScreen := by
  induction text generalizing t with
  | nil => exact ⟨t.screen, fun _ ↦ rfl, rfl, h⟩
  | cons g text ih =>
      obtain ⟨s, hput, hon, -⟩ := Screen.kputcharColor_place h g.c g.fg g.bg
      obtain ⟨s', hprint, hscreen, hon'⟩ := ih (t := { t with screen := s }) hon hoff
      refine ⟨s', fun fuel ↦ ?_, ?_, hon'⟩
      · rw [print, kputcharColor, Serial.serialPutc, if_pos hoff, hput]
        exact hprint fuel
      · rw [Screen.print, hput]
        exact hscreen

/-- What is printed once the line is set up is on both. -/
theorem print_after (h : t.screen.OnScreen) (hready : t.serial.gInitialized = true)
    (hconf : t.serial.uart.Configured) (hdrain : t.serial.uart.Drains)
    (text : List Screen.Glyph) : ∃ t' enough, (∀ fuel ≥ enough, t.print fuel text = .done t') ∧
      Screen.print text t.screen = .done t'.screen ∧
      Uart.Sends t.serial.uart t'.serial.uart
        ((Serial.wire (text.map Screen.Glyph.c)).map (Frame.mk 1 3)) := by
  induction text generalizing t with
  | nil => exact ⟨t, 0, fun _ _ ↦ rfl, rfl, (List.append_nil _).symm, rfl, rfl⟩
  | cons g text ih =>
      obtain ⟨s, hput, hon, -⟩ := Screen.kputcharColor_place h g.c g.fg g.bg
      obtain ⟨line, n, hc, hready', hconf', hsends⟩ :=
        Serial.serialPutc_spec hready hconf hdrain g.c
      have hdrain' : line.uart.Drains := by rwa [Uart.Drains, hsends.speed]
      obtain ⟨t', m, hprint, hscreen, hsends'⟩ := ih (t := ⟨s, line⟩) hon hready' hconf' hdrain'
      refine ⟨t', max n m, fun fuel hfuel ↦ ?_, ?_, ?_⟩
      · rw [print, kputcharColor, hc fuel (by omega), Outcome.done_bind, hput]
        exact hprint fuel (by omega)
      · rw [Screen.print, hput]
        exact hscreen
      · rw [List.map_cons, Serial.wire_cons, List.map_append]
        exact hsends.trans hsends'

/-- Whatever state the UART is found in and however slow the line is, if only it never stops for
good: all printing returns after enough looks at the status, the screen shows the whole text, and
what is printed after `serial_init` goes over the line at 115200 baud in eight bits without parity,
with nothing lost and in such a way that the text can be read off again. -/
theorem printed_on_line (h : t.screen.OnScreen) (hoff : t.serial.gInitialized = false)
    (hdrain : t.serial.uart.Drains) (early late : List Screen.Glyph) :
    ∃ t₁ t₂ : Terminal, ∃ frames : List Frame, ∃ enough,
      (∀ fuel ≥ enough, t.print fuel early = .done t₁ ∧
        t₁.serialInit.print fuel late = .done t₂) ∧
      Screen.print early t.screen = .done t₁.screen ∧
      Screen.print late t₁.screen = .done t₂.screen ∧
      t₂.serial.uart.sent = t.serial.uart.line ++ frames ∧
      t₂.serial.uart.lost = t.serial.uart.lost ∧
      (∀ f ∈ frames, f.divisor = 1 ∧ f.lcr = 3) ∧
      Serial.unwire (frames.map Frame.byte) = late.map Screen.Glyph.c := by
  obtain ⟨s, hearly, hscreen, hon⟩ := print_before h hoff early
  obtain ⟨hconf, hsent, hlost, hspeed⟩ := Serial.serialInit_spec t.serial
  have hdrain' : (Serial.serialInit t.serial).uart.Drains := by
    rwa [Uart.Drains, hspeed]
  obtain ⟨t₂, enough, hlate, hscreen', hsends⟩ :=
    print_after (t := ⟨s, Serial.serialInit t.serial⟩) hon rfl hconf hdrain' late
  refine ⟨{ t with screen := s }, t₂,
    (Serial.wire (late.map Screen.Glyph.c)).map (Frame.mk 1 3), enough,
    fun fuel hfuel ↦ ⟨hearly fuel, hlate fuel hfuel⟩, hscreen, hscreen',
    ?_, hsends.lost.trans hlost, ?_, ?_⟩
  · rw [hsends.sent, hsent]
  · intro f hf
    obtain ⟨b, -, rfl⟩ := List.mem_map.mp hf
    exact ⟨rfl, rfl⟩
  · rw [List.map_map]
    exact (congrArg Serial.unwire (List.map_id _)).trans (Serial.unwire_wire _)

/-- A UART left in the middle of setting its divisor, with two bytes of a loader still in its
queue, on a line that takes one byte at a time and gets slower and slower. -/
theorem printed_on_line_slow : ∃ t : Terminal, t.serial.uart.dlab = true ∧
    (∀ n, t.serial.uart.speed n ≤ 1) ∧
    ∃ t₁ t₂ : Terminal, ∃ frames : List Frame, ∃ enough,
      (∀ fuel ≥ enough, t.print fuel [⟨0x41, 7, 0⟩] = .done t₁ ∧
        t₁.serialInit.print fuel [⟨0x42, 7, 0⟩, ⟨Screen.newline, 7, 0⟩] = .done t₂) ∧
      t₂.serial.uart.sent = frames ∧
      Serial.unwire (frames.map Frame.byte) = [0x42, Screen.newline] := by
  let uart : Uart :=
    { dll := 12, dlm := 0, lcr := 0x83, ier := 0, mcr := 0, fifo := false, queue := [0x58, 0x59],
      line := [], lost := [], polls := 0, speed := fun n ↦ if n.sqrt * n.sqrt = n then 1 else 0,
      status := fun _ ↦ 0 }
  have hdrain : uart.Drains := by
    intro k
    have hsquare : k + (k * k - k) = k * k := Nat.add_sub_cancel' (Nat.le_mul_self k)
    refine ⟨k * k - k, ?_⟩
    simp only [uart, hsquare, Nat.sqrt_eq, if_true, Nat.one_pos]
  have hslow : ∀ n, uart.speed n ≤ 1 := by
    intro n
    simp only [uart]
    split_ifs <;> omega
  obtain ⟨t₁, t₂, frames, enough, hrun, -, -, hsent, -, -, hread⟩ :=
    printed_on_line (t := ⟨⟨fun _ ↦ 0, 0, 0⟩, ⟨uart, false⟩⟩) (by decide) rfl hdrain
      [⟨0x41, 7, 0⟩] [⟨0x42, 7, 0⟩, ⟨Screen.newline, 7, 0⟩]
  exact ⟨_, by decide, hslow, t₁, t₂, frames, enough, hrun, hsent, hread⟩

end Terminal

end MyOS
