import MyOS.Lib.Bytes
import MyOS.Lib.Ring

/-!
# The keyboard

`keyboard.c` has an interrupt handler that turns scancodes into characters and puts them into a
ring of 256 bytes, and `keyboard_getchar`, which takes them out.  The handler can come between any
two steps of `keyboard_getchar`.
-/

namespace MyOS

def bufSize : ℕ := 256

/-- The characters of the keys by scancode, without shift. -/
def scNormal : List UInt8 :=
  [0x00, 0x1B, 0x31, 0x32, 0x33, 0x34, 0x35, 0x36, 0x37, 0x38,
   0x39, 0x30, 0x2D, 0x3D, 0x08, 0x09, 0x71, 0x77, 0x65, 0x72,
   0x74, 0x79, 0x75, 0x69, 0x6F, 0x70, 0x5B, 0x5D, 0x0A, 0x00,
   0x61, 0x73, 0x64, 0x66, 0x67, 0x68, 0x6A, 0x6B, 0x6C, 0x3B,
   0x27, 0x60, 0x00, 0x5C, 0x7A, 0x78, 0x63, 0x76, 0x62, 0x6E,
   0x6D, 0x2C, 0x2E, 0x2F, 0x00, 0x2A, 0x00, 0x20]

/-- The same with shift. -/
def scShifted : List UInt8 :=
  [0x00, 0x1B, 0x21, 0x40, 0x23, 0x24, 0x25, 0x5E, 0x26, 0x2A,
   0x28, 0x29, 0x5F, 0x2B, 0x08, 0x09, 0x51, 0x57, 0x45, 0x52,
   0x54, 0x59, 0x55, 0x49, 0x4F, 0x50, 0x7B, 0x7D, 0x0A, 0x00,
   0x41, 0x53, 0x44, 0x46, 0x47, 0x48, 0x4A, 0x4B, 0x4C, 0x3A,
   0x22, 0x7E, 0x00, 0x7C, 0x5A, 0x58, 0x43, 0x56, 0x42, 0x4E,
   0x4D, 0x3C, 0x3E, 0x3F, 0x00, 0x2A, 0x00, 0x20]

structure Keyboard where
  buf : ℕ → UInt8
  head : ℕ
  tail : ℕ
  shift : Bool
  caps : Bool

namespace Keyboard

variable (k : Keyboard)

def bufPush (c : UInt8) : Keyboard :=
  let next := (k.head + 1) % bufSize
  if next ≠ k.tail then { k with buf := Function.update k.buf k.head c, head := next } else k

/-- Whether the handler takes the shifted character for the key: caps lock reverses shift for the
letter keys. -/
def useShift (sc : UInt8) : Bool :=
  let base := scNormal.getD sc.toNat 0
  if k.caps = true ∧ 0x61 ≤ base ∧ base ≤ 0x7A then !k.shift else k.shift

def kbIrqHandler (sc : UInt8) : Keyboard :=
  if sc &&& 0x80 ≠ 0 then
    let sc := sc &&& 0x7F
    if sc = 0x2A ∨ sc = 0x36 then { k with shift := false } else k
  else if sc = 0x2A ∨ sc = 0x36 then { k with shift := true }
  else if sc = 0x3A then { k with caps := !k.caps }
  else if sc = 0x1D ∨ sc = 0x38 then k
  else if 58 ≤ sc then k
  else
    let c := if k.useShift sc then scShifted.getD sc.toNat 0 else scNormal.getD sc.toNat 0
    if c ≠ 0 then k.bufPush c else k

def keyboardHaschar : Prop := k.head ≠ k.tail

instance : Decidable k.keyboardHaschar := inferInstanceAs (Decidable (_ ≠ _))

end Keyboard

/-! ## The ring -/

/-- Where `keyboard_getchar` is: at its loop, before `buf[tail]` is read, or before `tail` is
advanced, with the character in hand. -/
inductive Getchar where
  | loop
  | read
  | advance (c : UInt8)

/-- A keyboard with one caller of `keyboard_getchar`, and the characters so far that were accepted
by `buf_push` and returned by `keyboard_getchar`. -/
structure Typing where
  kb : Keyboard
  stage : Getchar
  accepted : List UInt8
  returned : List UInt8

inductive TypingEvent where
  | push (c : UInt8)
  | getchar

namespace Typing

/-- `buf_push` from the handler, or one step of `keyboard_getchar`. -/
def step (s : Typing) : TypingEvent → Typing
  | .push c =>
      { s with
        kb := s.kb.bufPush c
        accepted := if (s.kb.bufPush c).head ≠ s.kb.head then s.accepted ++ [c] else s.accepted }
  | .getchar =>
      match s.stage with
      | .loop => if s.kb.keyboardHaschar then { s with stage := .read } else s
      | .read => { s with stage := .advance (s.kb.buf s.kb.tail) }
      | .advance c =>
          { s with
            kb := { s.kb with tail := (s.kb.tail + 1) % bufSize }
            stage := .loop
            returned := s.returned ++ [c] }

def run (s : Typing) (es : List TypingEvent) : Typing := es.foldl step s

/-- At boot: both positions are 0, and nobody waits. -/
def boot (k : Keyboard) : Typing :=
  { kb := { k with head := 0, tail := 0 }, stage := .loop, accepted := [], returned := [] }

/-- The unread characters, from the oldest on, are the contents of the ring. -/
structure Holds (s : Typing) (queue : List UInt8) : Prop where
  room : queue.length < bufSize
  tail_lt : s.kb.tail < bufSize
  head_eq : s.kb.head = (s.kb.tail + queue.length) % bufSize
  contents : Ring.contents bufSize s.kb.buf s.kb.tail queue.length = queue
  accepted : s.accepted = s.returned ++ queue
  read : s.stage = .read → queue ≠ []
  advance : ∀ c, s.stage = .advance c → queue.head? = some c

variable {s : Typing} {queue : List UInt8} {c : UInt8}

theorem holds_boot (k : Keyboard) : (boot k).Holds [] :=
  ⟨by decide, show 0 < bufSize by decide, rfl, rfl, rfl, nofun, nofun⟩

namespace Holds

theorem head_lt (h : s.Holds queue) : s.kb.head < bufSize := by
  rw [h.head_eq]
  exact Nat.mod_lt _ (by decide)

/-- `buf_push` refuses a character when 255 are held. -/
theorem bufPush (h : s.Holds queue) (c : UInt8) :
    queue.length = 255 ∧ s.kb.bufPush c = s.kb ∨ queue.length < 255 ∧ s.kb.bufPush c =
      { s.kb with
        buf := Function.update s.kb.buf ((s.kb.tail + queue.length) % bufSize) c
        head := (s.kb.tail + (queue.length + 1)) % bufSize } := by
  have hfull := Ring.next_eq_tail_iff h.tail_lt h.room
  rw [← h.head_eq] at hfull
  have hroom := h.room
  rw [bufSize] at hroom
  rw [Keyboard.bufPush]
  by_cases hnext : (s.kb.head + 1) % bufSize = s.kb.tail
  · have hlength := hfull.mp hnext
    rw [bufSize] at hlength
    exact Or.inl ⟨by omega, if_neg (not_not_intro hnext)⟩
  · have hlength := mt hfull.mpr hnext
    rw [bufSize] at hlength
    refine Or.inr ⟨by omega, ?_⟩
    rw [if_pos hnext, h.head_eq, Nat.mod_add_mod, Nat.add_assoc]

theorem push (h : s.Holds queue) (c : UInt8) :
    queue.length = 255 ∧ s.step (.push c) = s ∨ queue.length < 255 ∧
      (s.step (.push c)).Holds (queue ++ [c]) ∧
        (s.step (.push c)).accepted = s.accepted ++ [c] := by
  rcases h.bufPush c with ⟨hfull, hkb⟩ | ⟨hroom, hkb⟩
  · refine Or.inl ⟨hfull, ?_⟩
    rw [step, hkb, if_neg (not_not_intro rfl)]
  · have hmoved : (s.kb.bufPush c).head ≠ s.kb.head := by
      rw [hkb, h.head_eq]
      exact (Ring.slot_ne (Nat.lt_succ_self _) (Nat.succ_lt_succ hroom)).symm
    have haccepted : (s.step (.push c)).accepted = s.accepted ++ [c] := if_pos hmoved
    have hstep : (s.step (.push c)).kb = s.kb.bufPush c := rfl
    have hlength : (queue ++ [c]).length = queue.length + 1 := List.length_append
    refine Or.inr ⟨hroom, ⟨?_, ?_, ?_, ?_, ?_, fun _ ↦ by simp, fun x hx ↦ ?_⟩, haccepted⟩
    · rw [hlength]
      exact Nat.succ_lt_succ hroom
    · rw [hstep, hkb]
      exact h.tail_lt
    · rw [hstep, hkb, hlength]
    · rw [hstep, hkb, hlength, Ring.contents_push h.room, h.contents]
    · rw [haccepted, h.accepted, List.append_assoc]
      rfl
    · rw [List.head?_append, h.advance x hx]
      rfl

theorem getchar_loop (h : s.Holds queue) (hstage : s.stage = .loop) :
    (s.step .getchar).Holds queue ∧ (s.step .getchar).accepted = s.accepted ∧
      (queue ≠ [] → (s.step .getchar).stage = .read) := by
  have hempty := Ring.head_eq_tail_iff h.tail_lt h.room
  rw [← h.head_eq, List.length_eq_zero_iff] at hempty
  rw [step, hstage]
  dsimp only
  by_cases hchar : s.kb.keyboardHaschar
  · rw [if_pos hchar]
    exact ⟨⟨h.room, h.tail_lt, h.head_eq, h.contents, h.accepted, fun _ ↦ mt hempty.mpr hchar,
      nofun⟩, rfl, fun _ ↦ rfl⟩
  · rw [if_neg hchar]
    exact ⟨h, rfl, fun hne ↦ absurd (hempty.mp (not_not.mp hchar)) hne⟩

/-- The character that is read is the oldest one, whatever is pushed before `tail` moves on. -/
theorem getchar_read (h : s.Holds (c :: queue)) (hstage : s.stage = .read) :
    (s.step .getchar).Holds (c :: queue) ∧ (s.step .getchar).accepted = s.accepted ∧
      (s.step .getchar).stage = .advance c := by
  have hoff := h.contents
  rw [List.length_cons, Ring.contents_succ, Nat.mod_eq_of_lt h.tail_lt] at hoff
  have hc : s.kb.buf s.kb.tail = c := (List.cons.inj hoff).1
  rw [step, hstage]
  dsimp only
  rw [hc]
  refine ⟨⟨h.room, h.tail_lt, h.head_eq, h.contents, h.accepted, nofun, ?_⟩, rfl, rfl⟩
  rintro x ⟨rfl⟩
  rfl

theorem getchar_advance (h : s.Holds (c :: queue)) (hstage : s.stage = .advance c) :
    (s.step .getchar).Holds queue ∧ (s.step .getchar).accepted = s.accepted ∧
      (s.step .getchar).stage = .loop := by
  have hoff := h.contents
  rw [List.length_cons, Ring.contents_succ] at hoff
  have hroom := h.room
  rw [List.length_cons] at hroom
  rw [step, hstage]
  refine ⟨⟨by omega, Nat.mod_lt _ (by decide), ?_, (List.cons.inj hoff).2, ?_, nofun, nofun⟩, rfl,
    rfl⟩
  · rw [Nat.mod_add_mod, h.head_eq, List.length_cons]
    congr 1
    omega
  · rw [h.accepted, List.append_assoc]
    rfl

theorem getchar (h : s.Holds queue) :
    ∃ queue', (s.step .getchar).Holds queue' ∧ (s.step .getchar).accepted = s.accepted := by
  cases hstage : s.stage with
  | loop =>
      obtain ⟨hholds, haccepted, -⟩ := h.getchar_loop hstage
      exact ⟨queue, hholds, haccepted⟩
  | read =>
      cases queue with
      | nil => exact absurd rfl (h.read hstage)
      | cons c queue =>
          obtain ⟨hholds, haccepted, -⟩ := h.getchar_read hstage
          exact ⟨c :: queue, hholds, haccepted⟩
  | advance c =>
      cases queue with
      | nil => cases h.advance c hstage
      | cons x queue =>
          cases h.advance c hstage
          obtain ⟨hholds, haccepted, -⟩ := h.getchar_advance hstage
          exact ⟨queue, hholds, haccepted⟩

theorem step (h : s.Holds queue) (e : TypingEvent) : ∃ queue', (s.step e).Holds queue' := by
  cases e with
  | push c =>
      rcases h.push c with ⟨-, hsame⟩ | ⟨-, hholds, -⟩
      · rw [hsame]
        exact ⟨queue, h⟩
      · exact ⟨_, hholds⟩
  | getchar =>
      obtain ⟨queue', hholds, -⟩ := h.getchar
      exact ⟨queue', hholds⟩

theorem run (h : s.Holds queue) (es : List TypingEvent) : ∃ queue', (s.run es).Holds queue' := by
  induction es generalizing s queue with
  | nil => exact ⟨queue, h⟩
  | cons e es ih =>
      obtain ⟨queue', hstep⟩ := h.step e
      exact ih hstep

/-- The oldest character is returned when `keyboard_getchar` goes on. -/
theorem next (h : s.Holds (c :: queue)) : ∃ n, (s.run (List.replicate n .getchar)).Holds queue ∧
    (s.run (List.replicate n .getchar)).accepted = s.accepted := by
  have hlast : ∀ {s : Typing}, s.Holds (c :: queue) → s.stage = .read →
      (s.run (List.replicate 2 .getchar)).Holds queue ∧
        (s.run (List.replicate 2 .getchar)).accepted = s.accepted := by
    intro s h hstage
    obtain ⟨h₁, haccepted₁, hstage₁⟩ := h.getchar_read hstage
    obtain ⟨h₂, haccepted₂, -⟩ := h₁.getchar_advance hstage₁
    exact ⟨h₂, haccepted₂.trans haccepted₁⟩
  cases hstage : s.stage with
  | loop =>
      obtain ⟨h₁, haccepted₁, hstage₁⟩ := h.getchar_loop hstage
      obtain ⟨h₃, haccepted₃⟩ := hlast h₁ (hstage₁ (List.cons_ne_nil c queue))
      exact ⟨3, h₃, haccepted₃.trans haccepted₁⟩
  | read => exact ⟨2, hlast h hstage⟩
  | advance x =>
      cases h.advance x hstage
      obtain ⟨h₁, haccepted₁, -⟩ := h.getchar_advance hstage
      exact ⟨1, h₁, haccepted₁⟩

theorem drain (h : s.Holds queue) :
    ∃ n, (s.run (List.replicate n .getchar)).returned = s.accepted := by
  induction queue generalizing s with
  | nil =>
      refine ⟨0, ?_⟩
      rw [h.accepted, List.append_nil]
      rfl
  | cons c queue ih =>
      obtain ⟨n, hnext, haccepted⟩ := h.next
      obtain ⟨m, hrest⟩ := ih hnext
      refine ⟨n + m, ?_⟩
      rw [List.replicate_add, Typing.run, List.foldl_append]
      exact hrest.trans haccepted

end Holds

/-- However the handler and `keyboard_getchar` take turns, the characters returned are the accepted
ones in their order, up to those that are still held; a character is refused just when 255 are
held; and what is held is returned when `keyboard_getchar` goes on. -/
theorem keyboard_fifo (k : Keyboard) (es : List TypingEvent) :
    ((boot k).run es).kb.head < 256 ∧ ((boot k).run es).kb.tail < 256 ∧
      ∃ unread, ((boot k).run es).accepted = ((boot k).run es).returned ++ unread ∧
        unread.length ≤ 255 ∧
        (∀ c, (((boot k).run es).step (.push c)).accepted =
          if unread.length = 255 then ((boot k).run es).accepted
          else ((boot k).run es).accepted ++ [c]) ∧
        ∃ n, (((boot k).run es).run (List.replicate n .getchar)).returned =
          ((boot k).run es).accepted := by
  obtain ⟨unread, h⟩ := (holds_boot k).run es
  have hroom := h.room
  rw [bufSize] at hroom
  refine ⟨h.head_lt, h.tail_lt, unread, h.accepted, by omega, fun c ↦ ?_, h.drain⟩
  rcases h.push c with ⟨hfull, hsame⟩ | ⟨hlt, -, haccepted⟩
  · rw [if_pos hfull, hsame]
  · rw [if_neg (by omega), haccepted]

end Typing

/-! ## Shift -/

namespace Keyboard

/-- The scancodes `h` come in one after the other. -/
def irqs (k : Keyboard) (h : List UInt8) : Keyboard := h.foldl kbIrqHandler k

/-- The keys that are down after the events `h`: those whose last event was a make. -/
def keysDown (h : List UInt8) : UInt8 → Bool :=
  h.foldl (fun down b ↦ Function.update down (b &&& 0x7F) (decide (b &&& 0x80 = 0))) fun _ ↦ false

def shiftDown (h : List UInt8) : Bool := keysDown h 0x2A || keysDown h 0x36

/-- Caps lock has been pressed an odd number of times. -/
def capsOn (h : List UInt8) : Bool := decide (h.count 0x3A % 2 = 1)

def isLetter (sc : UInt8) : Bool :=
  decide (0x61 ≤ scNormal.getD sc.toNat 0 ∧ scNormal.getD sc.toNat 0 ≤ 0x7A)

def IsShift (b : UInt8) : Prop := b &&& 0x7F = 0x2A ∨ b &&& 0x7F = 0x36

instance (b : UInt8) : Decidable (IsShift b) := inferInstanceAs (Decidable (_ ∨ _))

/-- The last event of a shift key was a make. -/
def lastShiftMake (h : List UInt8) : Bool :=
  h.foldl (fun last b ↦ if IsShift b then decide (b &&& 0x80 = 0) else last) false

/-- A key that stands for a character. -/
def Ordinary (sc : UInt8) : Prop := sc < 58 ∧ sc ≠ 0x2A ∧ sc ≠ 0x36 ∧ sc ≠ 0x1D ∧ sc ≠ 0x38

instance (sc : UInt8) : Decidable (Ordinary sc) := inferInstanceAs (Decidable (_ ∧ _))

variable {k : Keyboard} {h : List UInt8} {b sc : UInt8}

theorem make_eq : ∀ b : UInt8, b &&& 0x80 = 0 → b &&& 0x7F = b := by
  apply Bytes.forall_byte
  decide +kernel

@[simp] theorem bufPush_shift (k : Keyboard) (c : UInt8) : (k.bufPush c).shift = k.shift := by
  rw [bufPush]
  split <;> rfl

@[simp] theorem bufPush_caps (k : Keyboard) (c : UInt8) : (k.bufPush c).caps = k.caps := by
  rw [bufPush]
  split <;> rfl

/-- What the handler does for a key that stands for a character. -/
theorem kbIrqHandler_ordinary (k : Keyboard) (hsc : Ordinary sc) :
    k.kbIrqHandler sc =
      let c := if k.useShift sc then scShifted.getD sc.toNat 0 else scNormal.getD sc.toNat 0
      if c ≠ 0 then k.bufPush c else k := by
  obtain ⟨hlt, hleft, hright, hctrl, halt⟩ := hsc
  have hmake : ∀ sc : UInt8, sc < 58 → sc &&& 0x80 = 0 ∧ sc ≠ 0x3A ∧ ¬58 ≤ sc := by
    apply Bytes.forall_byte
    decide +kernel
  obtain ⟨hmake, hcaps, hin⟩ := hmake sc hlt
  rw [kbIrqHandler, if_neg (not_not_intro hmake), if_neg (not_or.mpr ⟨hleft, hright⟩),
    if_neg hcaps, if_neg (not_or.mpr ⟨hctrl, halt⟩), if_neg hin]

theorem kbIrqHandler_shift (k : Keyboard) (b : UInt8) :
    (k.kbIrqHandler b).shift = if IsShift b then decide (b &&& 0x80 = 0) else k.shift := by
  rw [kbIrqHandler]
  by_cases hmake : b &&& 0x80 = 0
  · have hiff : IsShift b ↔ b = 0x2A ∨ b = 0x36 := by rw [IsShift, make_eq b hmake]
    rw [if_neg (not_not_intro hmake)]
    by_cases hshift : IsShift b
    · rw [if_pos (hiff.mp hshift), if_pos hshift]
      exact (decide_eq_true hmake).symm
    · rw [if_neg (mt hiff.mpr hshift), if_neg hshift]
      split_ifs <;> simp [apply_ite shift]
  · rw [if_pos hmake, decide_eq_false hmake]
    exact apply_ite shift _ _ _

theorem kbIrqHandler_caps (k : Keyboard) (b : UInt8) :
    (k.kbIrqHandler b).caps = if b = 0x3A then !k.caps else k.caps := by
  have hmake : ∀ b : UInt8, b = 0x3A → b &&& 0x80 = 0 ∧ ¬(b = 0x2A ∨ b = 0x36) := by
    rintro b rfl
    decide
  rw [kbIrqHandler]
  by_cases hcaps : b = 0x3A
  · obtain ⟨hmake, hshift⟩ := hmake b hcaps
    rw [if_neg (not_not_intro hmake), if_neg hshift, if_pos hcaps, if_pos hcaps]
  · rw [if_neg hcaps, if_neg hcaps]
    split_ifs <;> simp [apply_ite caps]

/-! What a run of the handler remembers of the events. -/

theorem irqs_append (k : Keyboard) (h : List UInt8) (b : UInt8) :
    k.irqs (h ++ [b]) = (k.irqs h).kbIrqHandler b := by
  rw [irqs, List.foldl_append]
  rfl

theorem lastShiftMake_append (h : List UInt8) (b : UInt8) : lastShiftMake (h ++ [b]) =
    if IsShift b then decide (b &&& 0x80 = 0) else lastShiftMake h := by
  rw [lastShiftMake, List.foldl_append]
  rfl

theorem irqs_shift (hk : k.shift = false) (h : List UInt8) :
    (k.irqs h).shift = lastShiftMake h := by
  induction h using List.reverseRecOn with
  | nil => exact hk
  | append_singleton h b ih =>
      rw [irqs_append, kbIrqHandler_shift, ih, lastShiftMake_append]

theorem irqs_caps (hk : k.caps = false) (h : List UInt8) : (k.irqs h).caps = capsOn h := by
  induction h using List.reverseRecOn with
  | nil => exact hk
  | append_singleton h b ih =>
      rw [irqs_append, kbIrqHandler_caps, ih, capsOn, capsOn, List.count_append]
      by_cases hb : b = 0x3A
      · rw [if_pos hb, hb, List.count_singleton_self, ← decide_not]
        congr 1
        exact propext (by omega)
      · rw [if_neg hb, List.count_singleton, if_neg (by simpa using hb), Nat.add_zero]

theorem keysDown_append (h : List UInt8) (b x : UInt8) : keysDown (h ++ [b]) x =
    if x = b &&& 0x7F then decide (b &&& 0x80 = 0) else keysDown h x := by
  rw [keysDown, List.foldl_append]
  exact Function.update_apply _ _ _ _

theorem shiftDown_of_lastShiftMake (hlast : lastShiftMake h = true) : shiftDown h = true := by
  induction h using List.reverseRecOn with
  | nil => cases hlast
  | append_singleton h b ih =>
      rw [lastShiftMake_append] at hlast
      rw [shiftDown, keysDown_append, keysDown_append]
      by_cases hshift : IsShift b
      · have hmake : decide (b &&& 0x80 = 0) = true := by rwa [if_pos hshift] at hlast
        rcases hshift with hleft | hright
        · rw [if_pos hleft.symm, hmake, Bool.true_or]
        · rw [if_pos hright.symm, hmake, Bool.or_true]
      · have hbefore : lastShiftMake h = true := by rwa [if_neg hshift] at hlast
        obtain ⟨hleft, hright⟩ := not_or.mp hshift
        rw [if_neg (Ne.symm hleft), if_neg (Ne.symm hright)]
        exact ih hbefore

theorem useShift_eq (k : Keyboard) (sc : UInt8) :
    k.useShift sc = xor k.shift (k.caps && isLetter sc) := by
  rw [useShift, isLetter]
  generalize scNormal.getD sc.toNat 0 = base
  cases k.caps with
  | false => simp
  | true =>
      by_cases hletter : 0x61 ≤ base ∧ base ≤ 0x7A
      · simp [hletter]
      · simp [hletter]

/-- At the press of an ordinary key the handler takes the shifted character as shift and caps lock
ask for, unless a shift key is down and the last event of a shift key was a release. -/
theorem shift_follows_keys_iff (k : Keyboard) (hshift : k.shift = false) (hcaps : k.caps = false)
    (h : List UInt8) (hsc : Ordinary sc) :
    (k.irqs (h ++ [sc]) =
      let c := if (k.irqs h).useShift sc then scShifted.getD sc.toNat 0
        else scNormal.getD sc.toNat 0
      if c ≠ 0 then (k.irqs h).bufPush c else k.irqs h) ∧
    ((k.irqs h).useShift sc = xor (shiftDown h) (capsOn h && isLetter sc) ↔
      ¬(shiftDown h = true ∧ lastShiftMake h = false)) := by
  refine ⟨?_, ?_⟩
  · rw [irqs_append]
    exact kbIrqHandler_ordinary _ hsc
  · rw [useShift_eq, irqs_shift hshift, irqs_caps hcaps, Bool.xor_left_inj]
    have hlast := shiftDown_of_lastShiftMake (h := h)
    cases hmake : lastShiftMake h
    · cases hdown : shiftDown h <;> simp
    · rw [hlast hmake]
      simp

/-- A keyboard at boot. -/
def quiet : Keyboard := ⟨fun _ ↦ 0, 0, 0, false, false⟩

theorem shift_follows_keys_iff_left : Ordinary 0x1E ∧
    ((quiet.irqs [0x2A]).useShift 0x1E =
        xor (shiftDown [0x2A]) (capsOn [0x2A] && isLetter 0x1E) ↔
      ¬(shiftDown [0x2A] = true ∧ lastShiftMake [0x2A] = false)) :=
  ⟨by decide, (shift_follows_keys_iff quiet rfl rfl [0x2A] (by decide)).2⟩

/-- Both shift keys are pressed and the left one is released; the right one is down, and the key
`a` gives the character `a`. -/
theorem right_shift_forgotten : shiftDown [0x2A, 0x36, 0xAA] = true ∧
    (quiet.irqs [0x2A, 0x36, 0xAA]).useShift 0x1E = false ∧
    (quiet.irqs [0x2A, 0x36, 0xAA, 0x1E]).buf 0 = 0x61 := by
  decide +kernel

end Keyboard

end MyOS
