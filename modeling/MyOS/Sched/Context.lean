import MyOS.Sched.Model

/-!
# Context switches

`context_switch` pushes the registers that a callee has to keep, stores the stack pointer in the
record of the old task and goes on with the frame that it finds at the stack pointer of the new
one.  For a task that has never run, `task_create` and `task_create_user` have written that frame.
Memory is a function from the addresses of words to words.

A frame stays as it is while other tasks run, since they write to their own stacks.
-/

namespace MyOS.Sched

/-! ## The processor -/

inductive Reg where
  | eax
  | ebx
  | esi
  | edi
  | ebp
  deriving DecidableEq

/-- The registers that the code below uses, the interrupt flag and memory. -/
structure Cpu where
  reg : Reg → ℕ
  esp : ℕ
  eip : ℕ
  interrupts : Bool
  mem : ℕ → ℕ

inductive Instr where
  /-- `push r` -/
  | push (r : Reg)
  /-- `pop r` -/
  | pop (r : Reg)
  /-- `mov r, [esp + off]` -/
  | load (r : Reg) (off : ℕ)
  /-- `mov [r], esp` -/
  | storeEsp (r : Reg)
  /-- `mov esp, [esp + off]` -/
  | loadEsp (off : ℕ)
  | ret
  | sti
  /-- `call r`, with the address of the instruction behind it. -/
  | call (r : Reg) (after : ℕ)

namespace Cpu

variable (c : Cpu)

def setReg (r : Reg) (v : ℕ) : Cpu := { c with reg := Function.update c.reg r v }

def store (a v : ℕ) : Cpu := { c with mem := Function.update c.mem a v }

def push (v : ℕ) : Cpu :=
  let c := { c with esp := Word.sub c.esp 4 }
  c.store c.esp v

/-- The word at the stack pointer is taken off. -/
def drop : Cpu := { c with esp := Word.add c.esp 4 }

def exec : Instr → Cpu
  | .push r => c.push (c.reg r)
  | .pop r => (c.setReg r (c.mem c.esp)).drop
  | .load r off => c.setReg r (c.mem (Word.add c.esp off))
  | .storeEsp r => c.store (c.reg r) c.esp
  | .loadEsp off => { c with esp := c.mem (Word.add c.esp off) }
  | .ret => { c with eip := c.mem c.esp }.drop
  | .sti => { c with interrupts := true }
  | .call r after => { c.push after with eip := c.reg r }

def run (p : List Instr) : Cpu := p.foldl exec c

end Cpu

def contextSwitch : List Instr :=
  [.push .ebp, .push .ebx, .push .esi, .push .edi, .load .eax 20, .storeEsp .eax, .loadEsp 24,
    .pop .edi, .pop .esi, .pop .ebx, .pop .ebp, .ret]

/-- The addresses of the two trampolines, and of the instruction behind `call eax`. -/
structure Code where
  taskStartTrampoline : ℕ
  afterEntry : ℕ
  userIretTrampoline : ℕ

/-- The instructions at `task_start_trampoline`, up to the call of the entry. -/
def taskStartTrampoline (K : Code) : List Instr := [.sti, .pop .eax, .call .eax K.afterEntry]

/-- What `iret` to ring 3 loads, where it leaves the kernel stack, and the data segments. -/
structure UserEntry where
  eip : ℕ
  cs : ℕ
  eflags : ℕ
  esp : ℕ
  ss : ℕ
  kernelEsp : ℕ
  ds : ℕ
  es : ℕ
  fs : ℕ
  gs : ℕ

/-- `user_iret_trampoline`: four data segments, then the five words that `iret` pops. -/
def Cpu.userIretTrampoline (c : Cpu) : UserEntry where
  ds := 0x23
  es := 0x23
  fs := 0x23
  gs := 0x23
  eip := c.mem c.esp
  cs := c.mem (Word.add c.esp 4)
  eflags := c.mem (Word.add c.esp 8)
  esp := c.mem (Word.add c.esp 12)
  ss := c.mem (Word.add c.esp 16)
  kernelEsp := Word.add c.esp 20

/-! ## Tasks -/

/-- `&t->esp` -/
def espField (t : ℕ) : ℕ := t + 24

/-- `*--sp = v;` for the words of a list. -/
def pushWords (m : ℕ → ℕ) (sp : ℕ) (words : List ℕ) : (ℕ → ℕ) × ℕ :=
  words.foldl (fun p v ↦ (Function.update p.1 (Word.sub p.2 4) v, Word.sub p.2 4)) (m, sp)

/-- What a task that does not run has on its stack, from its stack pointer up to `top`. -/
structure Saved where
  words : List ℕ
  top : ℕ

/-- The processor runs the task `current`.  A stack is given by its first address and its end.
`saved` is no state of the kernel: it records what the other tasks have been left with. -/
structure World where
  cpu : Cpu
  current : ℕ
  stack : ℕ → ℕ × ℕ
  saved : ℕ → Option Saved

def gdtUcodeSel : ℕ := 0x18 ||| 3

def gdtUdataSel : ℕ := 0x20 ||| 3

def userStackTop (ustack : ℕ) : ℕ := Word.add ustack taskStackSize &&& 0xFFFFFFF0

namespace World

variable (w : World)

def Has (t : ℕ) : Prop := t = w.current ∨ (w.saved t).isSome = true

/-- The stacks are disjoint, and no record is on a stack. -/
structure Apart : Prop where
  disjoint : ∀ t u, w.Has t → w.Has u → t ≠ u →
    (w.stack t).2 ≤ (w.stack u).1 ∨ (w.stack u).2 ≤ (w.stack t).1
  fields : ∀ t u, w.Has t → w.Has u →
    espField t + 4 ≤ (w.stack u).1 ∨ (w.stack u).2 ≤ espField t
  upper : ∀ t, w.Has t → (w.stack t).2 < 2 ^ 32

/-- The words of a new stack are pushed and the stack pointer goes to the record. -/
def make (t stack : ℕ) (words : List ℕ) : World :=
  let top := Word.add stack taskStackSize
  let r := pushWords w.cpu.mem top words
  { w with
    cpu := { w.cpu with mem := Function.update r.1 (espField t) r.2 }
    stack := Function.update w.stack t (stack, stack + taskStackSize)
    saved := Function.update w.saved t (some ⟨words.reverse, stack + taskStackSize⟩) }

/-- `task_create` writes the entry, the trampoline, `ebp`, `ebx`, `esi` and `edi`. -/
def taskCreate (K : Code) (t stack entry : ℕ) : World :=
  w.make t stack [entry, K.taskStartTrampoline, 0, 0, 0, 0]

/-- `task_create_user` writes the frame of `iret`, the trampoline and four registers. -/
def taskCreateUser (K : Code) (t kstack ustack entry : ℕ) : World :=
  w.make t kstack [gdtUdataSel, userStackTop ustack, 0x202, gdtUcodeSel, entry,
    K.userIretTrampoline, 0, 0, 0, 0]

/-- The current task has called `context_switch(&prev->esp, next->esp)` and its stack has room for
the four registers. -/
structure Calls (next : ℕ) : Prop where
  ne : next ≠ w.current
  saved : (w.saved next).isSome = true
  old : w.cpu.mem (w.cpu.esp + 4) = espField w.current
  new : w.cpu.mem (w.cpu.esp + 8) = w.cpu.mem (espField next)
  lower : (w.stack w.current).1 + 16 ≤ w.cpu.esp
  upper : w.cpu.esp + 12 ≤ (w.stack w.current).2

/-- At the call the stack pointer was above the return address. -/
def switch (next : ℕ) : World :=
  { w with
    cpu := w.cpu.run contextSwitch
    current := next
    saved := Function.update (Function.update w.saved w.current
      (some ⟨[w.cpu.reg .edi, w.cpu.reg .esi, w.cpu.reg .ebx, w.cpu.reg .ebp,
        w.cpu.mem w.cpu.esp], w.cpu.esp + 4⟩)) next none }

/-- The words that the current task has to leave alone: the stacks of the others and the saved
stack pointers. -/
def Foreign (a : ℕ) : Prop :=
  (∃ t, w.Has t ∧ a = espField t) ∨
    ∃ t, w.Has t ∧ t ≠ w.current ∧ (w.stack t).1 ≤ a ∧ a < (w.stack t).2

end World

/-- The current task computes, makes a task, or calls `context_switch`; a task may be reaped. -/
inductive Step (K : Code) : World → World → Prop where
  | work {w : World} (cpu : Cpu) (hmem : ∀ a, w.Foreign a → cpu.mem a = w.cpu.mem a) :
      Step K w { w with cpu := cpu }
  | create {w : World} {t : ℕ} (stack entry : ℕ) (hnew : ¬w.Has t)
      (hapart : (w.taskCreate K t stack entry).Apart) : Step K w (w.taskCreate K t stack entry)
  | createUser {w : World} {t : ℕ} (kstack ustack entry : ℕ) (hnew : ¬w.Has t)
      (hapart : (w.taskCreateUser K t kstack ustack entry).Apart) :
      Step K w (w.taskCreateUser K t kstack ustack entry)
  | reap {w : World} {t : ℕ} (ht : t ≠ w.current) :
      Step K w { w with saved := Function.update w.saved t none }
  | switch {w : World} {next : ℕ} (hcall : w.Calls next) : Step K w (w.switch next)

/-- A run, from a state in which the current task is the only one. -/
inductive Switching (K : Code) : World → Prop where
  | init {w : World} (hsaved : w.saved = fun _ ↦ none) (hapart : w.Apart) : Switching K w
  | step {w w' : World} (hrun : Switching K w) (hstep : Step K w w') : Switching K w'

/-- Steps after which `t` is still a task and not current. -/
def Away (K : Code) (t : ℕ) : World → World → Prop :=
  Relation.ReflTransGen fun w w' ↦ Step K w w' ∧ w'.current ≠ t ∧ w'.Has t

variable {K : Code} {w w' : World} {c : Cpu} {a next ptr sp t u : ℕ} {words : List ℕ}

/-! ## One switch -/

/-- Memory with the four registers below the return address and the stack pointer at `ptr`. -/
def Cpu.leave (c : Cpu) (ptr : ℕ) : ℕ → ℕ :=
  Function.update (Function.update (Function.update (Function.update (Function.update c.mem
    (c.esp - 4) (c.reg .ebp)) (c.esp - 8) (c.reg .ebx)) (c.esp - 12) (c.reg .esi))
    (c.esp - 16) (c.reg .edi)) ptr (c.esp - 16)

theorem Cpu.leave_of_ne (hlo : 16 ≤ c.esp) (ha : a + 16 < c.esp ∨ c.esp ≤ a) (hne : a ≠ ptr) :
    c.leave ptr a = c.mem a := by
  have h₁ : a ≠ c.esp - 4 := by omega
  have h₂ : a ≠ c.esp - 8 := by omega
  have h₃ : a ≠ c.esp - 12 := by omega
  have h₄ : a ≠ c.esp - 16 := by omega
  rw [Cpu.leave, Function.update_of_ne hne, Function.update_of_ne h₄, Function.update_of_ne h₃,
    Function.update_of_ne h₂, Function.update_of_ne h₁]

theorem Cpu.run_contextSwitch (hlo : 16 ≤ c.esp) (hhi : c.esp + 12 < 2 ^ 32)
    (hold : c.mem (c.esp + 4) = ptr) (hnew : c.mem (c.esp + 8) = sp)
    (hptr : ptr + 16 < c.esp ∨ c.esp + 12 ≤ ptr) (hsp : sp + 20 < 2 ^ 32) :
    (c.run contextSwitch).mem = c.leave ptr ∧ (c.run contextSwitch).esp = sp + 20 ∧
      (c.run contextSwitch).eip = c.leave ptr (sp + 16) ∧
      (c.run contextSwitch).reg .edi = c.leave ptr sp ∧
      (c.run contextSwitch).reg .esi = c.leave ptr (sp + 4) ∧
      (c.run contextSwitch).reg .ebx = c.leave ptr (sp + 8) ∧
      (c.run contextSwitch).reg .ebp = c.leave ptr (sp + 12) := by
  have e₁ : Word.sub c.esp 4 = c.esp - 4 := Word.sub_eq (by omega) (by omega)
  have e₂ : Word.sub (c.esp - 4) 4 = c.esp - 8 := Word.sub_eq (by omega) (by omega)
  have e₃ : Word.sub (c.esp - 8) 4 = c.esp - 12 := Word.sub_eq (by omega) (by omega)
  have e₄ : Word.sub (c.esp - 12) 4 = c.esp - 16 := Word.sub_eq (by omega) (by omega)
  have e₅ : Word.add (c.esp - 16) 20 = c.esp + 4 := by
    rw [Word.add_eq (by omega)]
    omega
  have e₆ : Word.add (c.esp - 16) 24 = c.esp + 8 := by
    rw [Word.add_eq (by omega)]
    omega
  have e₇ : Word.add sp 4 = sp + 4 := Word.add_eq (by omega)
  have e₈ : Word.add (sp + 4) 4 = sp + 8 := Word.add_eq (by omega)
  have e₉ : Word.add (sp + 8) 4 = sp + 12 := Word.add_eq (by omega)
  have e₁₀ : Word.add (sp + 12) 4 = sp + 16 := Word.add_eq (by omega)
  have e₁₁ : Word.add (sp + 16) 4 = sp + 20 := Word.add_eq (by omega)
  have hpushed : Function.update (Function.update (Function.update (Function.update c.mem
      (c.esp - 4) (c.reg .ebp)) (c.esp - 8) (c.reg .ebx)) (c.esp - 12) (c.reg .esi))
      (c.esp - 16) (c.reg .edi) (c.esp + 4) = ptr := by
    rw [Function.update_of_ne (by omega), Function.update_of_ne (by omega),
      Function.update_of_ne (by omega), Function.update_of_ne (by omega), hold]
  have hloaded : c.leave ptr (c.esp + 8) = sp := by
    rw [Cpu.leave_of_ne hlo (by omega) (by omega), hnew]
  have hrun : c.run contextSwitch = { c with
      reg := Function.update (Function.update (Function.update (Function.update (Function.update
        c.reg .eax ptr) .edi (c.leave ptr sp)) .esi (c.leave ptr (sp + 4))) .ebx
        (c.leave ptr (sp + 8))) .ebp (c.leave ptr (sp + 12))
      esp := sp + 20, eip := c.leave ptr (sp + 16), mem := c.leave ptr } := by
    simp only [Cpu.run, contextSwitch, List.foldl_cons, List.foldl_nil, Cpu.exec, Cpu.push,
      Cpu.store, Cpu.setReg, Cpu.drop, e₁, e₂, e₃, e₄, e₅, e₆, hpushed, Function.update_self]
    rw [← Cpu.leave]
    simp only [hloaded, e₇, e₈, e₉, e₁₀, e₁₁]
  rw [hrun]
  refine ⟨rfl, rfl, rfl, ?_, ?_, ?_, ?_⟩ <;> simp

/-! ## Frames on other stacks -/

/-- The words that `t` was left with are on its stack, and its record points to them. -/
def World.Intact (w : World) (t : ℕ) (f : Saved) : Prop :=
  ∃ sp, w.cpu.mem (espField t) = sp ∧ (w.stack t).1 ≤ sp ∧ sp + 4 * f.words.length = f.top ∧
    f.top ≤ (w.stack t).2 ∧ ∀ i (hi : i < f.words.length), w.cpu.mem (sp + 4 * i) = f.words[i]

theorem World.Intact.congr {f : Saved} (h : w.Intact t f) (hstack : w'.stack t = w.stack t)
    (hfield : w'.cpu.mem (espField t) = w.cpu.mem (espField t))
    (hmem : ∀ a, (w.stack t).1 ≤ a → a < (w.stack t).2 → w'.cpu.mem a = w.cpu.mem a) :
    w'.Intact t f := by
  obtain ⟨sp, hsp, hlo, htop, hhi, hwords⟩ := h
  refine ⟨sp, hfield.trans hsp, by rwa [hstack], htop, by rwa [hstack], fun i hi ↦ ?_⟩
  rw [hmem _ (by omega) (by omega)]
  exact hwords i hi

structure Sound (w : World) : Prop where
  apart : w.Apart
  current : w.saved w.current = none
  intact : ∀ t f, w.saved t = some f → 5 ≤ f.words.length ∧ w.Intact t f

theorem World.has_of_saved {f : Saved} (h : w.saved t = some f) : w.Has t :=
  Or.inr (by rw [h]; rfl)

theorem Sound.ne_current {f : Saved} (h : Sound w) (hf : w.saved t = some f) : t ≠ w.current := by
  rintro rfl
  rw [h.current] at hf
  cases hf

theorem Sound.work (h : Sound w) (hmem : ∀ a, w.Foreign a → c.mem a = w.cpu.mem a) :
    Sound { w with cpu := c } := by
  refine ⟨⟨h.apart.disjoint, h.apart.fields, h.apart.upper⟩, h.current, fun t f hf ↦ ?_⟩
  have hhas := World.has_of_saved hf
  obtain ⟨hlen, hintact⟩ := h.intact t f hf
  exact ⟨hlen, hintact.congr rfl (hmem _ (Or.inl ⟨t, hhas, rfl⟩)) fun a hlo hhi ↦
    hmem a (Or.inr ⟨t, hhas, h.ne_current hf, hlo, hhi⟩)⟩

theorem Sound.reap (h : Sound w) (u : ℕ) :
    Sound { w with saved := Function.update w.saved u none } := by
  have hold : ∀ t f, Function.update w.saved u none t = some f → w.saved t = some f := by
    intro t f hf
    rw [Function.update_apply] at hf
    split_ifs at hf
    exact hf
  have hhas : ∀ t, World.Has { w with saved := Function.update w.saved u none } t → w.Has t := by
    rintro t (hcur | hsome)
    · exact Or.inl hcur
    · obtain ⟨f, hf⟩ := Option.isSome_iff_exists.mp hsome
      exact World.has_of_saved (hold t f hf)
  refine ⟨⟨fun t u ht hu ↦ h.apart.disjoint t u (hhas t ht) (hhas u hu),
    fun t u ht hu ↦ h.apart.fields t u (hhas t ht) (hhas u hu),
    fun t ht ↦ h.apart.upper t (hhas t ht)⟩, ?_, fun t f hf ↦ h.intact t f (hold t f hf)⟩
  change Function.update w.saved u none w.current = none
  rw [Function.update_apply, h.current, ite_self]

/-! ### New tasks -/

theorem pushWords_append (m : ℕ → ℕ) (words : List ℕ) (v : ℕ) :
    pushWords m sp (words ++ [v]) = (Function.update (pushWords m sp words).1
      (Word.sub (pushWords m sp words).2 4) v, Word.sub (pushWords m sp words).2 4) := by
  rw [pushWords, List.foldl_append]
  rfl

/-- The words come in reverse order below `sp`, and nothing else changes. -/
theorem pushWords_spec (m : ℕ → ℕ) (words : List ℕ) (hlo : 4 * words.length ≤ sp)
    (hhi : sp < 2 ^ 32) :
    (pushWords m sp words).2 = sp - 4 * words.length ∧
      (∀ i (hi : i < words.reverse.length),
        (pushWords m sp words).1 (sp - 4 * words.length + 4 * i) = words.reverse[i]) ∧
      ∀ a, a + 4 * words.length < sp ∨ sp ≤ a → (pushWords m sp words).1 a = m a := by
  induction words using List.reverseRecOn with
  | nil => exact ⟨rfl, fun i hi ↦ absurd hi (Nat.not_lt_zero i), fun a _ ↦ rfl⟩
  | append_singleton words v ih =>
      simp only [List.length_append, List.length_singleton] at hlo ⊢
      obtain ⟨hsp, hwords, hrest⟩ := ih (by omega)
      have hnext : Word.sub (pushWords m sp words).2 4 = sp - 4 * (words.length + 1) := by
        rw [hsp, Word.sub_eq (by omega) (by omega)]
        omega
      rw [pushWords_append, hnext]
      refine ⟨rfl, fun i hi ↦ ?_, fun a ha ↦ ?_⟩
      · simp only [List.reverse_append, List.reverse_singleton, List.singleton_append,
          List.length_cons, List.length_reverse] at hi ⊢
        cases i with
        | zero => simp
        | succ i =>
            have hne : sp - 4 * (words.length + 1) + 4 * (i + 1) ≠ sp - 4 * (words.length + 1) := by
              omega
            have haddr : sp - 4 * (words.length + 1) + 4 * (i + 1) =
                sp - 4 * words.length + 4 * i := by omega
            rw [Function.update_of_ne hne, haddr, List.getElem_cons_succ]
            exact hwords i (by simpa using hi)
      · have hne : a ≠ sp - 4 * (words.length + 1) := by omega
        exact (Function.update_of_ne hne _ _).trans (hrest a (by omega))

/-- The memory after `make`, on a stack that is large enough. -/
theorem World.make_spec {stack : ℕ} (hsize : 4 * words.length ≤ taskStackSize)
    (hapart : (w.make t stack words).Apart) :
    (w.make t stack words).Intact t ⟨words.reverse, stack + taskStackSize⟩ ∧
      ∀ a, a < stack ∨ stack + taskStackSize ≤ a → a ≠ espField t →
        (w.make t stack words).cpu.mem a = w.cpu.mem a := by
  have hhas : (w.make t stack words).Has t := World.has_of_saved (Function.update_self _ _ _)
  have hstack : (w.make t stack words).stack t = (stack, stack + taskStackSize) :=
    Function.update_self _ _ _
  have hupper := hapart.upper t hhas
  have hfield := hapart.fields t t hhas hhas
  rw [hstack] at hupper hfield
  have htop : Word.add stack taskStackSize = stack + taskStackSize := Word.add_eq hupper
  obtain ⟨hsp, hwords, hrest⟩ := pushWords_spec w.cpu.mem words
    (show 4 * words.length ≤ stack + taskStackSize by omega) hupper
  have hmem : (w.make t stack words).cpu.mem = Function.update
      (pushWords w.cpu.mem (stack + taskStackSize) words).1 (espField t)
      (stack + taskStackSize - 4 * words.length) := by
    rw [World.make, htop, hsp]
  refine ⟨⟨stack + taskStackSize - 4 * words.length, ?_, ?_, ?_, ?_, fun i hi ↦ ?_⟩,
    fun a ha hne ↦ ?_⟩
  · rw [hmem, Function.update_self]
  · rw [hstack]
    simp only
    omega
  · simp only [List.length_reverse]
    omega
  · rw [hstack]
  · simp only [List.length_reverse] at hi
    have hne : stack + taskStackSize - 4 * words.length + 4 * i ≠ espField t := by
      simp only at hfield
      omega
    rw [hmem, Function.update_of_ne hne]
    exact hwords i (by simpa using hi)
  · rw [hmem, Function.update_of_ne hne]
    exact hrest a (by omega)

theorem Sound.make {stack : ℕ} (h : Sound w) (hfive : 5 ≤ words.length)
    (hsize : 4 * words.length ≤ taskStackSize) (hnew : ¬w.Has t)
    (hapart : (w.make t stack words).Apart) : Sound (w.make t stack words) := by
  obtain ⟨hself, hrest⟩ := World.make_spec hsize hapart
  have hcurrent : w.current ≠ t := fun heq ↦ hnew (Or.inl heq.symm)
  have hhas : (w.make t stack words).Has t := World.has_of_saved (Function.update_self _ _ _)
  have hstack : (w.make t stack words).stack t = (stack, stack + taskStackSize) :=
    Function.update_self _ _ _
  refine ⟨hapart, (Function.update_of_ne hcurrent _ _).trans h.current, fun u f hf ↦ ?_⟩
  by_cases hut : u = t
  · subst hut
    have hsaved : some (⟨words.reverse, stack + taskStackSize⟩ : Saved) = some f :=
      (Function.update_self u _ w.saved).symm.trans hf
    cases hsaved
    exact ⟨by simpa using hfive, hself⟩
  · have hold : w.saved u = some f := (Function.update_of_ne hut _ _).symm.trans hf
    have huhas := World.has_of_saved hf
    have hustack : (w.make t stack words).stack u = w.stack u := Function.update_of_ne hut _ _
    have hfield := hapart.fields u t huhas hhas
    have hother := hapart.fields t u hhas huhas
    have hdisj := hapart.disjoint u t huhas hhas hut
    rw [hustack, hstack] at hdisj
    rw [hstack] at hfield
    rw [hustack] at hother
    simp only at hdisj hfield
    obtain ⟨hlen, hintact⟩ := h.intact u f hold
    refine ⟨hlen, hintact.congr hustack (hrest _ ?_ ?_) fun a hlo hhi ↦ hrest a ?_ ?_⟩
    · omega
    · simp only [espField]
      omega
    · omega
    · omega

/-! ### Switching -/

/-- What the stack of the new task and the stack pointers look like when `context_switch` is
called. -/
theorem Sound.called (h : Sound w) (hcall : w.Calls next) {f : Saved}
    (hf : w.saved next = some f) (hlen : 5 ≤ f.words.length) :
    ∃ sp, (w.stack next).1 ≤ sp ∧ sp + 4 * f.words.length = f.top ∧ f.top ≤ (w.stack next).2 ∧
      (w.cpu.run contextSwitch).mem = w.cpu.leave (espField w.current) ∧
      (w.cpu.run contextSwitch).esp = sp + 20 ∧
      (w.cpu.run contextSwitch).eip = f.words[4] ∧
      (w.cpu.run contextSwitch).reg .edi = f.words[0] ∧
      (w.cpu.run contextSwitch).reg .esi = f.words[1] ∧
      (w.cpu.run contextSwitch).reg .ebx = f.words[2] ∧
      (w.cpu.run contextSwitch).reg .ebp = f.words[3] ∧
      ∀ i (hi : i < f.words.length),
        (w.cpu.run contextSwitch).mem (sp + 4 * i) = f.words[i] := by
  obtain ⟨-, sp, hsp, hlo, htop, hhi, hwords⟩ := h.intact next f hf
  have hnext := World.has_of_saved hf
  have hself : w.Has w.current := Or.inl rfl
  have hupper := h.apart.upper next hnext
  have hupper' := h.apart.upper w.current hself
  have hdisj := h.apart.disjoint next w.current hnext hself hcall.ne
  have hfield := h.apart.fields w.current w.current hself hself
  have hfield' := h.apart.fields w.current next hself hnext
  have hroom := hcall.lower
  have hroom' := hcall.upper
  obtain ⟨hmem, hesp, heip, hedi, hesi, hebx, hebp⟩ := Cpu.run_contextSwitch
    (by omega) (by omega) hcall.old (hcall.new.trans hsp) (by omega) (by omega)
  -- the frame is neither on the stack of the current task nor in its record
  have hframe : ∀ i (hi : i < f.words.length),
      w.cpu.leave (espField w.current) (sp + 4 * i) = f.words[i] := by
    intro i hi
    rw [Cpu.leave_of_ne (by omega) (by omega) (by omega)]
    exact hwords i hi
  refine ⟨sp, hlo, htop, hhi, hmem, hesp, heip.trans (hframe 4 (by omega)),
    hedi.trans (hframe 0 (by omega)), hesi.trans (hframe 1 (by omega)),
    hebx.trans (hframe 2 (by omega)), hebp.trans (hframe 3 (by omega)), fun i hi ↦ ?_⟩
  rw [hmem]
  exact hframe i hi

theorem Sound.switch_mem (h : Sound w) (hcall : w.Calls next) :
    (w.switch next).cpu.mem = w.cpu.leave (espField w.current) := by
  obtain ⟨f, hf⟩ := Option.isSome_iff_exists.mp hcall.saved
  obtain ⟨-, -, -, -, hmem, -⟩ := h.called hcall hf (h.intact next f hf).1
  exact hmem

theorem World.has_of_switch (h : w.Calls next) (ht : (w.switch next).Has t) : w.Has t := by
  rcases ht with rfl | hsome
  · exact Or.inr h.saved
  · by_cases htn : t = next
    · exact Or.inr (htn ▸ h.saved)
    · by_cases htc : t = w.current
      · exact Or.inl htc
      · have hsame : (w.switch next).saved t = w.saved t :=
          (Function.update_of_ne htn _ _).trans (Function.update_of_ne htc _ _)
        rw [hsame] at hsome
        exact Or.inr hsome

/-- The task that has called `context_switch` is left with its registers. -/
theorem Sound.switch_self (h : Sound w) (hcall : w.Calls next) :
    (w.switch next).Intact w.current ⟨[w.cpu.reg .edi, w.cpu.reg .esi, w.cpu.reg .ebx,
      w.cpu.reg .ebp, w.cpu.mem w.cpu.esp], w.cpu.esp + 4⟩ := by
  have hself : w.Has w.current := Or.inl rfl
  have hfield := h.apart.fields w.current w.current hself hself
  have hroom := hcall.lower
  have hroom' := hcall.upper
  have hmem := h.switch_mem hcall
  refine ⟨w.cpu.esp - 16, ?_, ?_, ?_, ?_, ?_⟩
  · rw [hmem, Cpu.leave, Function.update_self]
  · change (w.stack w.current).1 ≤ w.cpu.esp - 16
    omega
  · simp only [List.length_cons, List.length_nil]
    omega
  · change w.cpu.esp + 4 ≤ (w.stack w.current).2
    omega
  · rw [hmem]
    have hedi : w.cpu.leave (espField w.current) (w.cpu.esp - 16) = w.cpu.reg .edi := by
      rw [Cpu.leave, Function.update_of_ne (by omega), Function.update_self]
    have hesi : w.cpu.leave (espField w.current) (w.cpu.esp - 12) = w.cpu.reg .esi := by
      rw [Cpu.leave, Function.update_of_ne (by omega), Function.update_of_ne (by omega),
        Function.update_self]
    have hebx : w.cpu.leave (espField w.current) (w.cpu.esp - 8) = w.cpu.reg .ebx := by
      rw [Cpu.leave, Function.update_of_ne (by omega), Function.update_of_ne (by omega),
        Function.update_of_ne (by omega), Function.update_self]
    have hebp : w.cpu.leave (espField w.current) (w.cpu.esp - 4) = w.cpu.reg .ebp := by
      rw [Cpu.leave, Function.update_of_ne (by omega), Function.update_of_ne (by omega),
        Function.update_of_ne (by omega), Function.update_of_ne (by omega), Function.update_self]
    have hret : w.cpu.leave (espField w.current) w.cpu.esp = w.cpu.mem w.cpu.esp :=
      Cpu.leave_of_ne (by omega) (by omega) (by omega)
    intro i hi
    simp only [List.length_cons, List.length_nil, Nat.reduceAdd] at hi
    have haddr : w.cpu.esp - 16 + 4 * 1 = w.cpu.esp - 12 ∧ w.cpu.esp - 16 + 4 * 2 = w.cpu.esp - 8 ∧
        w.cpu.esp - 16 + 4 * 3 = w.cpu.esp - 4 ∧ w.cpu.esp - 16 + 4 * 4 = w.cpu.esp := by omega
    interval_cases i
    · exact hedi
    · rw [haddr.1]
      exact hesi
    · rw [haddr.2.1]
      exact hebx
    · rw [haddr.2.2.1]
      exact hebp
    · rw [haddr.2.2.2]
      exact hret

theorem Sound.switch (h : Sound w) (hcall : w.Calls next) : Sound (w.switch next) := by
  have hhas := fun t ↦ World.has_of_switch (t := t) hcall
  have hself : w.Has w.current := Or.inl rfl
  have hmem := h.switch_mem hcall
  refine ⟨⟨fun t u ht hu ↦ h.apart.disjoint t u (hhas t ht) (hhas u hu),
    fun t u ht hu ↦ h.apart.fields t u (hhas t ht) (hhas u hu),
    fun t ht ↦ h.apart.upper t (hhas t ht)⟩, Function.update_self _ _ _, fun t f hf ↦ ?_⟩
  have htn : t ≠ next := by
    rintro rfl
    have hnone : (w.switch t).saved t = none := Function.update_self _ _ _
    rw [hnone] at hf
    cases hf
  have hf' := hf
  simp only [World.switch, Function.update_of_ne htn] at hf'
  by_cases htc : t = w.current
  · subst htc
    rw [Function.update_self] at hf'
    cases hf'
    exact ⟨by simp, h.switch_self hcall⟩
  · rw [Function.update_of_ne htc] at hf'
    obtain ⟨hlen, hintact⟩ := h.intact t f hf'
    have hthas := World.has_of_saved hf'
    have hdisj := h.apart.disjoint t w.current hthas hself htc
    have hfield := h.apart.fields t w.current hthas hself
    have hfield' := h.apart.fields w.current t hself hthas
    have hroom := hcall.lower
    have hroom' := hcall.upper
    refine ⟨hlen, hintact.congr rfl ?_ fun a hlo hhi ↦ ?_⟩
    · rw [hmem, Cpu.leave_of_ne (by omega) (by omega)]
      simp only [espField]
      omega
    · rw [hmem, Cpu.leave_of_ne (by omega) (by omega) (by omega)]

theorem Sound.step (h : Sound w) (hstep : Step K w w') : Sound w' := by
  cases hstep with
  | work cpu hmem => exact h.work hmem
  | create stack entry hnew hapart =>
      exact h.make (by simp) (by simp [taskStackSize]) hnew hapart
  | createUser kstack ustack entry hnew hapart =>
      exact h.make (by simp) (by simp [taskStackSize]) hnew hapart
  | reap ht => exact h.reap _
  | switch hcall => exact h.switch hcall

theorem Switching.sound (hrun : Switching K w) : Sound w := by
  induction hrun with
  | init hsaved hapart =>
      refine ⟨hapart, by rw [hsaved], fun t f hf ↦ ?_⟩
      rw [hsaved] at hf
      cases hf
  | step _ hstep ih => exact ih.step hstep

/-! ## Whole runs -/

theorem Step.saved_eq (hstep : Step K w w') (hcurrent : w.current ≠ t) (ht : w.Has t)
    (hcurrent' : w'.current ≠ t) (ht' : w'.Has t) : w'.saved t = w.saved t := by
  cases hstep with
  | work cpu hmem => rfl
  | create stack entry hnew hapart =>
      refine Function.update_of_ne ?_ _ _
      rintro rfl
      exact hnew ht
  | createUser kstack ustack entry hnew hapart =>
      refine Function.update_of_ne ?_ _ _
      rintro rfl
      exact hnew ht
  | reap hu =>
      refine Function.update_of_ne ?_ _ _
      rintro rfl
      rcases ht' with heq | hsome
      · exact hcurrent' heq.symm
      · have hnone : Function.update w.saved t none t = none := Function.update_self _ _ _
        simp only [hnone] at hsome
        cases hsome
  | switch hcall =>
      exact (Function.update_of_ne (Ne.symm hcurrent') _ _).trans
        (Function.update_of_ne (Ne.symm hcurrent) _ _)

theorem Away.saved_eq (haway : Away K t w w') (hcurrent : w.current ≠ t) (ht : w.Has t) :
    w'.saved t = w.saved t ∧ w'.current ≠ t ∧ w'.Has t := by
  induction haway with
  | refl => exact ⟨rfl, hcurrent, ht⟩
  | tail _ hstep ih =>
      obtain ⟨hsaved, hcur, hhas⟩ := ih
      exact ⟨(hstep.1.saved_eq hcur hhas hstep.2.1 hstep.2.2).trans hsaved, hstep.2.1, hstep.2.2⟩

theorem Switching.away (hrun : Switching K w) (haway : Away K t w w') : Switching K w' := by
  induction haway with
  | refl => exact hrun
  | tail _ hstep ih => exact ih.step hstep.1

theorem make_esp {stack : ℕ} {words : List ℕ} (hupper : stack + taskStackSize < 2 ^ 32)
    (hlen : 4 * words.length ≤ taskStackSize) :
    (w.make t stack words).cpu.mem (espField t) =
      Word.sub (Word.add stack taskStackSize) (4 * words.length) := by
  have htop : Word.add stack taskStackSize = stack + taskStackSize := Word.add_eq hupper
  obtain ⟨hsp, -⟩ := pushWords_spec w.cpu.mem words
    (show 4 * words.length ≤ stack + taskStackSize by omega) hupper
  rw [World.make, htop, Word.sub_eq (by omega) hupper]
  exact (Function.update_self _ _ _).trans hsp

/-- The stack pointer that `make` stores is the one in the records of the scheduler's model. -/
theorem kernelRecord_esp {stack id : ℕ} {name : List UInt8} {k : Task}
    (hupper : stack + taskStackSize < 2 ^ 32) (K : Code) (entry : ℕ) :
    (w.taskCreate K t stack entry).cpu.mem (espField t) =
      (Tasking.kernelRecord id name stack k).esp :=
  make_esp hupper (by simp [taskStackSize])

theorem userRecord_esp {kstack ustack id : ℕ} {name : List UInt8} {k : Task}
    (hupper : kstack + taskStackSize < 2 ^ 32) (K : Code) (entry : ℕ) :
    (w.taskCreateUser K t kstack ustack entry).cpu.mem (espField t) =
      (Tasking.userRecord id name kstack ustack k).esp :=
  make_esp hupper (by simp [taskStackSize])

theorem userStackTop_aligned (ustack : ℕ) : userStackTop ustack % 16 = 0 := by
  have hmask := Word.and_highMask (k := 4) (Word.add_lt ustack taskStackSize) (by norm_num)
  rw [userStackTop, show (0xFFFFFFF0 : ℕ) = 2 ^ 32 - 2 ^ 4 by norm_num, hmask]
  exact Nat.mul_mod_left _ _

/-- The processor is back behind a call of `context_switch` that was made in state `c`. -/
def Cpu.Resumes (c c' : Cpu) : Prop :=
  c'.eip = c.mem c.esp ∧ c'.reg .ebx = c.reg .ebx ∧ c'.reg .esi = c.reg .esi ∧
    c'.reg .edi = c.reg .edi ∧ c'.reg .ebp = c.reg .ebp ∧ c'.esp = c.esp + 4

/-- The processor is at `task_start_trampoline`, which calls `entry`. -/
def Cpu.Starts (K : Code) (entry : ℕ) (c : Cpu) : Prop :=
  c.eip = K.taskStartTrampoline ∧ (c.run (Sched.taskStartTrampoline K)).eip = entry ∧
    (c.run (Sched.taskStartTrampoline K)).mem (c.run (Sched.taskStartTrampoline K)).esp =
      K.afterEntry ∧
    (c.run (Sched.taskStartTrampoline K)).interrupts = true

/-- The processor is at `user_iret_trampoline`, which enters ring 3 at `entry`. -/
def Cpu.Enters (K : Code) (entry kernelStackTop ustack : ℕ) (c : Cpu) : Prop :=
  c.eip = K.userIretTrampoline ∧ c.userIretTrampoline =
    { eip := entry, cs := 0x1B, eflags := 0x202, esp := userStackTop ustack, ss := 0x23,
      kernelEsp := kernelStackTop, ds := 0x23, es := 0x23, fs := 0x23, gs := 0x23 }

theorem Sound.resumes (h : Sound w) (hcall : w.Calls t) {c : Cpu}
    (hf : w.saved t = some ⟨[c.reg .edi, c.reg .esi, c.reg .ebx, c.reg .ebp, c.mem c.esp],
      c.esp + 4⟩) : c.Resumes (w.switch t).cpu := by
  obtain ⟨sp, -, htop, -, -, hesp, heip, hedi, hesi, hebx, hebp, -⟩ := h.called hcall hf (by simp)
  refine ⟨heip, hebx, hesi, hedi, hebp, hesp.trans ?_⟩
  simp only [List.length_cons, List.length_nil] at htop
  omega

theorem Sound.starts (h : Sound w) (hcall : w.Calls t) {entry top : ℕ}
    (hf : w.saved t = some ⟨[0, 0, 0, 0, K.taskStartTrampoline, entry], top⟩) :
    (w.switch t).cpu.Starts K entry := by
  obtain ⟨sp, -, htop, hhi, -, hesp, heip, -, -, -, -, hframe⟩ := h.called hcall hf (by simp)
  have hupper := h.apart.upper t (World.has_of_saved hf)
  simp only [List.length_cons, List.length_nil] at htop hhi
  have hesp' : (w.switch t).cpu.esp = sp + 20 := hesp
  have hentry : (w.switch t).cpu.mem (sp + 20) = entry := hframe 5 (by simp)
  have hpop : Word.add (sp + 20) 4 = sp + 24 := Word.add_eq (by omega)
  have hpush : Word.sub (sp + 24) 4 = sp + 20 := Word.sub_eq (by omega) (by omega)
  have hrun : (w.switch t).cpu.run (Sched.taskStartTrampoline K) = { (w.switch t).cpu with
      reg := Function.update (w.switch t).cpu.reg .eax entry, eip := entry, interrupts := true,
      mem := Function.update (w.switch t).cpu.mem (sp + 20) K.afterEntry } := by
    simp only [Cpu.run, Sched.taskStartTrampoline, List.foldl_cons, List.foldl_nil, Cpu.exec,
      Cpu.push, Cpu.store, Cpu.setReg, Cpu.drop, hesp', hpop, hpush, hentry, Function.update_self]
  refine ⟨heip, ?_, ?_, ?_⟩
  · rw [hrun]
  · simp only [hrun, hesp', Function.update_self]
  · rw [hrun]

theorem Sound.enters (h : Sound w) (hcall : w.Calls t) {entry top ustack : ℕ}
    (hf : w.saved t = some ⟨[0, 0, 0, 0, K.userIretTrampoline, entry, gdtUcodeSel, 0x202,
      userStackTop ustack, gdtUdataSel], top⟩) :
    (w.switch t).cpu.Enters K entry top ustack := by
  obtain ⟨sp, -, htop, hhi, -, hesp, heip, -, -, -, -, hframe⟩ := h.called hcall hf (by simp)
  have hupper := h.apart.upper t (World.has_of_saved hf)
  simp only [List.length_cons, List.length_nil] at htop hhi
  have hesp' : (w.switch t).cpu.esp = sp + 20 := hesp
  have a₁ : Word.add (sp + 20) 4 = sp + 24 := Word.add_eq (by omega)
  have a₂ : Word.add (sp + 20) 8 = sp + 28 := Word.add_eq (by omega)
  have a₃ : Word.add (sp + 20) 12 = sp + 32 := Word.add_eq (by omega)
  have a₄ : Word.add (sp + 20) 16 = sp + 36 := Word.add_eq (by omega)
  have a₅ : Word.add (sp + 20) 20 = sp + 40 := Word.add_eq (by omega)
  have m₀ : (w.switch t).cpu.mem (sp + 20) = entry := hframe 5 (by simp)
  have m₁ : (w.switch t).cpu.mem (sp + 24) = gdtUcodeSel := hframe 6 (by simp)
  have m₂ : (w.switch t).cpu.mem (sp + 28) = 0x202 := hframe 7 (by simp)
  have m₃ : (w.switch t).cpu.mem (sp + 32) = userStackTop ustack := hframe 8 (by simp)
  have m₄ : (w.switch t).cpu.mem (sp + 36) = gdtUdataSel := hframe 9 (by simp)
  refine ⟨heip, ?_⟩
  simp only [Cpu.userIretTrampoline, hesp', a₁, a₂, a₃, a₄, a₅, m₀, m₁, m₂, m₃, m₄,
    UserEntry.mk.injEq, true_and, and_true]
  exact ⟨rfl, rfl, by omega⟩

/-- A task that was switched out is resumed where it was, with its registers, whatever the others
did in between.  The first switch to a new task calls its entry, or enters ring 3 there with the
kernel stack empty. -/
theorem contexts_preserved (hrun : Switching K w) :
    (∀ next w', w.Calls next → Away K w.current (w.switch next) w' → w'.Calls w.current →
      w.cpu.Resumes (w'.switch w.current).cpu) ∧
    (∀ t stack entry w', ¬w.Has t → (w.taskCreate K t stack entry).Apart →
      Away K t (w.taskCreate K t stack entry) w' → w'.Calls t →
      (w'.switch t).cpu.Starts K entry) ∧
    ∀ t kstack ustack entry w', ¬w.Has t → (w.taskCreateUser K t kstack ustack entry).Apart →
      Away K t (w.taskCreateUser K t kstack ustack entry) w' → w'.Calls t →
      (w'.switch t).cpu.Enters K entry (kstack + taskStackSize) ustack ∧
        userStackTop ustack % 16 = 0 := by
  refine ⟨fun next w' hcall haway hcall' ↦ ?_, fun t stack entry w' hnew hapart haway hcall' ↦ ?_,
    fun t kstack ustack entry w' hnew hapart haway hcall' ↦ ⟨?_, userStackTop_aligned ustack⟩⟩
  · have hsaved : (w.switch next).saved w.current = some ⟨[w.cpu.reg .edi, w.cpu.reg .esi,
        w.cpu.reg .ebx, w.cpu.reg .ebp, w.cpu.mem w.cpu.esp], w.cpu.esp + 4⟩ :=
      (Function.update_of_ne (Ne.symm hcall.ne) _ _).trans (Function.update_self _ _ _)
    obtain ⟨hkept, -, -⟩ := haway.saved_eq hcall.ne (World.has_of_saved hsaved)
    have hsound := ((hrun.step (.switch hcall)).away haway).sound
    exact hsound.resumes hcall' (hkept.trans hsaved)
  · have hsaved : (w.taskCreate K t stack entry).saved t =
        some ⟨[0, 0, 0, 0, K.taskStartTrampoline, entry], stack + taskStackSize⟩ :=
      Function.update_self _ _ _
    have hcurrent : (w.taskCreate K t stack entry).current ≠ t :=
      fun heq ↦ hnew (Or.inl heq.symm)
    obtain ⟨hkept, -, -⟩ := haway.saved_eq hcurrent (World.has_of_saved hsaved)
    have hsound := ((hrun.step (.create stack entry hnew hapart)).away haway).sound
    exact hsound.starts hcall' (hkept.trans hsaved)
  · have hsaved : (w.taskCreateUser K t kstack ustack entry).saved t =
        some ⟨[0, 0, 0, 0, K.userIretTrampoline, entry, gdtUcodeSel, 0x202, userStackTop ustack,
          gdtUdataSel], kstack + taskStackSize⟩ := Function.update_self _ _ _
    have hcurrent : (w.taskCreateUser K t kstack ustack entry).current ≠ t :=
      fun heq ↦ hnew (Or.inl heq.symm)
    obtain ⟨hkept, -, -⟩ := haway.saved_eq hcurrent (World.has_of_saved hsaved)
    have hsound := ((hrun.step (.createUser kstack ustack entry hnew hapart)).away haway).sound
    exact hsound.enters hcall' (hkept.trans hsaved)

/-! ## Two tasks -/

def lowCode : Code := ⟨0x3000, 0x3004, 0x3010⟩

/-- The boot task, about to switch to a task at `0x2000` with its stack at `0x10000`. -/
def bootWorld : World where
  cpu :=
    { reg := fun _ ↦ 7
      esp := 0x8800
      eip := 0
      interrupts := true
      mem := fun a ↦ if a = 0x8804 then espField 0x1000 else if a = 0x8808 then 0x13FE8 else 0 }
  current := 0x1000
  stack := fun _ ↦ (0x8000, 0x9000)
  saved := fun _ ↦ none

def twoTasks : World := bootWorld.taskCreate lowCode 0x2000 0x10000 0x5000

/-- The new task has called `context_switch` in its turn. -/
def backWorld : World :=
  { twoTasks.switch 0x2000 with
    cpu :=
      { reg := fun _ ↦ 9
        esp := 0x11000
        eip := 0
        interrupts := true
        mem := Function.update (Function.update (twoTasks.switch 0x2000).cpu.mem 0x11004
          (espField 0x2000)) 0x11008 ((twoTasks.switch 0x2000).cpu.mem (espField 0x1000)) } }

theorem bootWorld_has : bootWorld.Has t ↔ t = 0x1000 := by
  simp [World.Has, bootWorld]

theorem twoTasks_has (h : twoTasks.Has t) : t = 0x1000 ∨ t = 0x2000 := by
  rcases h with hcurrent | hsome
  · exact Or.inl hcurrent
  · refine Or.inr ?_
    by_contra hne
    have hnone : twoTasks.saved t = none := Function.update_of_ne hne _ _
    rw [hnone] at hsome
    cases hsome

theorem twoTasks_apart : twoTasks.Apart := by
  have hboot : twoTasks.stack 0x1000 = (0x8000, 0x9000) := rfl
  have hnew : twoTasks.stack 0x2000 = (0x10000, 0x14000) := rfl
  refine ⟨fun t u ht hu hne ↦ ?_, fun t u ht hu ↦ ?_, fun t ht ↦ ?_⟩
  · rcases twoTasks_has ht with rfl | rfl <;> rcases twoTasks_has hu with rfl | rfl <;>
      simp [hboot, hnew] at hne ⊢
  · rcases twoTasks_has ht with rfl | rfl <;> rcases twoTasks_has hu with rfl | rfl <;>
      simp [hboot, hnew, espField]
  · rcases twoTasks_has ht with rfl | rfl <;> simp [hboot, hnew]

theorem twoTasks_calls : twoTasks.Calls 0x2000 :=
  ⟨by decide, rfl, by decide +kernel, by decide +kernel, by decide, by decide⟩

theorem twoTasks_switching : Switching lowCode twoTasks := by
  have hboot : Switching lowCode bootWorld := by
    refine .init rfl ⟨fun t u ht hu hne ↦ ?_, fun t u ht hu ↦ ?_, fun t ht ↦ ?_⟩
    · exact absurd ((bootWorld_has.mp ht).trans (bootWorld_has.mp hu).symm) hne
    · rw [bootWorld_has.mp ht]
      simp [bootWorld, espField]
    · simp [bootWorld]
  refine hboot.step (.create 0x10000 0x5000 ?_ twoTasks_apart)
  rw [bootWorld_has]
  decide

theorem backWorld_away : Away lowCode 0x1000 (twoTasks.switch 0x2000) backWorld := by
  refine .single ⟨.work _ fun a ha ↦ ?_, by decide, Or.inr rfl⟩
  have hfar : a < 0x9000 := by
    rcases ha with ⟨t, ht, rfl⟩ | ⟨t, ht, hne, -, hhi⟩
    · rcases twoTasks_has (World.has_of_switch twoTasks_calls ht) with rfl | rfl <;>
        simp [espField]
    · rcases twoTasks_has (World.has_of_switch twoTasks_calls ht) with rfl | rfl
      · exact hhi
      · exact absurd rfl hne
  have hne₁ : a ≠ 0x11008 := by omega
  have hne₂ : a ≠ 0x11004 := by omega
  exact (Function.update_of_ne hne₁ _ _).trans (Function.update_of_ne hne₂ _ _)

theorem contexts_preserved_two : Switching lowCode twoTasks ∧ twoTasks.Calls 0x2000 ∧
    backWorld.Calls 0x1000 ∧ twoTasks.cpu.Resumes (backWorld.switch 0x1000).cpu := by
  have hback : backWorld.Calls 0x1000 :=
    ⟨by decide, rfl, by decide +kernel, by decide +kernel, by decide, by decide⟩
  obtain ⟨hresumes, -, -⟩ := contexts_preserved twoTasks_switching
  exact ⟨twoTasks_switching, twoTasks_calls, hback,
    hresumes 0x2000 backWorld twoTasks_calls backWorld_away hback⟩

end MyOS.Sched
