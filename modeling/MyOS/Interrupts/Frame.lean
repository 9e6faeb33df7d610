import MyOS.Interrupts.Descriptors
import MyOS.Sched.Context

/-!
# Interrupt frames

The stubs and `isr_common` of `isr_stubs.asm`, as a program for a processor with all the registers
that they save.  The processor itself pushes three or five words, a stub makes two more words of
the vector and the error code, `isr_common` pushes the rest and calls `isr_handler` with the
address of the frame, which C code reads as a `registers_t`.

On the way back everything is popped.  If nobody has written to the frame, the interrupted program
goes on with the registers it had.
-/

namespace MyOS.Interrupts

open Sched (pushWords pushWords_spec)

/-! ## The processor -/

inductive Reg where
  | eax
  | ecx
  | edx
  | ebx
  | ebp
  | esi
  | edi
  deriving DecidableEq

inductive Seg where
  | ds
  | es
  | fs
  | gs
  deriving DecidableEq

/-- All that a program can see of the processor. -/
@[ext]
structure Context where
  reg : Reg → ℕ
  seg : Seg → ℕ
  esp : ℕ
  ss : ℕ
  eip : ℕ
  cs : ℕ
  eflags : ℕ

/-- Memory is a function from the addresses of words to words. -/
structure Machine extends Context where
  mem : ℕ → ℕ

inductive Instr where
  /-- `push dword v` -/
  | pushImm (v : ℕ)
  | pusha
  | pushSeg (s : Seg)
  /-- `mov ax, v` -/
  | movAx (v : ℕ)
  /-- `mov s, ax` -/
  | movSeg (s : Seg)
  | pushEsp
  /-- `call`, with the address of the instruction behind it. -/
  | call (target after : ℕ)
  /-- `add esp, n` -/
  | addEsp (n : ℕ)
  | popSeg (s : Seg)
  | popa
  | iret

def clearBit (x k : ℕ) : ℕ := x - x / 2 ^ k % 2 * 2 ^ k

namespace Machine

variable (m : Machine)

def withStack (esp : ℕ) (mem : ℕ → ℕ) : Machine := { m with esp := esp, mem := mem }

def push (v : ℕ) : Machine :=
  m.withStack (Word.sub m.esp 4) (Function.update m.mem (Word.sub m.esp 4) v)

def pushAll (words : List ℕ) : Machine := words.foldl push m

def jump (target : ℕ) : Machine := { m with eip := target }

/-- The word `4 * i` above the stack pointer. -/
def word (i : ℕ) : ℕ := m.mem (Word.add m.esp (4 * i))

/-- A segment register on a return to ring `cpl`: it is cleared if the ring may not use it. -/
def keepSeg (T : Tables) (cpl sel : ℕ) : ℕ :=
  match T.segment sel with
  | none => sel
  | some d => if d.dpl < cpl ∧ ¬d.Conforming then 0 else sel

def iret (T : Tables) : Machine :=
  let k := { m with eip := m.word 0, cs := m.word 1, eflags := m.word 2 }
  if m.word 1 % 4 = m.cs % 4 then { k with esp := Word.add m.esp 12 }
  else
    { k with
      esp := m.word 3
      ss := m.word 4
      seg := fun s ↦ keepSeg T (m.word 1 % 4) (m.seg s) }

def exec (T : Tables) : Instr → Machine
  | .pushImm v => m.push v
  | .pusha => m.pushAll [m.reg .eax, m.reg .ecx, m.reg .edx, m.reg .ebx, m.esp, m.reg .ebp,
      m.reg .esi, m.reg .edi]
  | .pushSeg s => m.push (m.seg s)
  | .movAx v => { m with reg := Function.update m.reg .eax (m.reg .eax / 2 ^ 16 * 2 ^ 16 + v) }
  | .movSeg s => { m with seg := Function.update m.seg s (m.reg .eax % 2 ^ 16) }
  | .pushEsp => m.push m.esp
  | .call target after => (m.push after).jump target
  | .addEsp n => { m with esp := Word.add m.esp n }
  | .popSeg s => { m with
      seg := Function.update m.seg s (m.word 0)
      esp := Word.add m.esp 4 }
  | .popa => { m with
      reg := fun
        | .edi => m.word 0
        | .esi => m.word 1
        | .ebp => m.word 2
        -- the stack pointer is not popped
        | .ebx => m.word 4
        | .edx => m.word 5
        | .ecx => m.word 6
        | .eax => m.word 7
      esp := Word.add m.esp 32 }
  | .iret => m.iret T

def run (T : Tables) (p : List Instr) : Machine := p.foldl (fun m i ↦ m.exec T i) m

/-- The stack on which an interrupt is taken: a new one keeps the old stack pointer. -/
def changeStack : Option (ℕ × ℕ) → Machine
  | none => m
  | some (ss, esp) => { m with ss := ss, esp := esp }.pushAll [m.ss, m.esp]

/-- The flags in the handler: single steps are off in any case. -/
def handlerFlags (masks : Bool) : ℕ :=
  if masks then clearBit (clearBit m.eflags 8) 9 else clearBit m.eflags 8

/-- What the processor does when an interrupt enters the kernel. -/
def accept (cs eip : ℕ) (stack : Option (ℕ × ℕ)) (masks : Bool) (err : Option ℕ) : Machine :=
  { (m.changeStack stack).pushAll ([m.eflags, m.cs, m.eip] ++ err.toList) with
    cs := cs
    eip := eip
    eflags := m.handlerFlags masks }

end Machine

/-- The exceptions for which the processor pushes an error code. -/
def hasErrorCode (n : ℕ) : Bool := [8, 10, 11, 12, 13, 14, 17].contains n

/-! ## The code -/

/-- `ISR_NOERR` and `IRQ` -/
def isrNoErr (n : ℕ) : List Instr := [.pushImm 0, .pushImm n]

/-- `ISR_ERR` -/
def isrErr (n : ℕ) : List Instr := [.pushImm n]

/-- The stubs, in the order of `isr_stub_table`, up to the jump to `isr_common`; then `isr128`. -/
def isrStub : ℕ → List Instr
  | 8 => isrErr 8
  | 10 => isrErr 10
  | 11 => isrErr 11
  | 12 => isrErr 12
  | 13 => isrErr 13
  | 14 => isrErr 14
  | 17 => isrErr 17
  | n => isrNoErr n

/-- `isr_common` up to the call of `isr_handler`, which returns to `after`. -/
def isrCommonEntry (isrHandler after : ℕ) : List Instr :=
  [.pusha, .pushSeg .ds, .pushSeg .es, .pushSeg .fs, .pushSeg .gs, .movAx 0x10, .movSeg .ds,
    .movSeg .es, .movSeg .fs, .movSeg .gs, .pushEsp, .call isrHandler after]

/-- `isr_common` behind the call. -/
def isrCommonExit : List Instr :=
  [.addEsp 4, .popSeg .gs, .popSeg .fs, .popSeg .es, .popSeg .ds, .popa, .addEsp 8, .iret]

/-- `registers_t` -/
structure Registers where
  gs : ℕ
  fs : ℕ
  es : ℕ
  ds : ℕ
  edi : ℕ
  esi : ℕ
  ebp : ℕ
  esp : ℕ
  ebx : ℕ
  edx : ℕ
  ecx : ℕ
  eax : ℕ
  intNo : ℕ
  errCode : ℕ
  eip : ℕ
  cs : ℕ
  eflags : ℕ
  useresp : ℕ
  ss : ℕ

/-- The structure at address `f`. -/
def registersAt (mem : ℕ → ℕ) (f : ℕ) : Registers where
  gs := mem f
  fs := mem (f + 4)
  es := mem (f + 8)
  ds := mem (f + 12)
  edi := mem (f + 16)
  esi := mem (f + 20)
  ebp := mem (f + 24)
  esp := mem (f + 28)
  ebx := mem (f + 32)
  edx := mem (f + 36)
  ecx := mem (f + 40)
  eax := mem (f + 44)
  intNo := mem (f + 48)
  errCode := mem (f + 52)
  eip := mem (f + 56)
  cs := mem (f + 60)
  eflags := mem (f + 64)
  useresp := mem (f + 68)
  ss := mem (f + 72)

/-! ## Into the kernel -/

attribute [local irreducible] Word.add Word.sub

variable {T : Tables} {S : Stubs} {m k : Machine} {n err x a f tss esp0 isrHandler after : ℕ}

namespace Machine

theorem pushAll_pair (m : Machine) (words : List ℕ) :
    ((m.pushAll words).mem, (m.pushAll words).esp) = pushWords m.mem m.esp words := by
  induction words generalizing m with
  | nil => rfl
  | cons v words ih => exact ih (m.push v)

theorem pushAll_append (m : Machine) (words words' : List ℕ) :
    m.pushAll (words ++ words') = (m.pushAll words).pushAll words' := List.foldl_append

/-- The registers, in the order in which `isr_common` pushes them. -/
def savedRegs (m : Machine) : List ℕ :=
  [m.reg .eax, m.reg .ecx, m.reg .edx, m.reg .ebx, m.esp, m.reg .ebp, m.reg .esi, m.reg .edi,
    m.seg .ds, m.seg .es, m.seg .fs, m.seg .gs]

theorem jump_pair (m : Machine) (target : ℕ) :
    ((m.jump target).mem, (m.jump target).esp) = (m.mem, m.esp) := rfl

theorem pushAll_mem (m : Machine) (words : List ℕ) :
    (m.pushAll words).mem = (pushWords m.mem m.esp words).1 :=
  congrArg Prod.fst (pushAll_pair m words)

theorem pushAll_esp (m : Machine) (words : List ℕ) :
    (m.pushAll words).esp = (pushWords m.mem m.esp words).2 :=
  congrArg Prod.snd (pushAll_pair m words)

@[simp] theorem withStack_reg (m : Machine) (esp : ℕ) (mem : ℕ → ℕ) :
    (m.withStack esp mem).reg = m.reg := rfl

@[simp] theorem withStack_seg (m : Machine) (esp : ℕ) (mem : ℕ → ℕ) :
    (m.withStack esp mem).seg = m.seg := rfl

@[simp] theorem pushAll_reg (m : Machine) (words : List ℕ) : (m.pushAll words).reg = m.reg := by
  induction words generalizing m with
  | nil => rfl
  | cons v words ih => exact (ih (m.push v)).trans (m.withStack_reg _ _)

@[simp] theorem pushAll_seg (m : Machine) (words : List ℕ) : (m.pushAll words).seg = m.seg := by
  induction words generalizing m with
  | nil => rfl
  | cons v words ih => exact (ih (m.push v)).trans (m.withStack_seg _ _)

theorem run_append (m : Machine) (p q : List Instr) : m.run T (p ++ q) = (m.run T p).run T q :=
  List.foldl_append

theorem run_cons (m : Machine) (i : Instr) (p : List Instr) :
    m.run T (i :: p) = (m.exec T i).run T p := rfl

theorem run_pushSeg (m : Machine) (words : List ℕ) (s : Seg) (p : List Instr) :
    (m.pushAll words).run T (.pushSeg s :: p) = (m.pushAll (words ++ [m.seg s])).run T p := by
  rw [run_cons, exec, pushAll_seg, pushAll_append]
  rfl

/-- The data segments of the kernel. -/
def withKernelData (m : Machine) : Machine :=
  { m with
    reg := Function.update m.reg .eax (m.reg .eax / 2 ^ 16 * 2 ^ 16 + 0x10)
    seg := fun _ ↦ 0x10 }

theorem run_kernelData (m : Machine) :
    m.run T [.movAx 0x10, .movSeg .ds, .movSeg .es, .movSeg .fs, .movSeg .gs] =
      m.withKernelData := by
  have hax : (m.reg .eax / 2 ^ 16 * 2 ^ 16 + 0x10) % 2 ^ 16 = 0x10 := by omega
  simp only [run, List.foldl_cons, List.foldl_nil, exec, Function.update_self, hax,
    withKernelData]
  congr 2
  funext s
  cases s <;> rfl

/-- `isr_common` pushes the registers, then the address of the frame. -/
theorem run_isrCommonEntry (m : Machine) :
    m.run T (isrCommonEntry isrHandler after) =
      ((m.pushAll m.savedRegs).withKernelData.pushAll
        [(m.pushAll m.savedRegs).esp, after]).jump isrHandler := by
  have hpusha : m.exec T .pusha = m.pushAll [m.reg .eax, m.reg .ecx, m.reg .edx, m.reg .ebx,
      m.esp, m.reg .ebp, m.reg .esi, m.reg .edi] := rfl
  have hsplit : isrCommonEntry isrHandler after = [.pusha, .pushSeg .ds, .pushSeg .es,
      .pushSeg .fs, .pushSeg .gs] ++ ([.movAx 0x10, .movSeg .ds, .movSeg .es, .movSeg .fs,
      .movSeg .gs] ++ [.pushEsp, .call isrHandler after]) := rfl
  have hsaved : m.run T [.pusha, .pushSeg .ds, .pushSeg .es, .pushSeg .fs, .pushSeg .gs] =
      m.pushAll m.savedRegs := by
    rw [run_cons, hpusha, run_pushSeg, run_pushSeg, run_pushSeg, run_pushSeg]
    rfl
  rw [hsplit, run_append, run_append, run_kernelData, hsaved]
  rfl

/-! The frame, as it is pushed. -/

/-- What the processor pushes before the flags. -/
def oldStack : Option (ℕ × ℕ) → List ℕ
  | none => []
  | some _ => [m.ss, m.esp]

/-- The top of the frame. -/
def frameTop : Option (ℕ × ℕ) → ℕ
  | none => m.esp
  | some (_, esp) => esp

theorem changeStack_pair (m : Machine) (stack : Option (ℕ × ℕ)) :
    ((m.changeStack stack).mem, (m.changeStack stack).esp) =
      pushWords m.mem (m.frameTop stack) (m.oldStack stack) := by
  cases stack with
  | none => rfl
  | some s => exact pushAll_pair _ _

theorem pushWords_pushWords (mem : ℕ → ℕ) (sp : ℕ) (words words' : List ℕ) :
    pushWords (pushWords mem sp words).1 (pushWords mem sp words).2 words' =
      pushWords mem sp (words ++ words') := List.foldl_append.symm

theorem run_isrStub (m : Machine) (n : ℕ) :
    m.run T (isrStub n) = m.pushAll (if hasErrorCode n then [n] else [0, n]) := by
  unfold isrStub
  split
  case h_8 h₁ h₂ h₃ h₄ h₅ h₆ h₇ =>
    have hno : hasErrorCode n = false := by
      simpa [hasErrorCode] using ⟨h₁, h₂, h₃, h₄, h₅, h₆, h₇⟩
    rw [hno]
    rfl
  all_goals rfl

/-- What is on the stack when the stub jumps to `isr_common`. -/
def stubWords (m : Machine) (stack : Option (ℕ × ℕ)) (n err : ℕ) : List ℕ :=
  m.oldStack stack ++ [m.eflags, m.cs, m.eip, err, n]

theorem accept_mem (m : Machine) (cs eip : ℕ) (stack : Option (ℕ × ℕ)) (masks : Bool)
    (err : Option ℕ) : (m.accept cs eip stack masks err).mem =
      ((m.changeStack stack).pushAll ([m.eflags, m.cs, m.eip] ++ err.toList)).mem := rfl

theorem accept_esp (m : Machine) (cs eip : ℕ) (stack : Option (ℕ × ℕ)) (masks : Bool)
    (err : Option ℕ) : (m.accept cs eip stack masks err).esp =
      ((m.changeStack stack).pushAll ([m.eflags, m.cs, m.eip] ++ err.toList)).esp := rfl

theorem run_stub_pair (m : Machine) (cs eip : ℕ) (stack : Option (ℕ × ℕ)) (masks : Bool)
    {err : Option ℕ} (herr : err.isSome = hasErrorCode n) :
    (((m.accept cs eip stack masks err).run T (isrStub n)).mem,
      ((m.accept cs eip stack masks err).run T (isrStub n)).esp) =
        pushWords m.mem (m.frameTop stack) (m.stubWords stack n (err.getD 0)) := by
  have hmem : (m.changeStack stack).mem = (pushWords m.mem (m.frameTop stack)
      (m.oldStack stack)).1 := congrArg Prod.fst (changeStack_pair m stack)
  have hesp : (m.changeStack stack).esp = (pushWords m.mem (m.frameTop stack)
      (m.oldStack stack)).2 := congrArg Prod.snd (changeStack_pair m stack)
  rw [run_isrStub, pushAll_pair, accept_mem, accept_esp, pushAll_mem, pushAll_esp, hmem, hesp,
    pushWords_pushWords, pushWords_pushWords, stubWords, List.append_assoc]
  congr 2
  cases err with
  | none => simp [← herr]
  | some e => simp [← herr]

@[simp] theorem accept_reg (m : Machine) (cs eip : ℕ) (stack : Option (ℕ × ℕ)) (masks : Bool)
    (err : Option ℕ) : (m.accept cs eip stack masks err).reg = m.reg := by
  cases stack with
  | none => exact pushAll_reg _ _
  | some s => exact (pushAll_reg _ _).trans (pushAll_reg _ _)

@[simp] theorem accept_seg (m : Machine) (cs eip : ℕ) (stack : Option (ℕ × ℕ)) (masks : Bool)
    (err : Option ℕ) : (m.accept cs eip stack masks err).seg = m.seg := by
  cases stack with
  | none => exact pushAll_seg _ _
  | some s => exact (pushAll_seg _ _).trans (pushAll_seg _ _)

/-- All that is pushed before `isr_handler` is called with its address.  The stack pointer that
`pusha` saves is `sp`. -/
def frameWords (m : Machine) (stack : Option (ℕ × ℕ)) (n err sp : ℕ) : List ℕ :=
  m.stubWords stack n err ++ [m.reg .eax, m.reg .ecx, m.reg .edx, m.reg .ebx, sp, m.reg .ebp,
    m.reg .esi, m.reg .edi, m.seg .ds, m.seg .es, m.seg .fs, m.seg .gs]

/-- The processor at the first instruction of `isr_handler`. -/
def enterHandler (m : Machine) (T : Tables) (cs eip : ℕ) (stack : Option (ℕ × ℕ)) (masks : Bool)
    (err : Option ℕ) (n isrHandler after : ℕ) : Machine :=
  (m.accept cs eip stack masks err).run T (isrStub n ++ isrCommonEntry isrHandler after)

theorem enterHandler_pair (m : Machine) (T : Tables) (cs eip : ℕ) (stack : Option (ℕ × ℕ))
    (masks : Bool) {err : Option ℕ} (herr : err.isSome = hasErrorCode n) (isrHandler after : ℕ) :
    ∃ sp,
    ((m.enterHandler T cs eip stack masks err n isrHandler after).mem,
      (m.enterHandler T cs eip stack masks err n isrHandler after).esp) =
        pushWords m.mem (m.frameTop stack) (m.frameWords stack n (err.getD 0) sp ++
          [(pushWords m.mem (m.frameTop stack) (m.frameWords stack n (err.getD 0) sp)).2,
            after]) := by
  have hpair := run_stub_pair m cs eip stack masks (T := T) herr
  have hreg : ((m.accept cs eip stack masks err).run T (isrStub n)).reg = m.reg := by
    rw [run_isrStub, pushAll_reg, accept_reg]
  have hseg : ((m.accept cs eip stack masks err).run T (isrStub n)).seg = m.seg := by
    rw [run_isrStub, pushAll_seg, accept_seg]
  rw [enterHandler, run_append, run_isrCommonEntry]
  generalize (m.accept cs eip stack masks err).run T (isrStub n) = k at hpair hreg hseg ⊢
  have hmem : k.mem = (pushWords m.mem (m.frameTop stack) (m.stubWords stack n (err.getD 0))).1 :=
    congrArg Prod.fst hpair
  have hesp : k.esp = (pushWords m.mem (m.frameTop stack) (m.stubWords stack n (err.getD 0))).2 :=
    congrArg Prod.snd hpair
  have hsaved : k.savedRegs = [m.reg .eax, m.reg .ecx, m.reg .edx, m.reg .ebx, k.esp, m.reg .ebp,
      m.reg .esi, m.reg .edi, m.seg .ds, m.seg .es, m.seg .fs, m.seg .gs] := by
    rw [savedRegs, hreg, hseg]
  have hstack : ((k.pushAll k.savedRegs).mem, (k.pushAll k.savedRegs).esp) =
      pushWords m.mem (m.frameTop stack) (m.frameWords stack n (err.getD 0) k.esp) := by
    rw [pushAll_pair, hmem, hesp, pushWords_pushWords, ← hesp, hsaved]
    rfl
  have hmem' := congrArg Prod.fst hstack
  have hesp' := congrArg Prod.snd hstack
  refine ⟨k.esp, ?_⟩
  have hkeep : (k.pushAll k.savedRegs).withKernelData.mem = (k.pushAll k.savedRegs).mem ∧
      (k.pushAll k.savedRegs).withKernelData.esp = (k.pushAll k.savedRegs).esp := ⟨rfl, rfl⟩
  rw [jump_pair, pushAll_pair, hkeep.1, hkeep.2, ← pushWords_pushWords, ← hstack]

end Machine

namespace Registers

variable (r : Registers)

def words : List ℕ :=
  [r.gs, r.fs, r.es, r.ds, r.edi, r.esi, r.ebp, r.esp, r.ebx, r.edx, r.ecx, r.eax, r.intNo,
    r.errCode, r.eip, r.cs, r.eflags, r.useresp, r.ss]

def reg : Reg → ℕ
  | .eax => r.eax
  | .ecx => r.ecx
  | .edx => r.edx
  | .ebx => r.ebx
  | .ebp => r.ebp
  | .esi => r.esi
  | .edi => r.edi

def seg : Seg → ℕ
  | .ds => r.ds
  | .es => r.es
  | .fs => r.fs
  | .gs => r.gs

end Registers

/-- The nineteen words at `f` make the structure. -/
theorem registersAt_eq {mem : ℕ → ℕ} {r : Registers}
    (h : ∀ i < 19, mem (f + 4 * i) = r.words.getD i 0) : registersAt mem f = r := by
  obtain ⟨gs, fs, es, ds, edi, esi, ebp, esp, ebx, edx, ecx, eax, n, err, eip, cs, eflags, useresp,
    ss⟩ := r
  rw [registersAt, Registers.mk.injEq]
  exact ⟨h 0 (by decide), h 1 (by decide), h 2 (by decide), h 3 (by decide), h 4 (by decide),
    h 5 (by decide), h 6 (by decide), h 7 (by decide), h 8 (by decide), h 9 (by decide),
    h 10 (by decide), h 11 (by decide), h 12 (by decide), h 13 (by decide), h 14 (by decide),
    h 15 (by decide), h 16 (by decide), h 17 (by decide), h 18 (by decide)⟩

/-- `regs->eax = x;` -/
def Registers.withEax (r : Registers) (x : ℕ) : Registers := { r with eax := x }

/-- The last two words, which the processor pushes only if the ring changes. -/
def Registers.withTail (r : Registers) (useresp ss : ℕ) : Registers :=
  { r with useresp := useresp, ss := ss }

/-- The frame of an interrupt in state `m`.  Without a change of stacks the last two words are
those on the interrupted stack. -/
def Machine.frame (m : Machine) (stack : Option (ℕ × ℕ)) (n err sp : ℕ) : Registers where
  gs := m.seg .gs
  fs := m.seg .fs
  es := m.seg .es
  ds := m.seg .ds
  edi := m.reg .edi
  esi := m.reg .esi
  ebp := m.reg .ebp
  esp := sp
  ebx := m.reg .ebx
  edx := m.reg .edx
  ecx := m.reg .ecx
  eax := m.reg .eax
  intNo := n
  errCode := err
  eip := m.eip
  cs := m.cs
  eflags := m.eflags
  useresp := if stack.isSome then m.esp else m.mem m.esp
  ss := if stack.isSome then m.ss else m.mem (m.esp + 4)

namespace Machine

/-- The size of the frame that is pushed. -/
def frameSize (stack : Option (ℕ × ℕ)) : ℕ := if stack.isSome then 76 else 68

theorem frameWords_length (m : Machine) (stack : Option (ℕ × ℕ)) (n err sp : ℕ) :
    4 * (m.frameWords stack n err sp).length = frameSize stack := by
  cases stack <;> rfl

theorem frameWords_reverse (m : Machine) (stack : Option (ℕ × ℕ)) (n err sp : ℕ) {i : ℕ}
    (hi : i < (m.frameWords stack n err sp).length) :
    (m.frameWords stack n err sp).reverse.getD i 0 = (m.frame stack n err sp).words.getD i 0 := by
  cases stack with
  | none =>
      have hlt : i < 17 := hi
      interval_cases i <;> rfl
  | some s => rfl

/-- Two more words below the words of a frame at `f`. -/
theorem pushWords_frame {top : ℕ} (mem : ℕ → ℕ) (words : List ℕ) (y z : ℕ) (hf : 8 ≤ f)
    (htop : f + 4 * words.length = top) (hhi : top < 2 ^ 32) :
    (pushWords mem top (words ++ [y, z])).2 = f - 8 ∧
      (pushWords mem top (words ++ [y, z])).1 (f - 4) = y ∧
      (∀ i < words.length,
        (pushWords mem top (words ++ [y, z])).1 (f + 4 * i) = words.reverse.getD i 0) ∧
      ∀ a, a < f - 8 ∨ top ≤ a → (pushWords mem top (words ++ [y, z])).1 a = mem a := by
  have hlen : (words ++ [y, z]).length = words.length + 2 := List.length_append
  have hrev : (words ++ [y, z]).reverse = z :: y :: words.reverse := List.reverse_append
  obtain ⟨hsp, hwords, hrest⟩ := pushWords_spec mem (words ++ [y, z])
    (show 4 * (words ++ [y, z]).length ≤ top by omega) hhi
  rw [hlen] at hsp hrest
  simp only [hrev, hlen] at hwords
  refine ⟨by omega, ?_, fun i hi ↦ ?_, fun a ha ↦ hrest a (by omega)⟩
  · have hone := hwords 1 (by simp)
    rwa [show top - 4 * (words.length + 2) + 4 * 1 = f - 4 by omega] at hone
  · have hword := hwords (i + 2) (by simpa using hi)
    rw [show top - 4 * (words.length + 2) + 4 * (i + 2) = f + 4 * i by omega] at hword
    have hin : i < words.reverse.length := by simpa using hi
    rw [hword, List.getD_eq_getElem?_getD, List.getElem?_eq_getElem hin]
    rfl

/-- What `isr_handler` finds: its argument, the frame below the top of the stack, and everything
else as it was. -/
theorem enterHandler_spec (m : Machine) (T : Tables) (cs eip : ℕ) (stack : Option (ℕ × ℕ))
    (masks : Bool) {err : Option ℕ} (herr : err.isSome = hasErrorCode n) (isrHandler after : ℕ)
    (hf : 8 ≤ f) (htop : f + frameSize stack = m.frameTop stack) (hhi : f + 76 < 2 ^ 32) :
    (m.enterHandler T cs eip stack masks err n isrHandler after).esp = f - 8 ∧
      (m.enterHandler T cs eip stack masks err n isrHandler after).mem (f - 4) = f ∧
      (∃ sp, registersAt (m.enterHandler T cs eip stack masks err n isrHandler after).mem f =
        m.frame stack n (err.getD 0) sp) ∧
      ∀ a, a < f - 8 ∨ f + frameSize stack ≤ a →
        (m.enterHandler T cs eip stack masks err n isrHandler after).mem a = m.mem a := by
  obtain ⟨sp, hpair⟩ := enterHandler_pair m T cs eip stack masks herr isrHandler after
  generalize m.enterHandler T cs eip stack masks err n isrHandler after = k at hpair ⊢
  have hlen := frameWords_length m stack n (err.getD 0) sp
  have hsize : frameSize stack ≤ 76 := by
    rw [frameSize]
    split <;> omega
  have hframe : (pushWords m.mem (m.frameTop stack) (m.frameWords stack n (err.getD 0) sp)).2 =
      f := by
    obtain ⟨hsp, -⟩ := pushWords_spec m.mem (m.frameWords stack n (err.getD 0) sp)
      (show _ ≤ m.frameTop stack by omega) (by omega)
    omega
  rw [hframe] at hpair
  obtain ⟨hsp, harg, hwords, hrest⟩ := pushWords_frame m.mem
    (m.frameWords stack n (err.getD 0) sp) f after hf (hlen.symm ▸ htop) (by omega)
  rw [← hpair] at hsp harg hwords hrest
  refine ⟨hsp, harg, ⟨sp, registersAt_eq fun i hi ↦ ?_⟩, fun a ha ↦ hrest a (by omega)⟩
  by_cases hin : i < (m.frameWords stack n (err.getD 0) sp).length
  · exact (hwords i hin).trans (frameWords_reverse m stack n _ sp hin)
  · -- the words above a frame without a change of stacks
    cases stack with
    | some s => exact absurd hi hin
    | none =>
        have htop' : f + 68 = m.esp := htop
        have hseventeen : ¬i < 17 := hin
        refine (hrest (f + 4 * i) (Or.inr (by omega))).trans ?_
        have hcases : i = 17 ∨ i = 18 := by omega
        rcases hcases with rfl | rfl
        · exact congrArg m.mem htop'
        · exact congrArg m.mem (show f + 72 = m.esp + 4 by omega)

end Machine

/-! ## Back -/

/-- The registers of a program that is resumed from a frame in its own ring. -/
def Registers.context (r : Registers) (esp ss : ℕ) : Context :=
  ⟨r.reg, r.seg, esp, ss, r.eip, r.cs, r.eflags⟩

namespace Machine

/-- The pops of `isr_common`, up to the two words of the stub. -/
theorem run_pops (hesp : k.esp + 4 = f) (hhi : f + 76 < 2 ^ 32) :
    k.run T [.addEsp 4, .popSeg .gs, .popSeg .fs, .popSeg .es, .popSeg .ds, .popa, .addEsp 8] =
      { k with
        reg := (registersAt k.mem f).reg
        seg := (registersAt k.mem f).seg
        esp := f + 56 } := by
  have e₀ : Word.add k.esp 4 = f := by rw [Word.add_eq (by omega), hesp]
  have e₁ : Word.add f 4 = f + 4 := Word.add_eq (by omega)
  have e₂ : Word.add (f + 4) 4 = f + 8 := Word.add_eq (by omega)
  have e₃ : Word.add (f + 8) 4 = f + 12 := Word.add_eq (by omega)
  have e₄ : Word.add (f + 12) 4 = f + 16 := Word.add_eq (by omega)
  have e₅ : Word.add (f + 16) 32 = f + 48 := Word.add_eq (by omega)
  have e₆ : Word.add (f + 48) 8 = f + 56 := Word.add_eq (by omega)
  have hword : ∀ b i, b ≤ f + 16 → i ≤ 7 → Word.add b (4 * i) = b + 4 * i :=
    fun b i hb hi ↦ Word.add_eq (by omega)
  simp only [run, List.foldl_cons, List.foldl_nil, exec, word, e₀, e₁, e₂, e₃, e₄, e₅, e₆]
  congr 2
  · funext r
    cases r
    all_goals exact congrArg k.mem (hword _ _ (by omega) (by omega))
  · funext s
    cases s
    all_goals exact congrArg k.mem (hword _ 0 (by omega) (by omega))

/-- What `isr_common` leaves behind the call of `isr_handler`, by the ring that it returns to. -/
theorem run_isrCommonExit (hesp : k.esp + 4 = f) (hhi : f + 76 < 2 ^ 32) :
    (k.run T isrCommonExit).toContext =
      if (registersAt k.mem f).cs % 4 = k.cs % 4 then
        (registersAt k.mem f).context (f + 68) k.ss
      else
        { (registersAt k.mem f).context (registersAt k.mem f).useresp (registersAt k.mem f).ss with
          seg := fun s ↦
            keepSeg T ((registersAt k.mem f).cs % 4) ((registersAt k.mem f).seg s) } := by
  have hsplit : isrCommonExit = [.addEsp 4, .popSeg .gs, .popSeg .fs, .popSeg .es, .popSeg .ds,
      .popa, .addEsp 8] ++ [.iret] := rfl
  have hword : ∀ i, i ≤ 4 → Word.add (f + 56) (4 * i) = f + 56 + 4 * i :=
    fun i hi ↦ Word.add_eq (by omega)
  rw [hsplit, run_append, run_pops hesp hhi]
  simp only [run, List.foldl_cons, List.foldl_nil, exec, iret, word, hword 0 (by omega),
    hword 1 (by omega), hword 2 (by omega), hword 3 (by omega), hword 4 (by omega)]
  by_cases hring : (registersAt k.mem f).cs % 4 = k.cs % 4
  · rw [if_pos hring]
    exact congrArg toContext (if_pos hring)
  · rw [if_neg hring]
    exact congrArg toContext (if_neg hring)

theorem keepSeg_of_loads {cpl sel : ℕ} (h : T.Loads cpl sel) : keepSeg T cpl sel = sel := by
  rcases h with hnull | ⟨d, hd, -, -, hallowed⟩
  · have hnone : T.segment sel = none := if_neg (by omega)
    rw [keepSeg, hnone]
  · rw [keepSeg, hd]
    refine if_neg fun hno ↦ ?_
    rcases hallowed with hconf | ⟨hdpl, -⟩
    · exact hno.2 hconf
    · omega

/-- The interrupted program goes on with its registers, but for a new `eax`. -/
def returned (m : Machine) (eax : ℕ) : Context :=
  { m.toContext with reg := Function.update m.reg .eax eax }

theorem frame_reg (m : Machine) (stack : Option (ℕ × ℕ)) (n err sp x u s : ℕ) :
    (((m.frame stack n err sp).withEax x).withTail u s).reg = Function.update m.reg .eax x := by
  funext r
  cases r <;> rfl

theorem frame_seg (m : Machine) (stack : Option (ℕ × ℕ)) (n err sp x u s : ℕ) :
    (((m.frame stack n err sp).withEax x).withTail u s).seg = m.seg := by
  funext s
  cases s <;> rfl

/-- From a frame in which only `eax` has changed `isr_common` returns to the program. -/
theorem run_isrCommonExit_frame {stack : Option (ℕ × ℕ)} {sp u s : ℕ} (hesp : k.esp + 4 = f)
    (hhi : f + 76 < 2 ^ 32) (hk : k.cs % 4 = 0)
    (hframe : registersAt k.mem f = ((m.frame stack n err sp).withEax x).withTail u s)
    (huser : m.cs % 4 ≠ 0 → u = m.esp ∧ s = m.ss ∧ ∀ s, T.Loads (m.cs % 4) (m.seg s))
    (hkernel : m.cs % 4 = 0 → m.esp = f + 68 ∧ m.ss = k.ss) :
    (k.run T isrCommonExit).toContext = m.returned x := by
  have hcs : (((m.frame stack n err sp).withEax x).withTail u s).cs = m.cs := rfl
  rw [run_isrCommonExit hesp hhi, hframe, hk, hcs, frame_seg]
  by_cases hring : m.cs % 4 = 0
  · obtain ⟨hm, hss⟩ := hkernel hring
    rw [if_pos hring, Registers.context, frame_reg, frame_seg, ← hm, ← hss]
    rfl
  · obtain ⟨rfl, rfl, hsegs⟩ := huser hring
    have hkeep : (fun s ↦ keepSeg T (m.cs % 4) (m.seg s)) = m.seg :=
      funext fun s ↦ keepSeg_of_loads (hsegs s)
    rw [if_neg hring, Registers.context, frame_reg, frame_seg, hkeep]
    rfl

end Machine

end MyOS.Interrupts
