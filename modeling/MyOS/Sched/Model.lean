import MyOS.Elf.Model

/-!
# Tasks

The scheduler of `task.c` keeps its tasks on a ring through `next`, with `g_current` on it.
Task records, stacks and images are blocks of the kernel heap; a record is modelled as a cell
at its address.  What the stacks contain is left out, and so are the entry points that go
there.  A section between `cli` and `sti` is one step.

A loop along `next` is given `2 ^ 32` steps, as those of the heap are.
-/

namespace MyOS.Sched

open Heap Elf

inductive TaskState where
  | ready
  | running
  | zombie
  deriving DecidableEq

structure Task where
  id : ℕ
  name : List UInt8
  state : TaskState
  esp : ℕ
  stackBase : ℕ
  stackSize : ℕ
  kernelStackTop : ℕ
  isUser : Bool
  userStackBase : ℕ
  image : Option UserImage
  ticksRun : ℕ
  sliceLeft : ℕ
  next : ℕ

/-- What happened to tasks: one came on the ring, one was reaped while another was current, one
in some state was made current. -/
inductive Event where
  | create (t : ℕ)
  | reap (t current : ℕ)
  | resume (t : ℕ) (state : TaskState)

/-- The variables of `task.c`, the memory that it uses and `esp0` of the TSS.  `events` and
`unloads` are no state of the kernel: they record what happened and the images that `elf_unload`
was called with, the last one first. -/
structure Tasking where
  sys : Sys
  tasks : ℕ → Task
  current : ℕ
  active : Bool
  needResched : Bool
  nextId : ℕ
  esp0 : ℕ
  events : List Event
  unloads : List UserImage

def taskNameLen : ℕ := 16

def taskStackSize : ℕ := 0x4000

def taskTimeSlice : ℕ := 5

/-- `sizeof(task_t)`: twelve words and a name. -/
def taskSize : ℕ := 64

def strCopyN (src : List UInt8) (max : ℕ) : List UInt8 := (src.take (max - 1)).takeWhile (· ≠ 0)

namespace Tasking

variable (s : Tasking) (t : ℕ)

def next : ℕ := (s.tasks t).next

/-- Change the record at `t`. -/
def modify (f : Task → Task) : Tasking :=
  { s with tasks := Function.update s.tasks t (f (s.tasks t)) }

def setNext (n : ℕ) : Tasking := s.modify t fun k ↦ { k with next := n }

def setHeap (h : Kheap) : Tasking := { s with sys := { s.sys with heap := h } }

def log (e : Event) : Tasking := { s with events := e :: s.events }

def free (p : ℕ) : Outcome Tasking := do
  let h ← kfree s.sys.heap p
  .done (s.setHeap h)

/-- `if (p) kfree(p);` -/
def freeIf (p : ℕ) : Outcome Tasking := if p ≠ 0 then s.free p else .done s

def readyInsertAfterCurrent : Tasking :=
  let s := s.setNext t (s.next s.current)
  s.setNext s.current t

def readyRemoveLoop : ℕ → ℕ → Outcome ℕ
  | 0, _ => .spin
  | fuel + 1, p => if s.next p ≠ t then readyRemoveLoop fuel (s.next p) else .done p

/-- `ready_remove`, for a task that is not current. -/
def readyRemove : Outcome Tasking := do
  let p ← s.readyRemoveLoop t walkFuel (s.next t)
  .done (s.setNext p (s.next t))

/-- A call of `elf_unload`. -/
def unload (T : Tables) (image : UserImage) : Outcome Tasking := do
  let sys ← elfUnload T s.sys image
  .done { s with sys := sys, unloads := image :: s.unloads }

def unloadImage (T : Tables) : Outcome Tasking :=
  match (s.tasks t).image with
  | none => .done s
  | some image => s.unload T image

def reap (T : Tables) : Outcome Tasking := do
  let s := s.log (.reap t s.current)
  let s ← s.readyRemove t
  let s ← s.unloadImage t T
  let s ← s.freeIf (s.tasks t).stackBase
  let s ← s.freeIf (s.tasks t).userStackBase
  s.free t

/-! ## Creation -/

def taskingInit : Outcome Tasking := do
  let r ← kmalloc s.sys.heap taskSize
  let boot := r.1
  let s := s.setHeap r.2
  if boot = 0 then .halt "\nTASK PANIC: tasking_init: kmalloc failed\n"
  else
    let s := s.modify boot fun _ ↦
      { id := s.nextId
        name := strCopyN [0x62, 0x6F, 0x6F, 0x74] taskNameLen
        state := .running
        esp := 0
        stackBase := 0
        stackSize := 0
        kernelStackTop := 0
        isUser := false
        userStackBase := 0
        image := none
        ticksRun := 0
        sliceLeft := taskTimeSlice
        next := boot }
    .done ({ s with nextId := Word.add s.nextId 1, current := boot, active := true }.log
      (.create boot))

/-- The end of `task_create` and `task_create_user`, between `cli` and `sti`. -/
def enqueue : Tasking :=
  if s.active = false then
    ({ s.setNext t t with current := t, active := true }).log (.create t)
  else (s.readyInsertAfterCurrent t).log (.create t)

/-- What `task_create` writes to its record; `esp` is left below two addresses and four words. -/
def kernelRecord (id : ℕ) (name : List UInt8) (stack : ℕ) (k : Task) : Task where
  id := id
  name := strCopyN name taskNameLen
  state := .ready
  esp := Word.sub (Word.add stack taskStackSize) 24
  stackBase := stack
  stackSize := taskStackSize
  kernelStackTop := Word.add stack taskStackSize
  isUser := false
  userStackBase := 0
  image := none
  ticksRun := 0
  sliceLeft := taskTimeSlice
  next := k.next

/-- `task_create` returns the new task, `0` for `NULL`. -/
def taskCreate (name : List UInt8) : Outcome (ℕ × Tasking) := do
  let r ← kmalloc s.sys.heap taskSize
  let t := r.1
  let s := s.setHeap r.2
  if t = 0 then .done (0, s)
  else
    let r ← kmalloc s.sys.heap taskStackSize
    let stack := r.1
    let s := s.setHeap r.2
    if stack = 0 then do
      let s ← s.free t
      .done (0, s)
    else
      let s := s.modify t (kernelRecord s.nextId name stack)
      .done (t, { s with nextId := Word.add s.nextId 1 }.enqueue t)

/-- What `task_create_user` writes to its record; `esp` is left below the frame of `iret`, an
address and four words. -/
def userRecord (id : ℕ) (name : List UInt8) (kstack ustack : ℕ) (k : Task) : Task where
  id := id
  name := strCopyN name taskNameLen
  state := .ready
  esp := Word.sub (Word.add kstack taskStackSize) 40
  stackBase := kstack
  stackSize := taskStackSize
  kernelStackTop := Word.add kstack taskStackSize
  isUser := true
  userStackBase := ustack
  image := none
  ticksRun := 0
  sliceLeft := taskTimeSlice
  next := k.next

def taskCreateUser (name : List UInt8) : Outcome (ℕ × Tasking) := do
  let r ← kmalloc s.sys.heap taskSize
  let t := r.1
  let s := s.setHeap r.2
  if t = 0 then .done (0, s)
  else
    let r ← kmalloc s.sys.heap taskStackSize
    let kstack := r.1
    let s := s.setHeap r.2
    let r ← kmalloc s.sys.heap taskStackSize
    let ustack := r.1
    let s := s.setHeap r.2
    if kstack = 0 ∨ ustack = 0 then do
      let s ← s.freeIf kstack
      let s ← s.freeIf ustack
      let s ← s.free t
      .done (0, s)
    else
      let s := s.modify t (userRecord s.nextId name kstack ustack)
      .done (t, { s with nextId := Word.add s.nextId 1 }.enqueue t)

def taskCreateUserImage (name : List UInt8) (image : Option UserImage) : Outcome (ℕ × Tasking) :=
  match image with
  | none => .done (0, s)
  | some image => do
      let r ← s.taskCreateUser name
      if r.1 = 0 then .done (0, r.2)
      else .done (r.1, r.2.modify r.1 fun k ↦ { k with image := some image })

/-! ## Switching -/

/-- The section of `task_exit` before it yields. -/
def taskExit : Tasking := s.modify s.current fun k ↦ { k with state := .zombie }

def pickNextLoop (T : Tables) (from' : ℕ) : ℕ → ℕ → Tasking → Outcome (ℕ × Tasking)
  | 0, _, _ => .spin
  | fuel + 1, cand, s =>
      if cand = from' then .done (from', s)
      else if (s.tasks cand).state = .zombie then do
        let dead := cand
        let cand := s.next cand
        let s ← s.reap dead T
        pickNextLoop T from' fuel cand s
      else if (s.tasks cand).state = .ready ∨ (s.tasks cand).state = .running then .done (cand, s)
      else pickNextLoop T from' fuel (s.next cand) s

def pickNext (T : Tables) (from' : ℕ) : Outcome (ℕ × Tasking) :=
  pickNextLoop T from' walkFuel (s.next from') s

/-- The end of `task_yield`: `prev` is left with its stack pointer `sp`, `next` runs. -/
def switchTo (prev next sp : ℕ) : Tasking :=
  let s := s.log (.resume next (s.tasks next).state)
  let s := if (s.tasks prev).state = .running then
    s.modify prev fun k ↦ { k with state := .ready } else s
  let s := s.modify next fun k ↦ { k with state := .running }
  let s := s.modify prev fun k ↦ { k with sliceLeft := taskTimeSlice }
  let s := s.modify next fun k ↦ { k with sliceLeft := taskTimeSlice }
  let s := { s with current := next }
  let s := if (s.tasks next).kernelStackTop ≠ 0 then
    { s with esp0 := (s.tasks next).kernelStackTop } else s
  s.modify prev fun k ↦ { k with esp := sp }

/-- `task_yield` up to the switch; `sp` is the stack pointer that `context_switch` saves. -/
def taskYield (T : Tables) (sp : ℕ) : Outcome Tasking :=
  if s.active = false then .done s
  else do
    let prev := s.current
    let r ← s.pickNext T prev
    let next := r.1
    let s := r.2
    if next = prev then
      if (s.tasks prev).state ≠ .zombie then .done s
      else .halt "\n[scheduler] no runnable tasks. halting.\n"
    else .done (s.switchTo prev next sp)

def taskTick : Tasking :=
  if s.active = false then s
  else
    let s := s.modify s.current fun k ↦ { k with ticksRun := Word.add k.ticksRun 1 }
    let s := if (s.tasks s.current).sliceLeft > 0 then
      s.modify s.current fun k ↦ { k with sliceLeft := k.sliceLeft - 1 } else s
    if (s.tasks s.current).sliceLeft = 0 then { s with needResched := true } else s

def taskShouldResched : Bool × Tasking :=
  if s.needResched = false then (false, s) else (true, { s with needResched := false })

/-- The end of `isr_handler` for a hardware interrupt. -/
def irqReturn (T : Tables) (sp : ℕ) : Outcome Tasking :=
  let r := s.taskShouldResched
  if r.1 = true then r.2.taskYield T sp else .done r.2

end Tasking

end MyOS.Sched
