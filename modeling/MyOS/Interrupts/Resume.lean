import MyOS.Interrupts.Frame

/-!
# Interrupted tasks

Between an interrupt and the return to the interrupted program the handler may call `task_yield`,
and any number of other tasks may run, be made and be reaped.  The frame stays on the stack of the
interrupted task, which the others do not touch, so that the program sees none of this.  A system
call changes `eax`.
-/

namespace MyOS.Interrupts

open Sched (World Code Step Sound Switching Cpu espField)

variable {T : Tables} {S : Stubs} {K : Code} {E : Prop} {w w' : World} {m k : Machine}
  {n f t tss esp0 lo hi : ℕ}

/-! ## The stack of a task -/

/-- A new task leaves the stacks of the others alone. -/
theorem stack_kept_of_make {u stack : ℕ} {words : List ℕ}
    (hsize : 4 * words.length ≤ Sched.taskStackSize) (ht : w.Has t) (hnew : ¬w.Has u)
    (hapart : (w.make u stack words).Apart) :
    (w.make u stack words).Has t ∧ (w.make u stack words).stack t = w.stack t ∧
      ∀ a, (w.stack t).1 ≤ a → a < (w.stack t).2 →
        (w.make u stack words).cpu.mem a = w.cpu.mem a := by
  have htu : t ≠ u := by
    rintro rfl
    exact hnew ht
  have hstack : (w.make u stack words).stack t = w.stack t := Function.update_of_ne htu _ _
  have hustack : (w.make u stack words).stack u = (stack, stack + Sched.taskStackSize) :=
    Function.update_self _ _ _
  have hhas : (w.make u stack words).Has t := by
    rcases ht with hcur | hsaved
    · exact Or.inl hcur
    · refine Or.inr ?_
      have hsame : (w.make u stack words).saved t = w.saved t := Function.update_of_ne htu _ _
      rw [hsame]
      exact hsaved
  have huhas : (w.make u stack words).Has u :=
    Sched.World.has_of_saved (Function.update_self _ _ _)
  have hdisj := hapart.disjoint t u hhas huhas htu
  have hfield := hapart.fields u t huhas hhas
  rw [hstack, hustack] at hdisj
  rw [hstack] at hfield
  simp only at hdisj
  obtain ⟨-, hrest⟩ := Sched.World.make_spec hsize hapart
  exact ⟨hhas, hstack, fun a hlo hhi ↦ hrest a (by omega) (by omega)⟩

/-- While another task runs, the stack of `t` stays as it is. -/
theorem stack_kept_of_step (h : Sound w) (hstep : Step K w w') (ht : w.Has t)
    (hne : w.current ≠ t) :
    w'.stack t = w.stack t ∧
      ∀ a, (w.stack t).1 ≤ a → a < (w.stack t).2 → w'.cpu.mem a = w.cpu.mem a := by
  cases hstep with
  | work cpu hmem => exact ⟨rfl, fun a hlo hhi ↦ hmem a (Or.inr ⟨t, ht, hne.symm, hlo, hhi⟩)⟩
  | create stack entry hnew hapart =>
      exact (stack_kept_of_make (by simp [Sched.taskStackSize]) ht hnew hapart).2
  | createUser kstack ustack entry hnew hapart =>
      exact (stack_kept_of_make (by simp [Sched.taskStackSize]) ht hnew hapart).2
  | reap hu => exact ⟨rfl, fun a _ _ ↦ rfl⟩
  | switch hcall =>
      have hself : w.Has w.current := Or.inl rfl
      have hdisj := h.apart.disjoint t w.current ht hself hne.symm
      have hfield := h.apart.fields w.current t hself ht
      have hroom := hcall.lower
      have hroom' := hcall.upper
      refine ⟨rfl, fun a hlo hhi ↦ ?_⟩
      rw [h.switch_mem hcall, Sched.Cpu.leave_of_ne (by omega) (by omega) (by omega)]

/-- A step between an interrupt of task `t` and its return.  The handler works below its frame at
`f`; with `E` it may write to `regs->eax`. -/
inductive Visit (K : Code) (E : Prop) (t f : ℕ) : World → World → Prop
  | work {w : World} (ht : w.current = t) (cpu : Cpu)
      (hmem : ∀ a, w.Foreign a → cpu.mem a = w.cpu.mem a)
      (hframe : ∀ a, f ≤ a → a < (w.stack t).2 → ¬(E ∧ a = f + 44) → cpu.mem a = w.cpu.mem a) :
      Visit K E t f w { w with cpu := cpu }
  | create {w : World} {u : ℕ} (ht : w.current = t) (stack entry : ℕ) (hnew : ¬w.Has u)
      (hapart : (w.taskCreate K u stack entry).Apart) :
      Visit K E t f w (w.taskCreate K u stack entry)
  | createUser {w : World} {u : ℕ} (ht : w.current = t) (kstack ustack entry : ℕ) (hnew : ¬w.Has u)
      (hapart : (w.taskCreateUser K u kstack ustack entry).Apart) :
      Visit K E t f w (w.taskCreateUser K u kstack ustack entry)
  | reap {w : World} {u : ℕ} (ht : w.current = t) (hu : u ≠ w.current) :
      Visit K E t f w { w with saved := Function.update w.saved u none }
  | yield {w : World} {next : ℕ} (ht : w.current = t) (hcall : w.Calls next)
      (hbelow : w.cpu.esp ≤ f) : Visit K E t f w (w.switch next)
  | other {w w' : World} (ht : w.current ≠ t) (hstep : Step K w w') (hhas : w'.Has t) :
      Visit K E t f w w'

namespace Visit

theorem step (h : Visit K E t f w w') : Step K w w' := by
  cases h with
  | work ht cpu hmem hframe => exact .work cpu hmem
  | create ht stack entry hnew hapart => exact .create stack entry hnew hapart
  | createUser ht kstack ustack entry hnew hapart =>
      exact .createUser kstack ustack entry hnew hapart
  | reap ht hu => exact .reap hu
  | yield ht hcall hbelow => exact .switch hcall
  | other ht hstep hhas => exact hstep

/-- The frame and all that is above it on the stack stay as they are. -/
theorem kept (h : Visit K E t f w w') (hw : Sound w) (ht : w.Has t) (hf : (w.stack t).1 ≤ f) :
    w'.Has t ∧ w'.stack t = w.stack t ∧ ∀ a, f ≤ a → a < (w.stack t).2 → ¬(E ∧ a = f + 44) →
      w'.cpu.mem a = w.cpu.mem a := by
  cases h with
  | work hcur cpu hmem hframe => exact ⟨ht, rfl, hframe⟩
  | create hcur stack entry hnew hapart =>
      obtain ⟨hhas, hstack, hmem⟩ :=
        stack_kept_of_make (by simp [Sched.taskStackSize]) ht hnew hapart
      exact ⟨hhas, hstack, fun a hlo hhi _ ↦ hmem a (hf.trans hlo) hhi⟩
  | createUser hcur kstack ustack entry hnew hapart =>
      obtain ⟨hhas, hstack, hmem⟩ :=
        stack_kept_of_make (by simp [Sched.taskStackSize]) ht hnew hapart
      exact ⟨hhas, hstack, fun a hlo hhi _ ↦ hmem a (hf.trans hlo) hhi⟩
  | reap hcur hu => exact ⟨Or.inl hcur.symm, rfl, fun a _ _ _ ↦ rfl⟩
  | yield hcur hcall hbelow =>
      -- the registers go below the stack pointer of the handler
      subst hcur
      have hself : w.Has w.current := Or.inl rfl
      have hfield := hw.apart.fields w.current w.current hself hself
      have hroom := hcall.lower
      refine ⟨Or.inr ?_, rfl, fun a hlo hhi _ ↦ ?_⟩
      · have hsaved : (w.switch _).saved w.current = _ :=
          (Function.update_of_ne hcall.ne.symm _ _).trans (Function.update_self _ _ _)
        rw [hsaved]
        rfl
      · rw [hw.switch_mem hcall, Sched.Cpu.leave_of_ne (by omega) (by omega) (by omega)]
  | other hcur hstep hhas =>
      obtain ⟨hstack, hmem⟩ := stack_kept_of_step hw hstep ht hcur
      exact ⟨hhas, hstack, fun a hlo hhi _ ↦ hmem a (hf.trans hlo) hhi⟩

end Visit

/-- Any number of such steps. -/
abbrev Visits (K : Code) (E : Prop) (t f : ℕ) : World → World → Prop :=
  Relation.ReflTransGen (Visit K E t f)

theorem Visits.kept (h : Visits K E t f w w') (hw : Sound w) (ht : w.Has t)
    (hf : (w.stack t).1 ≤ f) :
    w'.Has t ∧ w'.stack t = w.stack t ∧ Sound w' ∧
      ∀ a, f ≤ a → a < (w.stack t).2 → ¬(E ∧ a = f + 44) → w'.cpu.mem a = w.cpu.mem a := by
  induction h with
  | refl => exact ⟨ht, rfl, hw, fun a _ _ _ ↦ rfl⟩
  | tail _ hvisit ih =>
      obtain ⟨hhas, hstack, hsound, hmem⟩ := ih
      obtain ⟨hhas', hstack', hmem'⟩ := hvisit.kept hsound hhas (by rwa [hstack])
      rw [hstack] at hstack' hmem'
      exact ⟨hhas', hstack', hsound.step hvisit.step,
        fun a hlo hhi hE ↦ (hmem' a hlo hhi hE).trans (hmem a hlo hhi hE)⟩

/-- The current task has called `context_switch` for `next`, with its stack pointer at `esp`. -/
def calling (w : World) (esp next : ℕ) : World :=
  { w with
    cpu :=
      { w.cpu with
        esp := esp
        mem := Function.update (Function.update w.cpu.mem (esp + 4) (espField w.current)) (esp + 8)
          (w.cpu.mem (espField next)) } }

theorem calling_mem {esp next a : ℕ} (ha : a < esp + 4 ∨ esp + 12 ≤ a) :
    (calling w esp next).cpu.mem a = w.cpu.mem a := by
  have hne : a ≠ esp + 8 := by omega
  have hne' : a ≠ esp + 4 := by omega
  exact (Function.update_of_ne hne _ _).trans (Function.update_of_ne hne' _ _)

theorem calling_foreign (hw : w.Apart) {esp next a : ℕ} (hlo : (w.stack w.current).1 ≤ esp)
    (hhi : esp + 12 ≤ (w.stack w.current).2) (ha : w.Foreign a) :
    (calling w esp next).cpu.mem a = w.cpu.mem a := by
  have hself : w.Has w.current := Or.inl rfl
  apply calling_mem
  rcases ha with ⟨u, hu, rfl⟩ | ⟨u, hu, hne, halo, hahi⟩
  · have hfield := hw.fields u w.current hu hself
    omega
  · have hdisj := hw.disjoint u w.current hu hself hne
    omega

theorem calling_calls (hw : w.Apart) (esp : ℕ) {next : ℕ} (hne : next ≠ w.current)
    (hsaved : (w.saved next).isSome = true) (hlo : (w.stack w.current).1 + 16 ≤ esp)
    (hhi : esp + 12 ≤ (w.stack w.current).2) : (calling w esp next).Calls next := by
  have hfield := hw.fields next w.current (Or.inr hsaved) (Or.inl rfl)
  refine ⟨hne, hsaved, ?_, ?_, hlo, hhi⟩
  · have hne' : esp + 4 ≠ esp + 8 := by omega
    exact (Function.update_of_ne hne' _ _).trans (Function.update_self _ _ _)
  · exact (Function.update_self _ _ _).trans (calling_mem (by omega)).symm

/-- A handler with room below its frame may switch to another task. -/
theorem visits_away (hw : Sound w) {u : ℕ} (hu : u ≠ w.current)
    (hsaved : (w.saved u).isSome = true) (hroom : (w.stack w.current).1 + 28 ≤ f)
    (hf : f ≤ (w.stack w.current).2) :
    ∃ w', Visits K E w.current f w w' ∧ w'.current = u ∧ w'.stack = w.stack := by
  have hwork : Visit K E w.current f w (calling w ((w.stack w.current).1 + 16) u) :=
    .work rfl _ (fun a ha ↦ calling_foreign hw.apart (by omega) (by omega) ha)
      fun a ha _ _ ↦ calling_mem (by omega)
  have hyield : Visit K E w.current f (calling w ((w.stack w.current).1 + 16) u)
      ((calling w ((w.stack w.current).1 + 16) u).switch u) :=
    .yield rfl (calling_calls hw.apart _ hu hsaved le_rfl (by omega))
      (by simp only [calling]; omega)
  exact ⟨_, .tail (.single hwork) hyield, rfl, rfl⟩

/-- The task that runs in the meantime may switch back. -/
theorem visits_back (hw : Sound w) (hne : w.current ≠ t) (ht : w.Has t)
    (hroom : (w.stack w.current).1 + 28 ≤ (w.stack w.current).2) :
    ∃ w', Visits K E t f w w' ∧ w'.current = t := by
  have hsaved : (w.saved t).isSome = true := ht.resolve_left hne.symm
  have hwork : Visit K E t f w (calling w ((w.stack w.current).1 + 16) t) :=
    .other hne (.work _ fun a ha ↦ calling_foreign hw.apart (by omega) (by omega) ha) ht
  have hswitch : Visit K E t f (calling w ((w.stack w.current).1 + 16) t)
      ((calling w ((w.stack w.current).1 + 16) t).switch t) :=
    .other hne (.switch (calling_calls hw.apart _ hne.symm hsaved le_rfl (by omega))) (Or.inl rfl)
  exact ⟨_, .tail (.single hwork) hswitch, rfl⟩

/-! ## From the interrupt to the return -/

/-- The stub of a vector. -/
def Stubs.address (S : Stubs) (n : ℕ) : ℕ := if n = 128 then S.isr128 else S.isrStubTable n

/-- `m` runs a task with the kernel stack from `lo` to `hi`, in the kernel with room on that stack
or in ring 3 with segments that it can load. -/
structure Machine.Runs (m : Machine) (T : Tables) (lo hi : ℕ) : Prop where
  ring : m.cs % 4 = 0 ∨ m.cs % 4 = 3
  kernel : m.cs % 4 = 0 → m.ss = gdtKdataSel ∧ lo + 76 ≤ m.esp ∧ m.esp ≤ hi
  user : m.cs % 4 = 3 → lo + 84 ≤ hi ∧ ∀ s, T.Loads 3 (m.seg s)
  upper : hi + 8 < 2 ^ 32

/-- An interrupt that the kernel handles: an exception or a device, or `int 0x80` in ring 3. -/
def Handled (m : Machine) (software : Bool) (n : ℕ) : Prop :=
  software = false ∧ n < 48 ∨ software = true ∧ n = 128 ∧ m.cs % 4 = 3

/-- The stack for the handler. -/
def Machine.handlerStack (m : Machine) (esp0 : ℕ) : Option (ℕ × ℕ) :=
  if m.cs % 4 = 0 then none else some (gdtKdataSel, esp0)

theorem Tables.Installed.deliver_handled (h : T.Installed S tss esp0) {software : Bool}
    (hint : Handled m software n) :
    T.deliver (m.cs % 4) software n =
      .enter gdtKcodeSel (S.address n) (m.handlerStack esp0) (decide (n ≠ 128)) := by
  rcases hint with ⟨rfl, hn⟩ | ⟨rfl, rfl, hring⟩
  · have hne : n ≠ 128 := by omega
    rw [h.deliver_external hn, Stubs.address, if_neg hne, decide_eq_true hne]
    rfl
  · rw [hring, h.deliver_software (by norm_num), Machine.handlerStack, hring]
    rfl

/-- The processor at the first instruction of `isr_handler`. -/
def Machine.handler (m : Machine) (T : Tables) (S : Stubs) (esp0 : ℕ) (err : Option ℕ)
    (n isrHandler after : ℕ) : Machine :=
  m.enterHandler T gdtKcodeSel (S.address n) (m.handlerStack esp0) (decide (n ≠ 128)) err n
    isrHandler after

/-- The frame of the interrupt. -/
def Machine.frameAt (m : Machine) (esp0 : ℕ) : ℕ :=
  if m.cs % 4 = 0 then m.esp - 68 else esp0 - 76

/-- Whatever happens between the call of `isr_handler` and its return, the program goes on with
its registers, `eax` excepted if the handler may write to it, and with its own part of the
stack. -/
def Machine.Resumes (m : Machine) (S : Stubs) (K : Code) (E : Prop) (tss f : ℕ) (w : World) :
    Prop :=
  ∀ (w' : World) (T' : Tables) (e : ℕ) (k : Machine), Visits K E w.current f w w' →
    w'.current = w.current → T'.Installed S tss e → k.mem = w'.cpu.mem → k.esp + 4 = f →
    k.cs = gdtKcodeSel → k.ss = gdtKdataSel →
    (k.run T' isrCommonExit).toContext = m.returned (k.mem (f + 44)) ∧
      (¬E → (k.run T' isrCommonExit).toContext = m.toContext) ∧
      (m.cs % 4 = 0 → ∀ a, m.esp ≤ a → a < (w.stack w.current).2 → k.mem a = m.mem a)

/-- Where the frame is. -/
theorem Machine.Runs.frame_bounds (h : m.Runs T lo hi) :
    lo + 8 ≤ m.frameAt hi ∧ m.frameAt hi + 68 ≤ hi ∧ m.frameAt hi + 76 < 2 ^ 32 ∧
      m.frameAt hi + Machine.frameSize (m.handlerStack hi) = m.frameTop (m.handlerStack hi) ∧
      m.frameTop (m.handlerStack hi) ≤ hi := by
  have hupper := h.upper
  rw [Machine.frameAt, Machine.handlerStack]
  rcases h.ring with hring | hring
  · obtain ⟨-, hlo, hhi⟩ := h.kernel hring
    simp only [if_pos hring, Machine.frameSize, Machine.frameTop, Option.isSome_none,
      Bool.false_eq_true, if_false]
    omega
  · obtain ⟨hroom, -⟩ := h.user hring
    have hne : ¬m.cs % 4 = 0 := by omega
    simp only [if_neg hne, Machine.frameSize, Machine.frameTop, Option.isSome_some, if_true]
    omega

/-- In the kernel the TSS does not matter. -/
theorem Machine.Runs.esp0_eq (h : m.Runs T lo hi) (hesp0 : m.cs % 4 = 3 → esp0 = hi) :
    m.handlerStack esp0 = m.handlerStack hi ∧ m.frameAt esp0 = m.frameAt hi := by
  rcases h.ring with hring | hring
  · have hstack : ∀ e, m.handlerStack e = none := fun e ↦ if_pos hring
    have hat : ∀ e, m.frameAt e = m.esp - 68 := fun e ↦ if_pos hring
    exact ⟨(hstack esp0).trans (hstack hi).symm, (hat esp0).trans (hat hi).symm⟩
  · rw [hesp0 hring]
    exact ⟨rfl, rfl⟩

theorem Machine.returned_self (m : Machine) : m.returned (m.reg .eax) = m.toContext := by
  rw [Machine.returned, Function.update_eq_self]

/-- A frame in which nothing has changed but possibly `eax` and the last two words. -/
theorem registersAt_kept {mem mem' : ℕ → ℕ}
    (hkeep : ∀ a, f ≤ a → a < f + 68 → a ≠ f + 44 → mem' a = mem a) :
    registersAt mem' f = ((registersAt mem f).withEax (mem' (f + 44))).withTail (mem' (f + 68))
      (mem' (f + 72)) := by
  have hword : ∀ i, i < 68 → i ≠ 44 → mem' (f + i) = mem (f + i) :=
    fun i hi hne ↦ hkeep (f + i) (by omega) (by omega) (by omega)
  rw [Registers.withTail, Registers.withEax, registersAt, registersAt, Registers.mk.injEq]
  exact ⟨hword 0 (by omega) (by omega), hword 4 (by omega) (by omega),
    hword 8 (by omega) (by omega), hword 12 (by omega) (by omega), hword 16 (by omega) (by omega),
    hword 20 (by omega) (by omega), hword 24 (by omega) (by omega), hword 28 (by omega) (by omega),
    hword 32 (by omega) (by omega), hword 36 (by omega) (by omega), hword 40 (by omega) (by omega),
    rfl, hword 48 (by omega) (by omega), hword 52 (by omega) (by omega),
    hword 56 (by omega) (by omega), hword 60 (by omega) (by omega), hword 64 (by omega) (by omega),
    rfl, rfl⟩

/-- The call of the handler changes no word that belongs to another task. -/
theorem Machine.Runs.handler_foreign (hm : m.Runs T (w.stack w.current).1 (w.stack w.current).2)
    (hw : Sound w) (hmem : w.cpu.mem = m.mem) {k : Machine}
    (hrest : ∀ a, a < m.frameAt (w.stack w.current).2 - 8 ∨
      m.frameTop (m.handlerStack (w.stack w.current).2) ≤ a → k.mem a = m.mem a) {a : ℕ}
    (ha : w.Foreign a) : k.mem a = w.cpu.mem a := by
  obtain ⟨hlo, -, -, htop, hhi⟩ := hm.frame_bounds
  have hself : w.Has w.current := Or.inl rfl
  rw [hmem]
  apply hrest
  rcases ha with ⟨u, hu, rfl⟩ | ⟨u, hu, hne, halo, hahi⟩
  · have hfield := hw.apart.fields u w.current hu hself
    omega
  · have hdisj := hw.apart.disjoint u w.current hu hself hne
    omega

/-- The handler returns to a frame that still holds the registers. -/
theorem Machine.Runs.resumes (hm : m.Runs T (w.stack w.current).1 (w.stack w.current).2)
    (hT : T.Installed S tss esp0) (hw : Sound w) {err sp : ℕ}
    (hframe : registersAt w.cpu.mem (m.frameAt (w.stack w.current).2) =
      m.frame (m.handlerStack (w.stack w.current).2) n err sp)
    (habove : ∀ a, m.frameTop (m.handlerStack (w.stack w.current).2) ≤ a →
      w.cpu.mem a = m.mem a) :
    m.Resumes S K E tss (m.frameAt (w.stack w.current).2) w := by
  intro w' T' e k hvisits hback hT' hmem hesp hcs hss
  obtain ⟨hlo, hhi, hword, htop, hin⟩ := hm.frame_bounds
  obtain ⟨-, -, -, hkept⟩ := hvisits.kept hw (Or.inl rfl) (by omega)
  rw [← hmem] at hkept
  have hkeep : ∀ a, m.frameAt (w.stack w.current).2 ≤ a →
      a < m.frameAt (w.stack w.current).2 + 68 →
      a ≠ m.frameAt (w.stack w.current).2 + 44 → k.mem a = w.cpu.mem a :=
    fun a ha ha' hne ↦ hkept a ha (by omega) fun hE ↦ hne hE.2
  have hregs := registersAt_kept hkeep
  rw [hframe] at hregs
  have hring3 : m.cs % 4 ≠ 0 → k.mem (m.frameAt (w.stack w.current).2 + 68) = m.esp ∧
      k.mem (m.frameAt (w.stack w.current).2 + 72) = m.ss ∧
      ∀ s, T'.Loads (m.cs % 4) (m.seg s) := by
    intro hring
    have hthree : m.cs % 4 = 3 := hm.ring.resolve_left hring
    obtain ⟨hroom, hsegs⟩ := hm.user hthree
    have hat : m.frameAt (w.stack w.current).2 = (w.stack w.current).2 - 76 := if_neg hring
    have hsome : (m.handlerStack (w.stack w.current).2).isSome = true := by
      rw [Machine.handlerStack, if_neg hring]
      rfl
    refine ⟨?_, ?_, fun s ↦ ?_⟩
    · rw [hkept _ (by omega) (by omega) fun h ↦ by omega]
      exact (congrArg Registers.useresp hframe).trans (if_pos hsome)
    · rw [hkept _ (by omega) (by omega) fun h ↦ by omega]
      exact (congrArg Registers.ss hframe).trans (if_pos hsome)
    · rw [hthree, hT'.loads_iff, ← hT.loads_iff]
      exact hsegs s
  have hring0 : m.cs % 4 = 0 → m.esp = m.frameAt (w.stack w.current).2 + 68 ∧ m.ss = k.ss := by
    intro hring
    obtain ⟨hmss, hroom, -⟩ := hm.kernel hring
    rw [Machine.frameAt, if_pos hring]
    exact ⟨by omega, hmss.trans hss.symm⟩
  have hreturn := Machine.run_isrCommonExit_frame (T := T') hesp hword (by rw [hcs]; rfl) hregs
    hring3 hring0
  refine ⟨hreturn, fun hE ↦ ?_, fun hring a ha ha' ↦ ?_⟩
  · have heax : k.mem (m.frameAt (w.stack w.current).2 + 44) = m.reg .eax := by
      rw [hkept _ (by omega) (by omega) fun h ↦ hE h.1]
      exact congrArg Registers.eax hframe
    rw [hreturn, heax, m.returned_self]
  · obtain ⟨hesp0, -⟩ := hring0 hring
    rw [hkept a (by omega) ha' fun h ↦ by omega]
    apply habove
    rw [Machine.handlerStack, if_pos hring]
    exact ha

/-- An exception, a device interrupt or a system call enters the kernel with a frame that holds
the registers of the program.  Whatever the handler does below its frame, whichever tasks run in
between and however often, the program is resumed with the same registers and on the same stack;
only the handler of a system call gives it another `eax`.  The TSS matters in ring 3 only, where it
has to name the kernel stack of the task. -/
theorem interrupted_resumes (hrun : Switching K w) (hT : T.Installed S tss esp0)
    (hesp0 : m.cs % 4 = 3 → esp0 = (w.stack w.current).2) (hmem : w.cpu.mem = m.mem)
    (hm : m.Runs T (w.stack w.current).1 (w.stack w.current).2) {software : Bool}
    (hint : Handled m software n) {err : Option ℕ} (herr : err.isSome = hasErrorCode n)
    (isrHandler after : ℕ) :
    T.deliver (m.cs % 4) software n =
        .enter gdtKcodeSel (S.address n) (m.handlerStack esp0) (decide (n ≠ 128)) ∧
      ∃ k : Machine, k = m.handler T S esp0 err n isrHandler after ∧
        k.mem (k.esp + 4) = m.frameAt esp0 ∧
        (∃ sp, registersAt k.mem (m.frameAt esp0) =
          m.frame (m.handlerStack esp0) n (err.getD 0) sp) ∧
        ∀ cpu : Cpu, cpu.mem = k.mem →
          Switching K { w with cpu := cpu } ∧
            m.Resumes S K (n = 128) tss (m.frameAt esp0) { w with cpu := cpu } := by
  obtain ⟨hstack, hat⟩ := hm.esp0_eq hesp0
  obtain ⟨hlo, hhi, hword, htop, hin⟩ := hm.frame_bounds
  obtain ⟨hesp, harg, ⟨sp, hframe⟩, hrest⟩ := m.enterHandler_spec T gdtKcodeSel (S.address n)
    (m.handlerStack (w.stack w.current).2) (decide (n ≠ 128)) herr isrHandler after (by omega)
    htop hword
  rw [htop] at hrest
  refine ⟨hT.deliver_handled hint, _, rfl, ?_⟩
  rw [Machine.handler, hstack, hat]
  refine ⟨?_, ⟨sp, hframe⟩, fun cpu hcpu ↦ ?_⟩
  · rw [hesp, show m.frameAt (w.stack w.current).2 - 8 + 4 =
      m.frameAt (w.stack w.current).2 - 4 by omega]
    exact harg
  · have hstep : Step K w { w with cpu := cpu } := by
      refine .work cpu fun a ha ↦ ?_
      rw [hcpu]
      exact hm.handler_foreign hrun.sound hmem hrest ha
    refine ⟨hrun.step hstep, ?_⟩
    refine Machine.Runs.resumes (w := { w with cpu := cpu }) hm hT (hrun.step hstep).sound
      (by rw [hcpu]; exact hframe) fun a ha ↦ ?_
    rw [hcpu]
    exact hrest a (Or.inr ha)

/-- The boot task in ring 3. -/
def userMachine : Machine where
  reg := fun _ ↦ 5
  seg := fun _ ↦ 0x23
  esp := 0x7000
  ss := 0x23
  eip := 0x6000
  cs := 0x1B
  eflags := 0x202
  mem := Sched.twoTasks.cpu.mem

def fewStubs : Stubs := ⟨fun n ↦ 0x2000 + 16 * n % 4096, 0x2800⟩

theorem fewStubs_inRange : fewStubs.InRange := by
  refine ⟨fun n ↦ ?_, by norm_num [fewStubs]⟩
  have hn : 16 * n % 4096 < 4096 := Nat.mod_lt _ (by norm_num)
  simp only [fewStubs]
  omega

/-- The tables when the boot task runs. -/
def fewTables : Tables := tssSetEsp0 (bootTables fewStubs 0x9800) 0x9000

theorem fewTables_installed : fewTables.Installed fewStubs 0x9800 0x9000 :=
  (bootTables_installed fewStubs_inRange (by norm_num)).tssSetEsp0 (by norm_num)

theorem userMachine_runs : userMachine.Runs fewTables 0x8000 0x9000 := by
  refine ⟨Or.inr rfl, fun hring ↦ ?_, fun _ ↦ ⟨by norm_num, fun s ↦ ?_⟩, by norm_num⟩
  · cases hring
  · have hseg : userMachine.seg s = 0x23 := rfl
    rw [fewTables_installed.loads_iff, hseg]
    norm_num

/-- A timer interrupt in ring 3: the handler switches to the other task, which switches back. -/
theorem interrupted_resumes_timer : ∃ (w w₁ w₂ : World) (k : Machine),
    w.cpu.mem = (userMachine.handler fewTables fewStubs 0x9000 none 32 0x100 0x104).mem ∧
    Visits Sched.lowCode (32 = 128) 0x1000 0x8FB4 w w₁ ∧ w₁.current = 0x2000 ∧
    Visits Sched.lowCode (32 = 128) 0x1000 0x8FB4 w₁ w₂ ∧ w₂.current = 0x1000 ∧
    k.mem = w₂.cpu.mem ∧ (k.run fewTables isrCommonExit).toContext = userMachine.toContext := by
  have hlo : (Sched.twoTasks.stack Sched.twoTasks.current).1 = 0x8000 := rfl
  have hhi : (Sched.twoTasks.stack Sched.twoTasks.current).2 = 0x9000 := rfl
  have hint : Handled userMachine false 32 := Or.inl ⟨rfl, by norm_num⟩
  have herr : (none : Option ℕ).isSome = hasErrorCode 32 := by decide
  have hmem : Sched.twoTasks.cpu.mem = userMachine.mem := rfl
  have hm := userMachine_runs
  rw [← hlo, ← hhi] at hm
  obtain ⟨-, k, hk, -, -, hresumes⟩ := interrupted_resumes Sched.twoTasks_switching
    fewTables_installed (fun _ ↦ hhi.symm) hmem hm hint herr 0x100 0x104
  have hat : userMachine.frameAt 0x9000 = 0x8FB4 := if_neg (by decide)
  obtain ⟨hswitching, hback⟩ := hresumes { Sched.twoTasks.cpu with mem := k.mem } rfl
  rw [hat] at hback
  obtain ⟨w₁, hleaves, hother, hstack⟩ := visits_away (K := Sched.lowCode) (E := 32 = 128)
    (f := 0x8FB4) (u := 0x2000) hswitching.sound (show 0x2000 ≠ 0x1000 by decide) rfl
    (show 0x8000 + 28 ≤ 0x8FB4 by decide) (show 0x8FB4 ≤ 0x9000 by decide)
  obtain ⟨hhas, -, hsound, -⟩ := hleaves.kept hswitching.sound (Or.inl rfl)
    (show 0x8000 ≤ 0x8FB4 by decide)
  obtain ⟨w₂, hreturns, hagain⟩ := visits_back (K := Sched.lowCode) (E := 32 = 128)
    (f := 0x8FB4) (t := 0x1000) hsound (by rw [hother]; decide) hhas
    (by rw [hstack, hother]; exact (show 0x10000 + 28 ≤ 0x14000 by decide))
  obtain ⟨-, hsame, -⟩ := hback w₂ fewTables 0x9000
    ⟨⟨k.reg, k.seg, 0x8FB0, gdtKdataSel, k.eip, gdtKcodeSel, k.eflags⟩, w₂.cpu.mem⟩
    (hleaves.trans hreturns) hagain fewTables_installed rfl (by norm_num) rfl rfl
  exact ⟨_, w₁, w₂, _, congrArg Machine.mem hk, hleaves, hother, hreturns, hagain, rfl,
    hsame (by norm_num)⟩

end MyOS.Interrupts
