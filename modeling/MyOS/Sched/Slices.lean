import MyOS.Sched.Calls

/-!
# Time slices

`task_tick` counts the slice of the current task down and asks for a switch when it is used up;
the interrupt that delivered the tick ends with the yield.  The two are one step here.  A run
carries the number of ticks since the current task became current, and the number of the last
ticks in a row at which another task could have run.
-/

namespace MyOS.Sched

open Heap Elf

variable {A : Arena} {T : Tables} {s s' : Tasking} {others others' l : List ℕ} {e e' : Bool}
  {c m n r t sp : ℕ}

/-! ## Runs with ticks -/

/-- A call of a run that is no tick; `irq` is the end of an interrupt of another device. -/
inductive Call (T : Tables) : Tasking → List ℕ → Bool → Tasking → List ℕ → Bool → Prop where
  | plain {s s' : Tasking} {others others' : List ℕ} {exiting exiting' : Bool}
      (hcall : Plain s others exiting s' others' exiting') :
      Call T s others exiting s' others' exiting'
  | createUserImage {s s' : Tasking} {others : List ℕ} {t : ℕ} (name : List UInt8)
      (image : UserImage) (hcall : s.taskCreateUserImage name (some image) = .done (t, s')) :
      Call T s (image.ptr :: others) false s' (if t = 0 then image.ptr :: others else others) false
  | createNoImage {s s' : Tasking} {others : List ℕ} {t : ℕ} (name : List UInt8)
      (hcall : s.taskCreateUserImage name none = .done (t, s')) :
      Call T s others false s' others false
  | yield {s s' : Tasking} {others : List ℕ} {exiting : Bool} (sp : ℕ)
      (hcall : s.taskYield T sp = .done s') : Call T s others exiting s' others false
  | irq {s s' : Tasking} {others : List ℕ} {exiting : Bool} (sp : ℕ)
      (hcall : s.irqReturn T sp = .done s') :
      Call T s others exiting s' others (exiting && !s.needResched)

theorem Run.plain (hrun : Run A T s others e) (hcall : Plain s others e s' others' e') :
    Run A T s' others' e' := by
  cases hcall with
  | create name hcall => exact hrun.create name hcall
  | createUser name hcall => exact hrun.createUser name hcall
  | exit => exact hrun.exit
  | malloc size hcall => exact hrun.malloc size hcall
  | free hcall => exact hrun.free hcall
  | reorder hperm => exact hrun.reorder hperm
  | paging mm => exact hrun.paging mm

theorem Run.call (hrun : Run A T s others e) (hcall : Call T s others e s' others' e') :
    Run A T s' others' e' := by
  cases hcall with
  | plain hcall => exact hrun.plain hcall
  | createUserImage name image hcall => exact hrun.createUserImage name image hcall
  | createNoImage name hcall => exact hrun.createNoImage name hcall
  | yield sp hcall => exact hrun.yield sp hcall
  | irq sp hcall => exact hrun.irq sp hcall

/-- Another task than the current one is on the ring and could run. -/
def Company (s : Tasking) : Prop :=
  ∃ n, s.next^[n] s.current ≠ s.current ∧ (s.tasks (s.next^[n] s.current)).state ≠ .zombie

/-- `Ticked A T s others exiting n m`: a run arrives at `s`, `n` ticks after its current task
became current.  The last `m` of them found company. -/
inductive Ticked (A : Arena) (T : Tables) : Tasking → List ℕ → Bool → ℕ → ℕ → Prop where
  | init {s s' : Tasking} {others : List ℕ} (hheap : HeapInv A ⟨s.sys.heap, others⟩)
      (hevents : s.events = []) (hneed : s.needResched = false)
      (hcall : s.taskingInit = .done s') : Ticked A T s' others false 0 0
  | call {s s' : Tasking} {others others' : List ℕ} {exiting exiting' : Bool} {n m : ℕ}
      (hrun : Ticked A T s others exiting n m)
      (hcall : Call T s others exiting s' others' exiting') :
      Ticked A T s' others' exiting' (if s'.current = s.current then n else 0)
        (if s'.current = s.current then m else 0)
  | tick {s s' : Tasking} {others : List ℕ} {exiting : Bool} {n m : ℕ} (sp : ℕ)
      (hrun : Ticked A T s others exiting n m) (hcompany : Company s)
      (hcall : s.taskTick.irqReturn T sp = .done s') :
      Ticked A T s' others (exiting && !s.taskTick.needResched)
        (if s'.current = s.current then n + 1 else 0) (if s'.current = s.current then m + 1 else 0)
  | tickAlone {s s' : Tasking} {others : List ℕ} {exiting : Bool} {n m : ℕ} (sp : ℕ)
      (hrun : Ticked A T s others exiting n m) (halone : ¬Company s)
      (hcall : s.taskTick.irqReturn T sp = .done s') :
      Ticked A T s' others (exiting && !s.taskTick.needResched)
        (if s'.current = s.current then n + 1 else 0) 0

theorem Ticked.run (hrun : Ticked A T s others e n m) : Run A T s others e := by
  induction hrun with
  | init hheap hevents _ hcall => exact .init hheap hevents hcall
  | call _ hcall ih => exact ih.call hcall
  | tick sp _ _ hcall ih => exact ih.tick.irq sp hcall
  | tickAlone sp _ _ hcall ih => exact ih.tick.irq sp hcall

/-! ## The slice of the current task -/

/-- The slice of the current task, the flag and who is current have not changed. -/
structure SameSlice (s s' : Tasking) : Prop where
  current : s'.current = s.current
  need : s'.needResched = s.needResched
  slice : (s'.tasks s.current).sliceLeft = (s.tasks s.current).sliceLeft

theorem sameSlice_enqueue {h : Kheap} {f : Task → Task} {n : ℕ} (hactive : s.active = true)
    (ht : t ≠ s.current) :
    SameSlice s ({ (s.setHeap h).modify t f with nextId := n }.enqueue t) := by
  rw [Tasking.enqueue, if_neg (by simp [Tasking.modify, Tasking.setHeap, hactive])]
  refine ⟨rfl, rfl, ?_⟩
  simp [Tasking.readyInsertAfterCurrent, Tasking.setNext, Tasking.log, Tasking.modify,
    Tasking.setHeap, Function.update_of_ne ht.symm]

theorem sameSlice_created {P : (Task → Task) → Prop} (hr : Ring A s others l)
    (h : s.Created l P t s') : SameSlice s s' := by
  rcases h with ⟨-, h, rfl, -⟩ | ⟨-, hnot, h, f, -, rfl⟩
  · exact ⟨rfl, rfl, rfl⟩
  · refine sameSlice_enqueue hr.active ?_
    rintro rfl
    exact hnot hr.current_mem

theorem sameSlice_taskCreateUserImage {name : List UInt8} {image : UserImage}
    (hr : Ring A s others l) (hcall : s.taskCreateUserImage name (some image) = .done (t, s')) :
    SameSlice s s' := by
  obtain ⟨⟨t₁, s₁⟩, hcreate, hrest⟩ := Outcome.bind_eq_done_iff.mp hcall
  have hsame := sameSlice_created hr (taskCreateUser_cases hr hcreate)
  by_cases hzero : t₁ = 0
  · rw [if_pos hzero] at hrest
    cases hrest
    exact hsame
  · rw [if_neg hzero] at hrest
    cases hrest
    refine ⟨hsame.current, hsame.need, ?_⟩
    rw [← hsame.slice]
    by_cases ht : t₁ = s.current
    · subst ht
      simp [Tasking.modify]
    · simp [Tasking.modify, Function.update_of_ne (Ne.symm ht)]

theorem sameSlice_plain (hr : Ring A s others l) (hcall : Plain s others e s' others' e') :
    SameSlice s s' := by
  cases hcall with
  | create name hcall => exact sameSlice_created hr (taskCreate_cases hr hcall)
  | createUser name hcall => exact sameSlice_created hr (taskCreateUser_cases hr hcall)
  | exit =>
      refine ⟨rfl, rfl, ?_⟩
      simp [Tasking.taskExit, Tasking.modify]
  | malloc size hcall => exact ⟨rfl, rfl, rfl⟩
  | free hcall => exact ⟨rfl, rfl, rfl⟩
  | reorder hperm => exact ⟨rfl, rfl, rfl⟩
  | paging mm => exact ⟨rfl, rfl, rfl⟩

theorem taskingInit_slice (hcall : s.taskingInit = .done s') :
    s'.needResched = s.needResched ∧ (s'.tasks s'.current).sliceLeft = taskTimeSlice := by
  obtain ⟨⟨boot, h⟩, -, hrest⟩ := Outcome.bind_eq_done_iff.mp hcall
  by_cases hzero : boot = 0
  · simp [hzero] at hrest
  · simp only [if_neg hzero] at hrest
    cases hrest
    refine ⟨rfl, ?_⟩
    simp [Tasking.log, Tasking.modify]

/-- A yield keeps the slice of the current task, or gives a whole one to another task. -/
theorem taskYield_slice (hactive : s.active = true) (hcall : s.taskYield T sp = .done s') :
    s'.needResched = s.needResched ∧ (SameSlice s s' ∨ s'.current ≠ s.current ∧
      (s'.tasks s'.current).sliceLeft = taskTimeSlice) := by
  obtain ⟨r, s₁, -, hrel, hcases⟩ := taskYield_cases hactive hcall
  rcases hcases with ⟨-, rfl⟩ | ⟨hr, rfl⟩
  · exact ⟨hrel.needResched, Or.inl ⟨hrel.current, hrel.needResched,
      hrel.frame (g := Task.sliceLeft) (fun _ _ ↦ rfl) s.current⟩⟩
  · obtain ⟨hcurrent, -⟩ := switchTo_fields s₁ s.current r sp
    refine ⟨?_, Or.inr ⟨by rw [hcurrent]; exact hr, ?_⟩⟩
    · rw [← hrel.needResched]
      simp only [Tasking.switchTo]
      split_ifs <;> rfl
    · rw [hcurrent]
      simp only [Tasking.switchTo]
      split_ifs <;> simp [Tasking.modify, Function.update_apply, hr]

theorem Ring.iterate_mem (hr : Ring A s others l) (n : ℕ) : s.next^[n] s.current ∈ l := by
  induction n with
  | zero => exact hr.current_mem
  | succ n ih =>
      rw [Function.iterate_succ_apply']
      rcases hr.walk.next_mem_or_eq ih with hmem | hend
      · exact hmem
      · rw [hend]
        exact hr.current_mem

/-- In company a yield returns and switches. -/
theorem Ring.yield_switches (hr : Ring A s others l) (hcompany : Company s) (T : Tables) (sp : ℕ) :
    ∃ s', s.taskYield T sp = .done s' ∧ s'.current ≠ s.current := by
  obtain ⟨n, hne, halive⟩ := hcompany
  have hmem := hr.iterate_mem n
  obtain ⟨rest, rfl⟩ := hr.exists_cons
  obtain ⟨r, s₁, hpick, hpicked⟩ := pickNext_spec T hr
  have hr' : r ≠ s.current := by
    rintro rfl
    rcases hpicked.cases with ⟨-, -, hall⟩ | ⟨rest', hrest, -⟩
    · exact halive (hall _ ((List.mem_cons.mp hmem).resolve_left hne))
    · have hself : s.current ∈ rest :=
        (List.dropWhile_suffix s.dead).subset (hrest ▸ List.mem_cons_self)
      exact (List.nodup_cons.mp hr.nodup).1 hself
  refine ⟨s₁.switchTo s.current r sp, ?_, ?_⟩
  · rw [Tasking.taskYield, if_neg (by simp [hr.active])]
    simp only [hpick, Outcome.done_bind, if_neg hr']
  · rw [(switchTo_fields s₁ s.current r sp).1]
    exact hr'

theorem taskTick_slice (hactive : s.active = true) :
    (s.taskTick.tasks s.current).sliceLeft = (s.tasks s.current).sliceLeft - 1 ∧
      (s.needResched = false →
        (s.taskTick.needResched = true ↔ (s.tasks s.current).sliceLeft - 1 = 0)) := by
  rw [Tasking.taskTick, if_neg (by simp [hactive])]
  simp only [Tasking.modify, Function.update_self]
  by_cases hpos : (s.tasks s.current).sliceLeft > 0
  · rw [if_pos hpos]
    simp only [Function.update_self]
    split_ifs with hzero
    · exact ⟨by simp, fun _ ↦ ⟨fun _ ↦ hzero, fun _ ↦ rfl⟩⟩
    · exact ⟨by simp, fun hneed ↦ by simp [hneed, hzero]⟩
  · rw [if_neg hpos]
    have hzero : (s.tasks s.current).sliceLeft = 0 := by omega
    simp [hzero]

theorem Company.taskTick (hcompany : Company s) :
    Company { s.taskTick with needResched := false } := by
  obtain ⟨hcurrent, -, -, -, -⟩ := taskTick_fields s
  have hnext : s.taskTick.next = s.next := funext fun x ↦
    taskTick_frame (g := Task.next) s (fun _ _ ↦ rfl) (fun _ _ ↦ rfl) x
  obtain ⟨k, hk, halive⟩ := hcompany
  refine ⟨k, ?_, ?_⟩
  · change s.taskTick.next^[k] s.taskTick.current ≠ s.taskTick.current
    rw [hnext, hcurrent]
    exact hk
  · change (s.taskTick.tasks (s.taskTick.next^[k] s.taskTick.current)).state ≠ .zombie
    rw [hnext, hcurrent, taskTick_frame (g := Task.state) s (fun _ _ ↦ rfl) (fun _ _ ↦ rfl)]
    exact halive

/-- The check after a tick that used the slice up is a yield. -/
theorem irqReturn_taskTick (hactive : s.active = true) (hneed : s.needResched = false)
    (T : Tables) (sp : ℕ) :
    s.taskTick.irqReturn T sp = if (s.tasks s.current).sliceLeft ≤ 1 then
      { s.taskTick with needResched := false }.taskYield T sp else .done s.taskTick := by
  obtain ⟨-, hflag⟩ := taskTick_slice hactive
  have hiff : s.taskTick.needResched = true ↔ (s.tasks s.current).sliceLeft ≤ 1 :=
    (hflag hneed).trans (by omega)
  rw [Tasking.irqReturn, Tasking.taskShouldResched]
  by_cases hle : (s.tasks s.current).sliceLeft ≤ 1
  · simp [hiff.mpr hle, hle]
  · have hfalse : s.taskTick.needResched = false := by
      rw [← Bool.not_eq_true, hiff]
      exact hle
    simp [hfalse, hle]

theorem Ring.afterTick (hr : Ring A s others l) :
    Ring A { s.taskTick with needResched := false } others l :=
  hr.taskTick.congr rfl rfl rfl rfl (fun _ _ ↦ rfl) fun _ _ ↦ rfl

/-- What a tick with the check at the end of its interrupt does. -/
theorem tick_cases (hr : Ring A s others l) (hneed : s.needResched = false)
    (hcall : s.taskTick.irqReturn T sp = .done s') :
    s'.needResched = false ∧
      ((s'.current = s.current ∧
          (s'.tasks s.current).sliceLeft = (s.tasks s.current).sliceLeft - 1) ∨
        (s'.current ≠ s.current ∧ (s'.tasks s'.current).sliceLeft = taskTimeSlice ∧
          (s.tasks s.current).sliceLeft ≤ 1)) := by
  obtain ⟨hslice, hflag⟩ := taskTick_slice hr.active
  obtain ⟨hcurrent, -, -, -, -⟩ := taskTick_fields s
  rw [irqReturn_taskTick hr.active hneed] at hcall
  split_ifs at hcall with hle
  · obtain ⟨hneed', hcases⟩ := taskYield_slice hr.afterTick.active hcall
    refine ⟨hneed', ?_⟩
    rcases hcases with hsame | ⟨hne, hwhole⟩
    · have hkept := hsame.slice
      simp only [hcurrent] at hkept
      exact Or.inl ⟨hsame.current.trans hcurrent, hkept.trans hslice⟩
    · exact Or.inr ⟨fun hback ↦ hne (hback.trans hcurrent.symm), hwhole, hle⟩
  · cases hcall
    have hfalse : s.taskTick.needResched = false := by
      rw [← Bool.not_eq_true, hflag hneed]
      omega
    exact ⟨hfalse, Or.inl ⟨hcurrent, hslice⟩⟩

/-- In company the tick that uses the slice up switches. -/
theorem tick_switches (hr : Ring A s others l) (hneed : s.needResched = false)
    (hcompany : Company s) (hle : (s.tasks s.current).sliceLeft ≤ 1) (T : Tables) (sp : ℕ) :
    ∃ s', s.taskTick.irqReturn T sp = .done s' ∧ s'.current ≠ s.current := by
  obtain ⟨hcurrent, -, -, -, -⟩ := taskTick_fields s
  obtain ⟨s', hyield, hne⟩ := hr.afterTick.yield_switches hcompany.taskTick T sp
  refine ⟨s', ?_, fun hback ↦ hne (hback.trans hcurrent.symm)⟩
  rw [irqReturn_taskTick hr.active hneed, if_pos hle]
  exact hyield

/-! ## Whole runs -/

/-- The counter of the current task and the flag, in terms of the ticks that were delivered. -/
structure Counts (s : Tasking) (n m : ℕ) : Prop where
  need : s.needResched = false
  slice : (s.tasks s.current).sliceLeft = taskTimeSlice - n
  le : m ≤ n
  lt : m < taskTimeSlice

namespace Counts

theorem whole (hneed : s.needResched = false)
    (hslice : (s.tasks s.current).sliceLeft = taskTimeSlice) : Counts s 0 0 :=
  ⟨hneed, hslice, le_rfl, by decide⟩

theorem same (h : Counts s n m) (hsame : SameSlice s s') :
    Counts s' (if s'.current = s.current then n else 0)
      (if s'.current = s.current then m else 0) := by
  rw [if_pos hsame.current, if_pos hsame.current]
  refine ⟨hsame.need.trans h.need, ?_, h.le, h.lt⟩
  rw [hsame.current, hsame.slice]
  exact h.slice

theorem yield (h : Counts s n m) (hactive : s.active = true)
    (hcall : s.taskYield T sp = .done s') :
    Counts s' (if s'.current = s.current then n else 0)
      (if s'.current = s.current then m else 0) := by
  obtain ⟨hneed, hsame | ⟨hne, hwhole⟩⟩ := taskYield_slice hactive hcall
  · exact h.same hsame
  · rw [if_neg hne, if_neg hne]
    exact whole (hneed.trans h.need) hwhole

theorem call (h : Counts s n m) (hr : Ring A s others l)
    (hcall : Call T s others e s' others' e') :
    Counts s' (if s'.current = s.current then n else 0)
      (if s'.current = s.current then m else 0) := by
  cases hcall with
  | plain hcall => exact h.same (sameSlice_plain hr hcall)
  | createUserImage name image hcall => exact h.same (sameSlice_taskCreateUserImage hr hcall)
  | createNoImage name hcall =>
      cases hcall
      exact h.same ⟨rfl, rfl, rfl⟩
  | yield sp hcall => exact h.yield hr.active hcall
  | irq sp hcall =>
      -- no tick has left the flag behind
      rw [Tasking.irqReturn, Tasking.taskShouldResched, if_pos h.need] at hcall
      cases hcall
      exact h.same ⟨rfl, rfl, rfl⟩

/-- A tick, with `k` the new count of ticks in company when the current task stays. -/
theorem tick {k : ℕ} (h : Counts s n m) (hr : Ring A s others l)
    (hcall : s.taskTick.irqReturn T sp = .done s') (hk : k ≤ n + 1)
    (hlt : s'.current = s.current → k < taskTimeSlice) :
    Counts s' (if s'.current = s.current then n + 1 else 0)
      (if s'.current = s.current then k else 0) := by
  obtain ⟨hneed, ⟨hstay, hslice⟩ | ⟨hne, hwhole, -⟩⟩ := tick_cases hr h.need hcall
  · rw [if_pos hstay, if_pos hstay]
    refine ⟨hneed, ?_, hk, hlt hstay⟩
    rw [hstay, hslice, h.slice]
    omega
  · rw [if_neg hne, if_neg hne]
    exact whole hneed hwhole

theorem succ_lt (h : Counts s n m) (hr : Ring A s others l) (hcompany : Company s)
    (hcall : s.taskTick.irqReturn T sp = .done s') (hstay : s'.current = s.current) :
    m + 1 < taskTimeSlice := by
  by_contra hnot
  have hle : (s.tasks s.current).sliceLeft ≤ 1 := by
    have hmn := h.le
    rw [h.slice]
    omega
  obtain ⟨s₁, hswitch, hne⟩ := tick_switches hr h.need hcompany hle T sp
  rw [hcall] at hswitch
  cases hswitch
  exact hne hstay

end Counts

theorem Ticked.counts (hrun : Ticked A T s others e n m) : Counts s n m := by
  induction hrun with
  | init hheap hevents hneed hcall =>
      obtain ⟨hneed', hslice⟩ := taskingInit_slice hcall
      exact .whole (hneed'.trans hneed) hslice
  | call hrun hcall ih =>
      obtain ⟨l, hr, -⟩ := hrun.run.ring
      exact ih.call hr hcall
  | tick sp hrun hcompany hcall ih =>
      obtain ⟨l, hr, -⟩ := hrun.run.ring
      exact ih.tick hr hcall (by have := ih.le; omega) (ih.succ_lt hr hcompany hcall)
  | tickAlone sp hrun _ hcall ih =>
      obtain ⟨l, hr, -⟩ := hrun.run.ring
      have halone := ih.tick hr hcall (Nat.zero_le _) fun _ ↦ by decide
      rwa [ite_self] at halone

/-- A tick switches away from a task only when its whole slice was delivered, and in company no
task gets more than its slice: the tick that completes it switches.  The end of another interrupt
never switches. -/
theorem time_slice_respected (hrun : Ticked A T s others e n m) :
    (∀ sp s', s.taskTick.irqReturn T sp = .done s' → s'.current ≠ s.current →
      taskTimeSlice ≤ n + 1) ∧
    (∀ sp s', s.irqReturn T sp = .done s' → s'.current = s.current) ∧
    m < taskTimeSlice ∧
    (Company s → m + 1 = taskTimeSlice → ∀ sp, ∃ s', s.taskTick.irqReturn T sp = .done s' ∧
      s'.current ≠ s.current) := by
  obtain ⟨l, hr, -⟩ := hrun.run.ring
  have hcounts := hrun.counts
  refine ⟨fun sp s' hcall hne ↦ ?_, fun sp s' hcall ↦ ?_, hcounts.lt, fun hcompany hm sp ↦ ?_⟩
  · obtain ⟨-, ⟨hstay, -⟩ | ⟨-, -, hle⟩⟩ := tick_cases hr hcounts.need hcall
    · exact absurd hstay hne
    · rw [hcounts.slice] at hle
      omega
  · rw [Tasking.irqReturn, Tasking.taskShouldResched, if_pos hcounts.need] at hcall
    cases hcall
    rfl
  · refine tick_switches hr hcounts.need hcompany ?_ T sp
    have hle := hcounts.le
    rw [hcounts.slice]
    omega

/-- A tick in company inside the slice, as a step of a run. -/
theorem Ticked.within (hrun : Ticked A T s others false n m) (hcompany : Company s)
    (hn : n + 1 < taskTimeSlice) :
    Ticked A T s.taskTick others false (n + 1) (m + 1) ∧ Company s.taskTick := by
  obtain ⟨l, hr, -⟩ := hrun.run.ring
  have hcounts := hrun.counts
  obtain ⟨hcurrent, -, -, -, -⟩ := taskTick_fields s
  have hcall : s.taskTick.irqReturn T 0 = .done s.taskTick := by
    rw [irqReturn_taskTick hr.active hcounts.need, if_neg]
    rw [hcounts.slice]
    omega
  have htick := Ticked.tick 0 hrun hcompany hcall
  rw [if_pos hcurrent, if_pos hcurrent] at htick
  exact ⟨htick, hcompany.taskTick⟩

theorem exists_ticked : ∃ s : Tasking, Ticked lowArena lowTables s [] false 4 4 ∧ Company s := by
  have hcalls : (do
      let s ← fresh.taskingInit
      let r ← s.taskCreate [0x6B]
      .done r.2).value?.map (fun s : Tasking ↦ decide (s.next s.current ≠ s.current ∧
        (s.tasks (s.next s.current)).state ≠ TaskState.zombie)) = some true := by
    decide +kernel
  obtain ⟨s, hvalue, hother⟩ := Option.map_eq_some_iff.mp hcalls
  obtain ⟨_, hinit, hrest⟩ := Outcome.bind_eq_done_iff.mp (Outcome.value?_eq_some.mp hvalue)
  obtain ⟨⟨t, _⟩, hcreate, hdone⟩ := Outcome.bind_eq_done_iff.mp hrest
  cases hdone
  have hrun := Ticked.call (T := lowTables) (.init fresh_inv rfl rfl hinit)
    (.plain (.create [0x6B] hcreate))
  rw [ite_self] at hrun
  obtain ⟨hrun₁, hcompany₁⟩ := hrun.within ⟨1, of_decide_eq_true hother⟩ (by decide)
  obtain ⟨hrun₂, hcompany₂⟩ := hrun₁.within hcompany₁ (by decide)
  obtain ⟨hrun₃, hcompany₃⟩ := hrun₂.within hcompany₂ (by decide)
  obtain ⟨hrun₄, hcompany₄⟩ := hrun₃.within hcompany₃ (by decide)
  exact ⟨_, hrun₄, hcompany₄⟩

theorem time_slice_respected_fifth : ∃ s s' : Tasking, Ticked lowArena lowTables s [] false 4 4 ∧
    s.taskTick.irqReturn lowTables 0 = .done s' ∧ s'.current ≠ s.current := by
  obtain ⟨s, hrun, hcompany⟩ := exists_ticked
  obtain ⟨-, -, -, hfifth⟩ := time_slice_respected hrun
  obtain ⟨s', hcall, hne⟩ := hfifth hcompany rfl 0
  exact ⟨s, s', hrun, hcall, hne⟩

end MyOS.Sched
