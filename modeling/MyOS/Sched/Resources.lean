import MyOS.Sched.Calls

/-!
# The blocks that tasks have

A task record, a kernel stack and, for a task of ring 3, a user stack are allocated when a task
is created and freed when it is reaped.  In between the heap has no block that neither a task on
the ring nor the rest of the kernel owns.
-/

namespace MyOS.Sched

open Heap Elf Tiling

variable {A : Arena} {T : Tables} {s s' : Tasking} {others l : List ℕ} {e : Bool}
  {c r t sp : ℕ} {k k' : Task}

/-- What `task_create` and `task_create_user` have allocated for the task at `t`. -/
def Task.resources (k : Task) (t : ℕ) : List ℕ :=
  t :: ((if k.stackBase ≠ 0 then [k.stackBase] else []) ++
    if k.isUser = true then [k.userStackBase] else [])

/-- A task of ring 3 has two stacks, and no other task has a user stack. -/
structure Task.Shaped (k : Task) : Prop where
  user : k.isUser = true → k.stackBase ≠ 0 ∧ k.userStackBase ≠ 0
  kernel : k.isUser = false → k.userStackBase = 0

/-- The fields of a record that tell what it owns. -/
def Task.stacks (k : Task) : ℕ × ℕ × Bool := (k.stackBase, k.userStackBase, k.isUser)

theorem Task.Shaped.congr (h : k.Shaped) (hsame : k'.stacks = k.stacks) : k'.Shaped := by
  simp only [Task.stacks, Prod.mk.injEq] at hsame
  obtain ⟨hstack, hustack, huser⟩ := hsame
  refine ⟨?_, ?_⟩
  · rw [huser, hstack, hustack]
    exact h.user
  · rw [huser, hustack]
    exact h.kernel

theorem stacks_of_kept (hkept : k'.kept = k.kept) : k'.stacks = k.stacks := by
  simp only [Task.kept, Prod.mk.injEq] at hkept
  rw [Task.stacks, Task.stacks, hkept.1, hkept.2.1, hkept.2.2.2.1]

/-- All tasks on the ring have the stacks that go with their kind; the first task ever made, the
boot task, is the only one that may have no kernel stack. -/
def Shapes (s : Tasking) : Prop :=
  (∀ t ∈ alive s.events, (s.tasks t).Shaped) ∧
    ∃ boot, s.events.getLast? = some (.create boot) ∧
      ∀ t ∈ alive s.events, (s.tasks t).stackBase = 0 → t = boot

theorem alive_append_reaps {new : List Event} {old : List Event}
    (hnew : ∀ ev ∈ new, ∃ t c, ev = .reap t c) : alive (new ++ old) ⊆ alive old := by
  induction new with
  | nil => exact List.Subset.refl _
  | cons ev new ih =>
      obtain ⟨t, c, rfl⟩ := hnew ev List.mem_cons_self
      intro x hx
      exact ih (fun ev hev ↦ hnew ev (List.mem_cons_of_mem _ hev)) (List.mem_of_mem_erase hx)

theorem getLast?_append_of_some (new : List Event) {old : List Event} {ev : Event}
    (h : old.getLast? = some ev) : (new ++ old).getLast? = some ev := by
  rw [List.getLast?_append, h]
  rfl

namespace Shapes

/-- Nothing is created, and no record changes what it owns. -/
theorem congr (new : List Event) (h : Shapes s) (hevents : s'.events = new ++ s.events)
    (hsub : alive s'.events ⊆ alive s.events)
    (hsame : ∀ x, (s'.tasks x).stacks = (s.tasks x).stacks) : Shapes s' := by
  obtain ⟨hshaped, boot, hlast, hboot⟩ := h
  refine ⟨fun t ht ↦ (hshaped t (hsub ht)).congr (hsame t), boot, ?_, fun t ht hzero ↦ ?_⟩
  · rw [hevents]
    exact getLast?_append_of_some new hlast
  · have hstack := congrArg Prod.fst (hsame t)
    exact hboot t (hsub ht) (hstack.symm.trans hzero)

theorem same (h : Shapes s) (hevents : s'.events = s.events)
    (hsame : ∀ x, (s'.tasks x).stacks = (s.tasks x).stacks) : Shapes s' := by
  refine h.congr [] hevents ?_ hsame
  rw [hevents]
  exact List.Subset.refl _

theorem create (h : Shapes s) (hevents : s'.events = .create t :: s.events)
    (hsame : ∀ x, x ≠ t → (s'.tasks x).stacks = (s.tasks x).stacks)
    (hnew : (s'.tasks t).Shaped) (hstack : (s'.tasks t).stackBase ≠ 0) : Shapes s' := by
  obtain ⟨hshaped, boot, hlast, hboot⟩ := h
  have hold : ∀ x ∈ alive s'.events, x ≠ t → x ∈ alive s.events := by
    intro x hx hne
    rw [hevents] at hx
    exact (List.mem_cons.mp hx).resolve_left hne
  refine ⟨fun x hx ↦ ?_, boot, ?_, fun x hx hzero ↦ ?_⟩
  · by_cases hxt : x = t
    · rw [hxt]
      exact hnew
    · exact (hshaped x (hold x hx hxt)).congr (hsame x hxt)
  · rw [hevents]
    exact getLast?_append_of_some [.create t] hlast
  · by_cases hxt : x = t
    · rw [hxt] at hzero
      exact absurd hzero hstack
    · have hfield := congrArg Prod.fst (hsame x hxt)
      exact hboot x (hold x hx hxt) (hfield.symm.trans hzero)

/-- A record is filled in and its task put on the ring. -/
theorem enqueue {h : Kheap} {f : Task → Task} {n : ℕ} (hs : Shapes s) (hactive : s.active = true)
    (hnew : (f (s.tasks t)).Shaped) (hstack : (f (s.tasks t)).stackBase ≠ 0) :
    Shapes ({ (s.setHeap h).modify t f with nextId := n }.enqueue t) := by
  have hkept := enqueue_tasks (s := { (s.setHeap h).modify t f with nextId := n }) (t := t) hactive
  have hself : ({ (s.setHeap h).modify t f with nextId := n } : Tasking).tasks t = f (s.tasks t) :=
    Function.update_self _ _ _
  have hstacks := stacks_of_kept (hkept t).2
  rw [hself] at hstacks
  refine hs.create ?_ (fun x hx ↦ ?_) (hnew.congr hstacks) ?_
  · rw [Tasking.enqueue, if_neg (by simp [Tasking.modify, Tasking.setHeap, hactive])]
    rfl
  · have hother : ({ (s.setHeap h).modify t f with nextId := n } : Tasking).tasks x = s.tasks x :=
      Function.update_of_ne hx _ _
    rw [stacks_of_kept (hkept x).2, hother]
  · have hfield := congrArg Prod.fst hstacks
    exact fun hzero ↦ hstack (hfield.symm.trans hzero)

theorem taskYield (hs : Shapes s) (hactive : s.active = true)
    (hcall : s.taskYield T sp = .done s') : Shapes s' := by
  obtain ⟨r, s₁, -, hrel, hcases⟩ := taskYield_cases hactive hcall
  obtain ⟨new, hnew, hreaps⟩ := hrel.events
  have hstacks : ∀ x, (s₁.tasks x).stacks = (s.tasks x).stacks :=
    hrel.frame (g := Task.stacks) fun _ _ ↦ rfl
  have hs₁ : Shapes s₁ := by
    refine hs.congr new hnew ?_ hstacks
    rw [hnew]
    exact alive_append_reaps hreaps
  rcases hcases with ⟨-, rfl⟩ | ⟨hr, rfl⟩
  · exact hs₁
  · obtain ⟨-, -, -, hevents, -⟩ := switchTo_fields s₁ s.current r sp
    refine hs₁.congr [.resume r (s₁.tasks r).state] hevents ?_ fun x ↦
      stacks_of_kept (switchTo_tasks sp (Ne.symm hr) x).1
    rw [hevents]
    exact List.Subset.refl _

end Shapes

theorem shaped_kernelRecord (id stack : ℕ) (name : List UInt8) (k : Task) :
    (Tasking.kernelRecord id name stack k).Shaped :=
  ⟨fun h ↦ Bool.noConfusion h, fun _ ↦ rfl⟩

theorem shapes_taskCreateUser {name : List UInt8} (hs : Shapes s) (hr : Ring A s others l)
    (hcall : s.taskCreateUser name = .done (t, s')) : Shapes s' := by
  rcases taskCreateUser_cases hr hcall with ⟨-, h, rfl, -⟩ |
    ⟨-, -, h, _, ⟨kstack, ustack, hk, hu, rfl⟩, rfl⟩
  · exact hs.same rfl fun _ ↦ rfl
  · exact hs.enqueue hr.active ⟨fun _ ↦ ⟨hk, hu⟩, fun hf ↦ Bool.noConfusion hf⟩ hk

theorem Run.shapes (hrun : Run A T s others e) : Shapes s := by
  induction hrun with
  | @init s s' others hheap hevents hcall =>
      obtain ⟨⟨boot, h⟩, -, hcall⟩ := Outcome.bind_eq_done_iff.mp hcall
      simp only at hcall
      split_ifs at hcall
      cases hcall
      refine ⟨fun t ht ↦ ?_, boot, ?_, fun t ht _ ↦ ?_⟩
      · obtain rfl : t = boot := by
          simpa [Tasking.log, Tasking.modify, Tasking.setHeap, hevents, alive] using ht
        simp only [Tasking.log, Tasking.modify, Function.update_self]
        exact ⟨fun hf ↦ Bool.noConfusion hf, fun _ ↦ rfl⟩
      · simp [Tasking.log, Tasking.modify, Tasking.setHeap, hevents]
      · simpa [Tasking.log, Tasking.modify, Tasking.setHeap, hevents, alive] using ht
  | create name hrun hcall ih =>
      obtain ⟨l, hr, -⟩ := hrun.ring
      rcases taskCreate_cases hr hcall with ⟨-, h, rfl, -⟩ | ⟨-, -, h, _, ⟨stack, hstack, rfl⟩, rfl⟩
      · exact ih.same rfl fun _ ↦ rfl
      · exact ih.enqueue hr.active (shaped_kernelRecord _ _ _ _) hstack
  | createUser name hrun hcall ih =>
      obtain ⟨l, hr, -⟩ := hrun.ring
      exact shapes_taskCreateUser ih hr hcall
  | createUserImage name image hrun hcall ih =>
      obtain ⟨l, hr, -⟩ := hrun.ring
      obtain ⟨⟨t, s₁⟩, hcreate, hcall⟩ := Outcome.bind_eq_done_iff.mp hcall
      have hs₁ := shapes_taskCreateUser ih hr hcreate
      simp only at hcall
      split_ifs at hcall
      · cases hcall
        exact hs₁
      · cases hcall
        exact hs₁.same rfl fun x ↦ modify_frame (f := fun k ↦ { k with image := some image })
          (g := Task.stacks) (fun _ ↦ rfl) x
  | createNoImage name _ hcall ih =>
      cases hcall
      exact ih
  | @exit s _ _ ih => exact ih.same rfl fun x ↦ stacks_of_kept (taskExit_tasks s x).2
  | @tick s _ _ _ ih =>
      exact ih.same (taskTick_fields s).2.2.2.1 fun x ↦
        taskTick_frame s (fun _ _ ↦ rfl) (fun _ _ ↦ rfl) x
  | yield sp hrun hcall ih =>
      obtain ⟨l, hr, -⟩ := hrun.ring
      exact ih.taskYield hr.active hcall
  | @irq s s' others exiting sp hrun hcall ih =>
      obtain ⟨l, hr, -⟩ := hrun.ring
      rw [Tasking.irqReturn, Tasking.taskShouldResched] at hcall
      cases hneed : s.needResched with
      | false =>
          simp only [hneed, if_pos, Bool.false_eq_true, if_false] at hcall
          cases hcall
          exact ih
      | true =>
          rw [hneed, if_neg Bool.true_eq_false.mp, if_pos rfl] at hcall
          have hs₁ : Shapes { s with needResched := false } := ih.same rfl fun _ ↦ rfl
          exact hs₁.taskYield hr.active hcall
  | malloc size _ hcall ih => exact ih.same rfl fun _ ↦ rfl
  | free _ hcall ih => exact ih.same rfl fun _ ↦ rfl
  | reorder _ _ ih => exact ih
  | paging mm _ ih => exact ih.same rfl fun _ ↦ rfl

/-! ## Ownership -/

/-- The blocks of a task, the image first or last. -/
theorem owned_perm (hk : k.Shaped) :
    (k.owned t).Perm (k.resources t ++ k.image.toList.map UserImage.ptr) := by
  have hstacks : (if k.userStackBase ≠ 0 then [k.userStackBase] else []) =
      if k.isUser = true then [k.userStackBase] else [] := by
    cases huser : k.isUser with
    | true => rw [if_pos (hk.user huser).2, if_pos rfl]
    | false => rw [if_neg (not_not.mpr (hk.kernel huser)), if_neg Bool.false_ne_true]
  rw [Task.owned, Task.resources, hstacks, ← List.append_assoc
    (if k.stackBase ≠ 0 then [k.stackBase] else [])]
  refine List.perm_append_comm.trans (List.Perm.append_right _ ?_)
  exact List.perm_append_singleton t _

theorem flatMap_owned_perm (hshaped : ∀ t ∈ l, (s.tasks t).Shaped) :
    (l.flatMap fun t ↦ (s.tasks t).owned t).Perm
      ((l.flatMap fun t ↦ (s.tasks t).resources t) ++
        l.flatMap fun t ↦ (s.tasks t).image.toList.map UserImage.ptr) := by
  have hall : (l.flatMap fun t ↦ (s.tasks t).owned t).Perm (l.flatMap fun t ↦
      (s.tasks t).resources t ++ (s.tasks t).image.toList.map UserImage.ptr) :=
    List.Perm.flatMap_left l fun t ht ↦ owned_perm (hshaped t ht)
  exact hall.trans (List.flatMap_append_perm l _ _).symm

/-- A creation that returned `NULL` has changed nothing but the bytes of free blocks. -/
def Untouched (s s' : Tasking) : Prop :=
  blockList s'.sys.heap = blockList s.sys.heap ∧ s'.tasks = s.tasks ∧ s'.current = s.current

theorem Tasking.Created.untouched {P : (Task → Task) → Prop} (h : s.Created l P 0 s') :
    Untouched s s' := by
  rcases h with ⟨-, h, rfl, hblocks⟩ | ⟨hne, -⟩
  · exact ⟨hblocks, rfl, rfl⟩
  · exact absurd rfl hne

/-- In every state of every run the blocks in use are those of the tasks on the ring, their images
and those of the rest of the kernel.  No yield and no creation panics, and a creation that returns
`NULL` leaves the blocks, the ring and the current task as they were. -/
theorem resources_released_once (hrun : Run A T s others e) :
    (∃ l, Walk s.next s.current l s.current ∧ l ≠ [] ∧ l.Nodup ∧
      (held hdrSize (blockList s.sys.heap)).Perm ((l.flatMap fun t ↦ (s.tasks t).resources t) ++
        ((l.flatMap fun t ↦ (s.tasks t).image.toList.map UserImage.ptr) ++ others)) ∧
      (∀ t ∈ l, (s.tasks t).Shaped) ∧
      ∃ boot, s.events.getLast? = some (.create boot) ∧
        ∀ t ∈ l, (s.tasks t).stackBase = 0 → t = boot) ∧
      (∀ sp, (∃ s', s.taskYield T sp = .done s') ∨
        s.taskYield T sp = .halt "\n[scheduler] no runnable tasks. halting.\n") ∧
      CreatesReturn s ∧
      ∀ name s', s.taskCreate name = .done (0, s') ∨ s.taskCreateUser name = .done (0, s') →
        Untouched s s' := by
  obtain ⟨l, hr, hs⟩ := hrun.ring
  obtain ⟨hshaped, boot, hlast, hboot⟩ := hrun.shapes
  have hring : ∀ t ∈ l, t ∈ alive s.events := fun t ht ↦ hr.alive.mem_iff.mp ht
  refine ⟨⟨l, hr.walk, hr.ne_nil, hr.nodup, ?_, fun t ht ↦ hshaped t (hring t ht), boot, hlast,
    fun t ht ↦ hboot t (hring t ht)⟩, fun sp ↦ ?_, hr.createsReturn, ?_⟩
  · obtain ⟨bs, hbs, hlive⟩ := hr.heap
    rw [hbs.blockList, ← List.append_assoc]
    refine hlive.symm.trans (List.Perm.append_right others ?_)
    exact flatMap_owned_perm fun t ht ↦ hshaped t (hring t ht)
  · rcases taskYield_spec T hr hs sp with ⟨s', l', hcall, -⟩ | ⟨hhalt, -⟩
    · exact Or.inl ⟨s', hcall⟩
    · exact Or.inr hhalt
  · rintro name s' (hcall | hcall)
    · exact (taskCreate_cases hr hcall).untouched
    · exact (taskCreateUser_cases hr hcall).untouched

/-- A run in which the boot task has made a task of ring 3. -/
theorem exists_run_user : ∃ s : Tasking, Run lowArena lowTables s [] false ∧
    (alive s.events).length = 2 := by
  have hcalls : (do
      let s ← fresh.taskingInit
      let r ← s.taskCreateUser [0x75]
      .done r.2).value?.map (fun s : Tasking ↦ (alive s.events).length) = some 2 := by
    decide +kernel
  obtain ⟨s, hvalue, hlength⟩ := Option.map_eq_some_iff.mp hcalls
  obtain ⟨s₁, hinit, hrest⟩ := Outcome.bind_eq_done_iff.mp (Outcome.value?_eq_some.mp hvalue)
  obtain ⟨⟨t, s₂⟩, hcreate, hdone⟩ := Outcome.bind_eq_done_iff.mp hrest
  cases hdone
  exact ⟨_, .createUser [0x75] (.init fresh_inv rfl hinit) hcreate, hlength⟩

theorem resources_released_once_user : ∃ s : Tasking, Run lowArena lowTables s [] false ∧
    (alive s.events).length = 2 ∧
    (∃ l, Walk s.next s.current l s.current ∧ (held hdrSize (blockList s.sys.heap)).Perm
      ((l.flatMap fun t ↦ (s.tasks t).resources t) ++
        ((l.flatMap fun t ↦ (s.tasks t).image.toList.map UserImage.ptr) ++ []))) ∧
    ∀ name s', s.taskCreate name = .done (0, s') ∨ s.taskCreateUser name = .done (0, s') →
      Untouched s s' := by
  obtain ⟨s, hrun, hlength⟩ := exists_run_user
  obtain ⟨⟨l, hwalk, -, -, hheld, -⟩, -, -, hnull⟩ := resources_released_once hrun
  exact ⟨s, hrun, hlength, ⟨l, hwalk, hheld⟩, hnull⟩

end MyOS.Sched
