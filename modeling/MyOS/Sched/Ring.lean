import MyOS.Heap.Contract
import MyOS.Heap.Sessions
import MyOS.Lib.Walk
import MyOS.Sched.Model

/-!
# The ring of tasks

From `g_current` the records linked by `next` come back to `g_current`, and each of them, its
stacks and its image are blocks of the heap that no other task and nobody else has.  A created
task is put behind `g_current`.  `pick_next` reaps the zombies that it meets before the first
task that can run, so what it reaps is always the successor of `g_current`.
-/

namespace MyOS.Sched

open Heap Elf

variable {A : Arena} {T : Tables} {s s' : Tasking} {others live l rest : List ℕ} {e : Bool}
  {c d p t : ℕ} {k : Task} {f : Task → Task} {h : Kheap}

/-! ## The invariant -/

/-- The heap blocks of the task at `t`, in the order in which `reap` frees them. -/
def Task.owned (k : Task) (t : ℕ) : List ℕ :=
  k.image.toList.map UserImage.ptr ++ ((if k.stackBase ≠ 0 then [k.stackBase] else []) ++
    ((if k.userStackBase ≠ 0 then [k.userStackBase] else []) ++ [t]))

/-- What a task keeps from its creation to its end, but for its place on the ring. -/
def Task.kept (k : Task) : ℕ × ℕ × Option UserImage × Bool × ℕ :=
  (k.stackBase, k.userStackBase, k.image, k.isUser, k.kernelStackTop)

theorem Task.image_of_kept {k k' : Task} (h : k.kept = k'.kept) : k.image = k'.image :=
  congrArg (fun x ↦ x.2.2.1) h

theorem Task.isUser_of_kept {k k' : Task} (h : k.kept = k'.kept) : k.isUser = k'.isUser :=
  congrArg (fun x ↦ x.2.2.2.1) h

theorem Task.top_of_kept {k k' : Task} (h : k.kept = k'.kept) :
    k.kernelStackTop = k'.kernelStackTop := congrArg (fun x ↦ x.2.2.2.2) h

/-- The tasks that were created and not reaped since. -/
def alive : List Event → List ℕ
  | [] => []
  | .create t :: es => t :: alive es
  | .reap t _ :: es => (alive es).erase t
  | .resume _ _ :: es => alive es

/-- The current task is not reaped, and no zombie is resumed. -/
def Event.Proper : Event → Prop
  | .create _ => True
  | .reap t current => t ≠ current
  | .resume _ state => state ≠ .zombie

/-- The tasks on the ring from `g_current` on are `l`.  The blocks `others` of the heap belong
to nobody on the ring. -/
structure Ring (A : Arena) (s : Tasking) (others l : List ℕ) : Prop where
  walk : Walk s.next s.current l s.current
  ne_nil : l ≠ []
  heap : HeapInv A ⟨s.sys.heap, l.flatMap (fun t ↦ (s.tasks t).owned t) ++ others⟩
  active : s.active = true
  alive : l.Perm (alive s.events)
  proper : ∀ e ∈ s.events, e.Proper
  tops : ∀ t ∈ l, (s.tasks t).isUser = true → (s.tasks t).kernelStackTop ≠ 0

/-- `exiting` is the time between the mark of `task_exit` and the switch that follows. -/
structure Settled (s : Tasking) (exiting : Bool) (l : List ℕ) : Prop where
  current : (s.tasks s.current).state = if exiting = true then .zombie else .running
  rest : ∀ t ∈ l, t ≠ s.current → (s.tasks t).state ≠ .running
  esp0 : (s.tasks s.current).isUser = true → s.esp0 = (s.tasks s.current).kernelStackTop

theorem Task.owned_congr {k' : Task} (hkept : k'.kept = k.kept) : k'.owned t = k.owned t := by
  simp only [kept, Prod.mk.injEq] at hkept
  obtain ⟨hstack, hustack, himage, -⟩ := hkept
  rw [owned, owned, hstack, hustack, himage]

theorem Task.self_mem_owned : t ∈ k.owned t := by simp [owned]

@[simp] theorem modify_tasks : (s.modify t f).tasks = Function.update s.tasks t (f (s.tasks t)) :=
  rfl

/-- What `f` keeps of a record, a change by `f` keeps of all records. -/
theorem modify_frame {β : Type} {g : Task → β} (hf : ∀ k, g (f k) = g k) (x : ℕ) :
    g ((s.modify t f).tasks x) = g (s.tasks x) := by
  rw [modify_tasks, Function.update_apply]
  split_ifs with hx
  · rw [hf, hx]
  · rfl

theorem flatMap_owned_congr {tasks tasks' : ℕ → Task}
    (hkept : ∀ t ∈ l, (tasks' t).kept = (tasks t).kept) :
    l.flatMap (fun t ↦ (tasks' t).owned t) = l.flatMap fun t ↦ (tasks t).owned t :=
  List.flatMap_congr fun t ht ↦ Task.owned_congr (hkept t ht)

theorem mem_flatMap_owned {tasks : ℕ → Task} (ht : t ∈ l) :
    t ∈ l.flatMap fun t ↦ (tasks t).owned t :=
  List.mem_flatMap.mpr ⟨t, ht, Task.self_mem_owned⟩

namespace Ring

theorem nodup (hr : Ring A s others l) : l.Nodup := by
  have hall := (List.nodup_append.mp hr.heap.nodup).1
  refine (List.nodup_flatMap.mp hall).2.imp ?_
  rintro a b hdisj rfl
  exact hdisj Task.self_mem_owned Task.self_mem_owned

theorem length_lt (hr : Ring A s others l) : l.length < walkFuel := by
  have hle : l.length ≤ (l.flatMap fun t ↦ (s.tasks t).owned t).length := by
    rw [List.length_flatMap]
    calc l.length = (l.map fun _ ↦ 1).sum := by simp
      _ ≤ (l.map fun t ↦ ((s.tasks t).owned t).length).sum :=
        List.sum_le_sum fun t _ ↦ List.length_pos_of_mem Task.self_mem_owned
  have hlt := hr.heap.length_lt
  rw [List.length_append] at hlt
  omega

/-- The list starts with the current task. -/
theorem exists_cons (hr : Ring A s others l) : ∃ rest, l = s.current :: rest := by
  cases l with
  | nil => exact absurd rfl hr.ne_nil
  | cons c rest =>
      obtain ⟨rfl, -⟩ := hr.walk
      exact ⟨rest, rfl⟩

theorem current_mem (hr : Ring A s others l) : s.current ∈ l := hr.walk.start_mem hr.ne_nil

theorem notMem (hr : Ring A s others l) (ht : t ∈ others) : t ∉ l := by
  intro hmem
  exact List.disjoint_of_nodup_append hr.heap.nodup (mem_flatMap_owned hmem) ht

/-- The ring only depends on what tasks keep and on their successors. -/
theorem congr (hr : Ring A s others l) (hcurrent : s'.current = s.current)
    (hheap : s'.sys.heap = s.sys.heap) (hactive : s'.active = s.active)
    (hevents : s'.events = s.events) (hnext : ∀ t ∈ l, s'.next t = s.next t)
    (hkept : ∀ t ∈ l, (s'.tasks t).kept = (s.tasks t).kept) : Ring A s' others l := by
  refine ⟨?_, hr.ne_nil, ?_, hactive.trans hr.active, ?_, ?_, ?_⟩
  · rw [hcurrent]
    exact hr.walk.congr hnext
  · rw [hheap, flatMap_owned_congr hkept]
    exact hr.heap
  · rw [hevents]
    exact hr.alive
  · rw [hevents]
    exact hr.proper
  · intro t ht
    rw [Task.isUser_of_kept (hkept t ht), Task.top_of_kept (hkept t ht)]
    exact hr.tops t ht

theorem setHeap (hr : Ring A s others l) {others' : List ℕ}
    (hheap : HeapInv A ⟨h, l.flatMap (fun t ↦ (s.tasks t).owned t) ++ others'⟩) :
    Ring A (s.setHeap h) others' l :=
  ⟨hr.walk, hr.ne_nil, hheap, hr.active, hr.alive, hr.proper, hr.tops⟩

/-- Another part of the kernel, or `task_create`, takes a block. -/
theorem kmalloc (hr : Ring A s others l) (size : ℕ) :
    ∃ p h, Heap.kmalloc s.sys.heap size = .done (p, h) ∧
      Ring A (s.setHeap h) (if p = 0 then others else p :: others) l ∧
      (p ≠ 0 → size ≤ 0xFFFFFFF8 → p + size ≤ A.base + storageSize) := by
  obtain ⟨p, h, hcall, hinv⟩ := kmalloc_inv hr.heap size
  refine ⟨p, h, hcall, hr.setHeap (hinv.perm ?_), fun hp hsize ↦
    (hr.heap.kmalloc_serves hsize hcall hp).upper⟩
  by_cases hp : p = 0
  · simp only [if_pos hp]
    exact List.Perm.refl _
  · simp only [if_neg hp]
    exact List.perm_middle

/-- A block that no task has is given back. -/
theorem kfree (hr : Ring A s (p :: others) l) :
    ∃ h, Heap.kfree s.sys.heap p = .done h ∧ Ring A (s.setHeap h) others l := by
  obtain ⟨h, hcall, hinv⟩ := (hr.heap.perm List.perm_middle.symm).free_head
  exact ⟨h, hcall, hr.setHeap hinv⟩

theorem free (hr : Ring A s (p :: others) l) :
    ∃ h, s.free p = .done (s.setHeap h) ∧ Ring A (s.setHeap h) others l := by
  obtain ⟨h, hcall, hr'⟩ := hr.kfree
  refine ⟨h, ?_, hr'⟩
  rw [Tasking.free, hcall, Outcome.done_bind]

theorem perm (hr : Ring A s others l) {others' : List ℕ} (hperm : others'.Perm others) :
    Ring A s others' l :=
  ⟨hr.walk, hr.ne_nil, hr.heap.perm (hperm.append_left _), hr.active, hr.alive, hr.proper, hr.tops⟩

end Ring

theorem Settled.congr {l' : List ℕ} (hs : Settled s e l) (hcurrent : s'.current = s.current)
    (hesp0 : s'.esp0 = s.esp0) (hmem : s.current ∈ l) (hl : l' ⊆ l)
    (hstate : ∀ t ∈ l, (s'.tasks t).state = (s.tasks t).state)
    (hkept : ∀ t ∈ l, (s'.tasks t).kept = (s.tasks t).kept) : Settled s' e l' := by
  refine ⟨?_, ?_, ?_⟩
  · rw [hcurrent, hstate _ hmem]
    exact hs.current
  · intro t ht
    rw [hcurrent, hstate t (hl ht)]
    exact hs.rest t (hl ht)
  · rw [hcurrent, hesp0, Task.isUser_of_kept (hkept _ hmem), Task.top_of_kept (hkept _ hmem)]
    exact hs.esp0

theorem Settled.setHeap (hs : Settled s e l) : Settled (s.setHeap h) e l :=
  ⟨hs.current, hs.rest, hs.esp0⟩

/-! ## Creation -/

/-- What a new task brings with it: its record is filled in and its blocks were not on the ring. -/
theorem Ring.enqueue (hr : Ring A s ((s.tasks t).owned t ++ others) l)
    (htop : (s.tasks t).isUser = true → (s.tasks t).kernelStackTop ≠ 0) :
    ∃ rest, l = s.current :: rest ∧
      Ring A (s.enqueue t) others (s.current :: t :: rest) := by
  have hnot : t ∉ l := hr.notMem (List.mem_append_left others Task.self_mem_owned)
  obtain ⟨rest, rfl⟩ := hr.exists_cons
  refine ⟨rest, rfl, ?_⟩
  have hne : t ≠ s.current := fun heq ↦ hnot (heq ▸ List.mem_cons_self)
  have hnodup := hr.nodup
  obtain ⟨-, hwalk⟩ := hr.walk
  have hactive : ¬ s.active = false := by simp [hr.active]
  rw [Tasking.enqueue, if_neg hactive]
  have hkept : ∀ x, (((s.readyInsertAfterCurrent t).log (.create t)).tasks x).kept =
      (s.tasks x).kept := by
    intro x
    simp only [Tasking.readyInsertAfterCurrent, Tasking.setNext, Tasking.log, Tasking.modify,
      Function.update_apply]
    split_ifs <;> subst_vars <;> rfl
  have hnext : ∀ x, ((s.readyInsertAfterCurrent t).log (.create t)).next x =
      if x = s.current then t else if x = t then s.next s.current else s.next x := by
    intro x
    simp only [Tasking.next, Tasking.readyInsertAfterCurrent, Tasking.setNext, Tasking.log,
      Tasking.modify, Function.update_apply]
    split_ifs <;> subst_vars <;> rfl
  refine ⟨⟨rfl, ?_, ?_⟩, List.cons_ne_nil _ _, ?_, hr.active, ?_, ?_, ?_⟩
  · exact (hnext s.current).trans (if_pos rfl) |>.symm
  · change Walk _ (((s.readyInsertAfterCurrent t).log (.create t)).next
      (((s.readyInsertAfterCurrent t).log (.create t)).next s.current)) _ _
    rw [hnext s.current, if_pos rfl, hnext t, if_neg hne, if_pos rfl]
    refine hwalk.congr fun x hx ↦ ?_
    rw [hnext x, if_neg, if_neg]
    · rintro rfl
      exact hnot (List.mem_cons_of_mem _ hx)
    · rintro rfl
      exact (List.nodup_cons.mp hnodup).1 hx
  · rw [flatMap_owned_congr fun x _ ↦ hkept x]
    refine hr.heap.perm ?_
    simp only [List.flatMap_cons, List.append_assoc]
    exact (List.perm_append_comm_assoc _ _ others).append_left _
  · exact (List.Perm.swap t s.current rest).trans (hr.alive.cons t)
  · intro ev hev
    rcases List.mem_cons.mp hev with rfl | hev
    · trivial
    · exact hr.proper ev hev
  · intro x hx
    rw [Task.isUser_of_kept (hkept x), Task.top_of_kept (hkept x)]
    rcases List.mem_cons.mp hx with rfl | hx
    · exact hr.tops _ List.mem_cons_self
    · rcases List.mem_cons.mp hx with rfl | hx
      · exact htop
      · exact hr.tops x (List.mem_cons_of_mem _ hx)

/-- A record off the ring, and the next id, are written. -/
theorem fill_tasks (ht : t ∉ l) (n : ℕ) :
    ∀ x ∈ l, ({ s.modify t f with nextId := n }).tasks x = s.tasks x := by
  intro x hx
  refine Function.update_of_ne ?_ _ _
  rintro rfl
  exact ht hx

theorem Ring.fill (hr : Ring A s others l) (ht : t ∉ l) (n : ℕ) :
    Ring A { s.modify t f with nextId := n } others l :=
  hr.congr rfl rfl rfl rfl (fun x hx ↦ congrArg Task.next (fill_tasks ht n x hx))
    fun x hx ↦ congrArg Task.kept (fill_tasks ht n x hx)

theorem Settled.fill (hs : Settled s e l) (hmem : s.current ∈ l) (ht : t ∉ l) (n : ℕ) :
    Settled { s.modify t f with nextId := n } e l :=
  hs.congr rfl rfl hmem (List.Subset.refl l)
    (fun x hx ↦ congrArg Task.state (fill_tasks ht n x hx))
    fun x hx ↦ congrArg Task.kept (fill_tasks ht n x hx)

/-- Only successors change when a task goes on the ring. -/
theorem enqueue_tasks (hactive : s.active = true) (x : ℕ) :
    ((s.enqueue t).tasks x).state = (s.tasks x).state ∧
      ((s.enqueue t).tasks x).kept = (s.tasks x).kept := by
  rw [Tasking.enqueue, if_neg (by simp [hactive])]
  simp only [Tasking.readyInsertAfterCurrent, Tasking.setNext, Tasking.log, Tasking.modify,
    Function.update_apply]
  split_ifs <;> subst_vars <;> exact ⟨rfl, rfl⟩

theorem enqueue_current (hactive : s.active = true) :
    (s.enqueue t).current = s.current ∧ (s.enqueue t).esp0 = s.esp0 := by
  rw [Tasking.enqueue, if_neg (by simp [hactive])]
  exact ⟨rfl, rfl⟩

theorem Settled.enqueue (hs : Settled s e (s.current :: rest)) (hactive : s.active = true)
    (hready : (s.tasks t).state = .ready) : Settled (s.enqueue t) e (s.current :: t :: rest) := by
  have hlarge : Settled s e (s.current :: t :: rest) := by
    refine ⟨hs.current, ?_, hs.esp0⟩
    intro x hx hne
    rcases List.mem_cons.mp hx with rfl | hx
    · exact absurd rfl hne
    · rcases List.mem_cons.mp hx with rfl | hx
      · simp [hready]
      · exact hs.rest x (List.mem_cons_of_mem _ hx) hne
  exact hlarge.congr (enqueue_current hactive).1 (enqueue_current hactive).2 List.mem_cons_self
    (List.Subset.refl _) (fun x _ ↦ (enqueue_tasks hactive x).1)
    fun x _ ↦ (enqueue_tasks hactive x).2

/-- A record is written at `t`, and the task goes on the ring with the blocks that the record
names. -/
theorem Ring.admission (hr : Ring A s ((f (s.tasks t)).owned t ++ others) l)
    (hready : (f (s.tasks t)).state = .ready)
    (htop : (f (s.tasks t)).isUser = true → (f (s.tasks t)).kernelStackTop ≠ 0) (n : ℕ) :
    ∃ l', t ∈ l' ∧
      (({ s.modify t f with nextId := n }.enqueue t).tasks t).kept = (f (s.tasks t)).kept ∧
      Ring A ({ s.modify t f with nextId := n }.enqueue t) others l' ∧
      ∀ e, Settled s e l → Settled ({ s.modify t f with nextId := n }.enqueue t) e l' := by
  have hnot : t ∉ l := hr.notMem (List.mem_append_left others Task.self_mem_owned)
  have hring := hr.fill (f := f) hnot n
  have hsettled := fun e (hs : Settled s e l) ↦ hs.fill (f := f) hr.current_mem hnot n
  have hrecord : ({ s.modify t f with nextId := n }).tasks t = f (s.tasks t) :=
    Function.update_self _ _ _
  generalize ({ s.modify t f with nextId := n } : Tasking) = s₁ at hring hsettled hrecord ⊢
  rw [← hrecord] at hring hready htop ⊢
  obtain ⟨rest, rfl, hring'⟩ := hring.enqueue htop
  exact ⟨_, by simp, (enqueue_tasks hring.active t).2, hring',
    fun e hs ↦ (hsettled e hs).enqueue hring.active hready⟩

theorem Ring.freeIf (hr : Ring A s ((if p ≠ 0 then [p] else []) ++ others) l) :
    ∃ h, s.freeIf p = .done (s.setHeap h) ∧ Ring A (s.setHeap h) others l := by
  rw [Tasking.freeIf]
  by_cases hp : p ≠ 0
  · rw [if_pos hp] at hr ⊢
    exact hr.free
  · rw [if_neg hp] at hr ⊢
    exact ⟨s.sys.heap, rfl, hr.setHeap hr.heap⟩

/-! ## Creation -/

/-- The ring while a call holds the blocks `mine`, which it has taken from the heap with the blocks
`l₀`. -/
structure Lent (A : Arena) (l₀ : List Tiling.Block) (s : Tasking) (mine others l : List ℕ) :
    Prop where
  ring : Ring A s (mine ++ others) l
  borrowed : Borrowed A l₀ ⟨s.sys.heap, mine⟩

namespace Lent

variable {l₀ : List Tiling.Block} {mine : List ℕ}

theorem kmalloc (h : Lent A l₀ s mine others l) (size : ℕ) :
    ∃ p h', Heap.kmalloc s.sys.heap size = .done (p, h') ∧
      Lent A l₀ (s.setHeap h') (if p = 0 then mine else p :: mine) others l ∧
      (p ≠ 0 → size ≤ 0xFFFFFFF8 → p + size ≤ A.base + storageSize) := by
  obtain ⟨p, h', hcall, hr, hupper⟩ := h.ring.kmalloc size
  refine ⟨p, h', hcall, ⟨?_, h.borrowed.malloc hcall⟩, hupper⟩
  split_ifs at hr ⊢
  · exact hr
  · exact hr

theorem free (h : Lent A l₀ s (p :: mine) others l) :
    ∃ h', s.free p = .done (s.setHeap h') ∧ Lent A l₀ (s.setHeap h') mine others l := by
  obtain ⟨h', hcall, hr⟩ := h.ring.kfree
  obtain ⟨h'', hcall', hborrowed⟩ := h.borrowed.free List.mem_cons_self
  rw [hcall] at hcall'
  cases hcall'
  rw [List.erase_cons_head] at hborrowed
  refine ⟨h', ?_, hr, hborrowed⟩
  rw [Tasking.free, hcall, Outcome.done_bind]

theorem freeIf (h : Lent A l₀ s ((if p ≠ 0 then [p] else []) ++ mine) others l) :
    ∃ h', s.freeIf p = .done (s.setHeap h') ∧ Lent A l₀ (s.setHeap h') mine others l := by
  rw [Tasking.freeIf]
  by_cases hp : p ≠ 0
  · rw [if_pos hp] at h ⊢
    exact h.free
  · rw [if_neg hp] at h ⊢
    exact ⟨s.sys.heap, rfl, h.ring.setHeap h.ring.heap, h.borrowed⟩

theorem perm {mine' : List ℕ} (h : Lent A l₀ s mine others l) (hperm : mine'.Perm mine) :
    Lent A l₀ s mine' others l := by
  obtain ⟨bs, own, hbs, hlive, hused⟩ := h.borrowed
  exact ⟨h.ring.perm (hperm.append_right others), bs, own, hbs, hperm.trans hlive, hused⟩

end Lent

/-- What a creation can do.  Without success it has given its blocks back; else it has filled in a
record that was not on the ring. -/
def Tasking.Created (s : Tasking) (l : List ℕ) (P : (Task → Task) → Prop) (t : ℕ)
    (s' : Tasking) : Prop :=
  (t = 0 ∧ ∃ h, s' = s.setHeap h ∧ blockList h = blockList s.sys.heap) ∨
    (t ≠ 0 ∧ t ∉ l ∧ ∃ h f, P f ∧
      s' = { (s.setHeap h).modify t f with nextId := Word.add s.nextId 1 }.enqueue t)

theorem Ring.lent (hr : Ring A s others l) : ∃ l₀, Lent A l₀ s [] others l ∧
    ∀ h, Borrowed A l₀ ⟨h, []⟩ → blockList h = blockList s.sys.heap := by
  obtain ⟨l₀, hl₀, -⟩ := hr.heap
  exact ⟨l₀, ⟨hr, l₀, [], hl₀, .refl _, .refl _⟩, fun _ h ↦ h.blockList_eq hl₀ rfl⟩

/-- `task_create` returns.  Its task is on the ring, or nothing was taken. -/
theorem taskCreate_spec (hr : Ring A s others l) (name : List UInt8) :
    ∃ t s' l', s.taskCreate name = .done (t, s') ∧ Ring A s' others l' ∧
      (∀ e, Settled s e l → Settled s' e l') ∧ s.Created l (fun f ↦ ∃ stack, stack ≠ 0 ∧
        f = Tasking.kernelRecord s.nextId name stack) t s' := by
  obtain ⟨l₀, hlent, hback⟩ := hr.lent
  obtain ⟨t, h₁, hcall₁, hlent₁, -⟩ := hlent.kmalloc taskSize
  simp only [Tasking.taskCreate, hcall₁, Outcome.done_bind]
  by_cases ht : t = 0
  · rw [if_pos ht] at hlent₁ ⊢
    exact ⟨0, _, l, rfl, hlent₁.ring, fun _ hs ↦ hs.setHeap,
      Or.inl ⟨rfl, h₁, rfl, hback h₁ hlent₁.borrowed⟩⟩
  rw [if_neg ht] at hlent₁ ⊢
  obtain ⟨stack, h₂, hcall₂, hlent₂, -⟩ := hlent₁.kmalloc taskStackSize
  simp only [hcall₂, Outcome.done_bind]
  by_cases hstack : stack = 0
  · rw [if_pos hstack] at hlent₂ ⊢
    obtain ⟨h₃, hfree, hlent₃⟩ := hlent₂.free
    rw [hfree, Outcome.done_bind]
    exact ⟨0, _, l, rfl, hlent₃.ring, fun _ hs ↦ hs.setHeap.setHeap.setHeap,
      Or.inl ⟨rfl, h₃, rfl, hback h₃ hlent₃.borrowed⟩⟩
  rw [if_neg hstack] at hlent₂ ⊢
  have hr₂ := hlent₂.ring
  have howned : ∀ id k, (Tasking.kernelRecord id name stack k).owned t ++ others =
      stack :: t :: others := by
    intro id k
    simp [Task.owned, Tasking.kernelRecord, hstack]
  have hnot : t ∉ l := hr₂.notMem (by simp)
  rw [List.cons_append, List.cons_append, List.nil_append, ← howned
    (s.setHeap h₁ |>.setHeap h₂).nextId ((s.setHeap h₁ |>.setHeap h₂).tasks t)] at hr₂
  obtain ⟨l', -, -, hr', hs'⟩ := hr₂.admission rfl (by simp [Tasking.kernelRecord])
    (Word.add s.nextId 1)
  exact ⟨t, _, l', rfl, hr', fun e hs ↦ hs' e hs.setHeap.setHeap,
    Or.inr ⟨ht, hnot, h₂, _, ⟨stack, hstack, rfl⟩, rfl⟩⟩

/-- The top of a stack that was allocated is not the address zero. -/
theorem stackTop_ne_zero {stack : ℕ} (hupper : stack + taskStackSize ≤ A.base + storageSize) :
    Word.add stack taskStackSize ≠ 0 := by
  have hfits := A.fits
  have hsize : taskStackSize = 0x4000 := rfl
  rw [Word.add, Nat.mod_eq_of_lt (by omega)]
  omega

/-- `task_create_user` returns.  Its task is on the ring without an image, or nothing was taken. -/
theorem taskCreateUser_spec (hr : Ring A s others l) (name : List UInt8) :
    ∃ t s' l', s.taskCreateUser name = .done (t, s') ∧ Ring A s' others l' ∧
      (∀ e, Settled s e l → Settled s' e l') ∧ (t ≠ 0 → t ∈ l' ∧ (s'.tasks t).image = none) ∧
      s.Created l (fun f ↦ ∃ kstack ustack, kstack ≠ 0 ∧ ustack ≠ 0 ∧
        f = Tasking.userRecord s.nextId name kstack ustack) t s' := by
  obtain ⟨l₀, hlent, hback⟩ := hr.lent
  obtain ⟨t, h₁, hcall₁, hlent₁, -⟩ := hlent.kmalloc taskSize
  simp only [Tasking.taskCreateUser, hcall₁, Outcome.done_bind]
  by_cases ht : t = 0
  · rw [if_pos ht] at hlent₁ ⊢
    exact ⟨0, _, l, rfl, hlent₁.ring, fun _ hs ↦ hs.setHeap, fun h ↦ absurd rfl h,
      Or.inl ⟨rfl, h₁, rfl, hback h₁ hlent₁.borrowed⟩⟩
  rw [if_neg ht] at hlent₁ ⊢
  obtain ⟨kstack, h₂, hcall₂, hlent₂, hupper⟩ := hlent₁.kmalloc taskStackSize
  simp only [hcall₂, Outcome.done_bind]
  obtain ⟨ustack, h₃, hcall₃, hlent₃, -⟩ := hlent₂.kmalloc taskStackSize
  simp only [hcall₃, Outcome.done_bind]
  have hblocks : (if ustack = 0 then if kstack = 0 then [t] else [kstack, t]
      else ustack :: if kstack = 0 then [t] else [kstack, t]).Perm
      ((if kstack ≠ 0 then [kstack] else []) ++ ((if ustack ≠ 0 then [ustack] else []) ++
        [t])) := by
    by_cases hk : kstack = 0 <;> by_cases hu : ustack = 0 <;> simp [hk, hu, List.Perm.swap]
  replace hlent₃ := hlent₃.perm hblocks.symm
  by_cases hnone : kstack = 0 ∨ ustack = 0
  · rw [if_pos hnone]
    obtain ⟨h₄, hfree₄, hlent₄⟩ := hlent₃.freeIf
    rw [hfree₄, Outcome.done_bind]
    obtain ⟨h₅, hfree₅, hlent₅⟩ := hlent₄.freeIf
    rw [hfree₅, Outcome.done_bind]
    obtain ⟨h₆, hfree₆, hlent₆⟩ := hlent₅.free
    rw [hfree₆, Outcome.done_bind]
    exact ⟨0, _, l, rfl, hlent₆.ring,
      fun _ hs ↦ hs.setHeap.setHeap.setHeap.setHeap.setHeap.setHeap, fun h ↦ absurd rfl h,
      Or.inl ⟨rfl, h₆, rfl, hback h₆ hlent₆.borrowed⟩⟩
  rw [if_neg hnone]
  obtain ⟨hk, hu⟩ := not_or.mp hnone
  have hr₃ := hlent₃.ring
  have hnot : t ∉ l := hr₃.notMem (by simp)
  have howned : ∀ id k, (Tasking.userRecord id name kstack ustack k).owned t =
      (if kstack ≠ 0 then [kstack] else []) ++ ((if ustack ≠ 0 then [ustack] else []) ++
        [t]) := by
    intro id k
    simp [Task.owned, Tasking.userRecord, hk, hu]
  rw [← howned (((s.setHeap h₁).setHeap h₂).setHeap h₃).nextId
    ((((s.setHeap h₁).setHeap h₂).setHeap h₃).tasks t)] at hr₃
  have htop : Word.add kstack taskStackSize ≠ 0 :=
    stackTop_ne_zero (hupper hk (by norm_num [taskStackSize]))
  obtain ⟨l', hmem, hkept, hr', hs'⟩ := hr₃.admission rfl (fun _ ↦ htop) (Word.add s.nextId 1)
  simp only [Task.kept, Prod.mk.injEq] at hkept
  exact ⟨t, _, l', rfl, hr', fun e hs ↦ hs' e hs.setHeap.setHeap.setHeap,
    fun _ ↦ ⟨hmem, hkept.2.2.1⟩, Or.inr ⟨ht, hnot, h₃, _, ⟨kstack, ustack, hk, hu, rfl⟩, rfl⟩⟩

/-- The image of a task on the ring becomes its own. -/
theorem Ring.attach {image : UserImage} (hr : Ring A s (image.ptr :: others) l) (ht : t ∈ l)
    (hnone : (s.tasks t).image = none) :
    Ring A (s.modify t fun k ↦ { k with image := some image }) others l := by
  have hsame : ∀ x, x ≠ t → (s.modify t fun k ↦ { k with image := some image }).tasks x =
      s.tasks x := fun x hx ↦ Function.update_of_ne hx _ _
  have hself : (s.modify t fun k ↦ { k with image := some image }).tasks t =
      { s.tasks t with image := some image } := Function.update_self _ _ _
  obtain ⟨l₁, l₂, rfl⟩ := List.append_of_mem ht
  have hnodup := hr.nodup
  have hnot₁ : ∀ x ∈ l₁, x ≠ t := by
    rintro x hx rfl
    exact (List.disjoint_of_nodup_append hnodup) hx List.mem_cons_self
  have hnot₂ : ∀ x ∈ l₂, x ≠ t := by
    rintro x hx rfl
    exact (List.nodup_cons.mp (List.nodup_append.mp hnodup).2.1).1 hx
  refine ⟨hr.walk.congr fun x _ ↦ ?_, hr.ne_nil, hr.heap.perm ?_, hr.active, hr.alive, hr.proper,
    fun x hx ↦ ?_⟩
  · by_cases hx : x = t
    · subst hx
      have hnext := congrArg Task.next hself
      exact hnext
    · exact congrArg Task.next (hsame x hx)
  · rw [List.flatMap_append, List.flatMap_append, List.flatMap_cons, List.flatMap_cons,
      flatMap_owned_congr fun x hx ↦ congrArg Task.kept (hsame x (hnot₁ x hx)),
      flatMap_owned_congr fun x hx ↦ congrArg Task.kept (hsame x (hnot₂ x hx)), hself]
    have howned : ({ s.tasks t with image := some image } : Task).owned t =
        image.ptr :: (s.tasks t).owned t := by
      simp [Task.owned, hnone]
    rw [howned]
    simp only [List.append_assoc, List.cons_append]
    refine List.Perm.append_left _ ?_
    rw [← List.append_assoc, ← List.append_assoc]
    exact List.perm_middle.symm
  · by_cases hxt : x = t
    · subst hxt
      rw [hself]
      exact hr.tops x hx
    · rw [hsame x hxt]
      exact hr.tops x hx

theorem Settled.attach {image : UserImage} (hs : Settled s e l) :
    Settled (s.modify t fun k ↦ { k with image := some image }) e l := by
  have hsame := modify_frame (s := s) (t := t) (f := fun k ↦ { k with image := some image })
    (g := fun k ↦ (k.state, k.isUser, k.kernelStackTop)) fun _ ↦ rfl
  simp only [Prod.mk.injEq] at hsame
  refine ⟨(hsame _).1.trans hs.current, fun x hx hne ↦ ?_, fun huser ↦ ?_⟩
  · rw [(hsame x).1]
    exact hs.rest x hx hne
  · exact (hs.esp0 ((hsame _).2.1.symm.trans huser)).trans (hsame _).2.2.symm

theorem taskCreateUserImage_spec {image : UserImage} (hr : Ring A s (image.ptr :: others) l)
    (hs : Settled s e l) (name : List UInt8) :
    ∃ t s' l', s.taskCreateUserImage name (some image) = .done (t, s') ∧
      Ring A s' (if t = 0 then image.ptr :: others else others) l' ∧ Settled s' e l' := by
  obtain ⟨t, s', l', hcall, hr', hs', hnew, -⟩ := taskCreateUser_spec hr name
  simp only [Tasking.taskCreateUserImage, hcall, Outcome.done_bind]
  by_cases ht : t = 0
  · rw [if_pos ht]
    exact ⟨0, s', l', rfl, hr', hs' e hs⟩
  · rw [if_neg ht]
    obtain ⟨hmem, hnone⟩ := hnew ht
    refine ⟨t, _, l', rfl, ?_, (hs' e hs).attach⟩
    rw [if_neg ht]
    exact hr'.attach hmem hnone

end MyOS.Sched
