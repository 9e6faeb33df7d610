import MyOS.Elf.Reads
import MyOS.Sched.Calls

/-!
# Programs under preemption

`cmd_exec` loads an image, has `task_create_user` put a task on the ring, stores the image in the
record of that task, and reads the record and the image for its message.  The timer may fire
between any two of these steps.  The new task stands right behind the task of the shell, so that
it is reaped by a yield of the shell or not at all.
-/

namespace MyOS.Sched

open Heap Elf Tiling

variable {A : Arena} {T : Tables} {s s' : Tasking} {others others' l rest : List ℕ} {e e' : Bool}
  {d p r t sp : ℕ} {image : UserImage}

/-! ## What a yield reaps -/

/-- `pick_next` reaps the zombies right behind the current task and stops at the first other
task. -/
theorem Picked.reaps (hpick : Picked A s s' others rest r) :
    ∃ zs rest', rest = zs ++ rest' ∧ (∀ z ∈ zs, (s.tasks z).state = .zombie) ∧
      (∀ z ∈ rest'.head?, (s.tasks z).state ≠ .zombie) ∧ r = rest'.headD s.current ∧
      Ring A s' others (s.current :: rest') ∧
      s'.events = (zs.reverse.map fun z ↦ .reap z s.current) ++ s.events ∧
      s'.unloads = imagesOf s zs.reverse ++ s.unloads := by
  refine ⟨rest.takeWhile s.dead, rest.dropWhile s.dead, List.takeWhile_append_dropWhile.symm,
    fun z hz ↦ dead_eq_true.mp (List.mem_takeWhile_imp hz), fun z hz ↦ ?_, hpick.head, hpick.ring,
    ?_, hpick.unloads⟩
  · rcases hpick.cases with ⟨hnil, -⟩ | ⟨rest', hrest, halive⟩
    · rw [hnil] at hz
      cases hz
    · rw [hrest] at hz
      cases hz
      exact halive
  · rw [hpick.events, List.map_reverse]

def Event.reaped? : Event → Option ℕ
  | .reap t _ => some t
  | _ => none

/-- A yield reaped the tasks `zs` right behind the current one and passed their images to
`elf_unload`; `rest` are left behind it. -/
structure Yielded (A : Arena) (s s' : Tasking) (others zs rest : List ℕ) : Prop where
  zombies : ∀ z ∈ zs, (s.tasks z).state = .zombie
  head : ∀ z ∈ rest.head?, (s.tasks z).state ≠ .zombie
  ring : Ring A s' others (rest ++ [s.current])
  kept : ∀ x, (s'.tasks x).kept = (s.tasks x).kept
  zombie_iff : ∀ x, (s'.tasks x).state = .zombie ↔ (s.tasks x).state = .zombie
  events : ∃ new, s'.events = new ++ s.events ∧ new.filterMap Event.reaped? = zs.reverse
  unloads : s'.unloads = imagesOf s zs.reverse ++ s.unloads

theorem taskYield_reaps (hr : Ring A s others (s.current :: rest))
    (hcall : s.taskYield T sp = .done s') :
    ∃ zs rest', rest = zs ++ rest' ∧ Yielded A s s' others zs rest' := by
  obtain ⟨r, s₁, hpick, hrel, hcases⟩ := taskYield_cases hr.active hcall
  obtain ⟨r', s₁', hpick', hpicked⟩ := pickNext_spec T hr
  have hsame := hpick.symm.trans hpick'
  simp only [Outcome.done.injEq, Prod.mk.injEq] at hsame
  obtain ⟨rfl, rfl⟩ := hsame
  obtain ⟨zs, rest', rfl, hzs, hhead, hr', hr₁, hevents, hunloads⟩ := hpicked.reaps
  have hkept := hrel.frame (g := Task.kept) fun _ _ ↦ rfl
  have hstate := hrel.frame (g := Task.state) fun _ _ ↦ rfl
  have hreaps : (zs.reverse.map fun z ↦ Event.reap z s.current).filterMap Event.reaped? =
      zs.reverse := by
    rw [List.filterMap_map]
    exact List.filterMap_some
  refine ⟨zs, rest', rfl, ?_⟩
  have hnot : s.current ∉ rest' := fun hmem ↦
    (List.nodup_cons.mp hr.nodup).1 (List.mem_append_right zs hmem)
  rcases hcases with ⟨hstay, rfl⟩ | ⟨hne, rfl⟩
  · have hnil : rest' = [] := by
      cases rest' with
      | nil => rfl
      | cons x rest' =>
          have hx : x = s.current := hr'.symm.trans hstay
          exact absurd (hx ▸ List.mem_cons_self) hnot
    subst hnil
    exact ⟨hzs, hhead, hr₁, hkept, fun x ↦ by rw [hstate], ⟨_, hevents, hreaps⟩, hunloads⟩
  · cases rest' with
    | nil => exact absurd hr' hne
    | cons x rest'' =>
        obtain rfl : r = x := hr'
        have hlive : (s.tasks r).state ≠ .zombie := hhead r rfl
        have htasks := switchTo_tasks (s := s₁) sp hne.symm
        obtain ⟨-, -, -, hlog, hsame⟩ := switchTo_fields s₁ s.current r sp
        rw [hevents, ← List.cons_append] at hlog
        refine ⟨hzs, hhead, ?_, fun x ↦ ?_, fun x ↦ ?_, ⟨_, hlog, ?_⟩, hsame.trans hunloads⟩
        · rw [← hrel.current] at hr₁ ⊢
          exact hr₁.switchTo (by rw [hstate]; exact hlive)
        · exact ((htasks x).1).trans (hkept x)
        · rw [(htasks x).2.2, ← hstate x]
          split_ifs with hx hprev
          · subst hx
            rw [hstate]
            exact ⟨nofun, fun hz ↦ absurd hz hlive⟩
          · rw [hprev.1, hprev.2]
            exact ⟨nofun, nofun⟩
          · rfl
        · rw [List.filterMap_cons]
          exact hreaps

/-- A call of `task_yield`, or the one at the end of an interrupt after a slice was used up. -/
inductive Yields (T : Tables) : Tasking → Tasking → Prop where
  | call {s s' : Tasking} (sp : ℕ) (hcall : s.taskYield T sp = .done s') : Yields T s s'
  | timer {s s' : Tasking} (sp : ℕ) (hneed : s.needResched = true)
      (hcall : s.irqReturn T sp = .done s') : Yields T s s'

theorem irqReturn_of_need (hneed : s.needResched = true) (T : Tables) (sp : ℕ) :
    s.irqReturn T sp = { s with needResched := false }.taskYield T sp := by
  simp [Tasking.irqReturn, Tasking.taskShouldResched, hneed]

theorem Yields.spec (h : Yields T s s') (hr : Ring A s others (s.current :: rest))
    (hs : Settled s e (s.current :: rest)) :
    ∃ zs rest', rest = zs ++ rest' ∧ Yielded A s s' others zs rest' ∧
      Settled s' false (rest' ++ [s.current]) := by
  have hyield : ∃ s₀ : Tasking, (∃ sp, s₀.taskYield T sp = .done s') ∧
      s₀ = { s with needResched := s₀.needResched } := by
    cases h with
    | call sp hcall => exact ⟨s, ⟨sp, hcall⟩, rfl⟩
    | timer sp hneed hcall =>
        rw [irqReturn_of_need hneed] at hcall
        exact ⟨_, ⟨sp, hcall⟩, rfl⟩
  obtain ⟨s₀, ⟨sp, hcall⟩, hs₀⟩ := hyield
  generalize s₀.needResched = flag at hs₀
  subst hs₀
  have hr₀ : Ring A { s with needResched := flag } others (s.current :: rest) :=
    hr.congr rfl rfl rfl rfl (fun _ _ ↦ rfl) fun _ _ ↦ rfl
  obtain ⟨zs, rest', hrest, hy⟩ := taskYield_reaps hr₀ hcall
  obtain ⟨l', hr', hs'⟩ := hr₀.yield (e := e) ⟨hs.current, hs.rest, hs.esp0⟩ hcall
  have hl' : l' = rest' ++ [s.current] :=
    hr'.walk.cycle_unique hr'.ne_nil hr'.nodup hy.ring.walk hy.ring.ne_nil hy.ring.nodup
  subst hl'
  exact ⟨zs, rest', hrest,
    ⟨hy.zombies, hy.head, hy.ring, hy.kept, hy.zombie_iff, hy.events, hy.unloads⟩, hs'⟩

/-! ## The steps of `cmd_exec` -/

/-- The statement of `cmd_exec` that comes next: none, the call of `task_create_user`, the
`elf_unload` after that call has failed, the store `t->image = image`, the reads of `t->id`,
`img->entry` and `img->seg_count`. -/
inductive Phase where
  | idle
  | create (image : UserImage)
  | unload (image : UserImage)
  | attach (t : ℕ) (image : UserImage)
  | readId (t : ℕ) (image : UserImage)
  | readEntry (t : ℕ) (image : UserImage)
  | readSegCount (t : ℕ) (image : UserImage)

namespace Phase

/-- The task that `cmd_exec` has made. -/
def task? : Phase → Option ℕ
  | attach t _ | readId t _ | readEntry t _ | readSegCount t _ => some t
  | _ => none

/-- The image that was loaded and belongs to no task yet. -/
def inHand : Phase → List UserImage
  | create image | unload image | attach _ image => [image]
  | _ => []

/-- The image in the record of the task that `cmd_exec` has made. -/
def stored : Phase → Option UserImage
  | readId _ image | readEntry _ image | readSegCount _ image => some image
  | _ => none

/-- The blocks that the rest of `cmd_exec` reads or writes. -/
def accesses : Phase → List ℕ
  | idle => []
  | create image | unload image => [image.ptr]
  | attach t image | readId t image => [t, image.ptr]
  | readEntry _ image | readSegCount _ image => [image.ptr]

/-- What comes after a read. -/
def afterRead? : Phase → Option Phase
  | readId t image => some (readEntry t image)
  | readEntry t image => some (readSegCount t image)
  | readSegCount _ _ => some idle
  | _ => none

end Phase

/-- The kernel with the shell in `cmd_exec`.  `loaded` is no state of the kernel: it records which
images `elf_load` returned. -/
structure Exec where
  sched : Tasking
  shell : ℕ
  phase : Phase
  loaded : List UserImage

/-- Interleavings of `cmd_exec`, run by the shell again and again, with the timer and the other
tasks.  A yield is only made in a state with `W`. -/
inductive ExecRun (A : Arena) (T : Tables) (W : Exec → Prop) : Exec → List ℕ → Bool → Prop where
  | init {s s' : Tasking} {others : List ℕ} (hheap : HeapInv A ⟨s.sys.heap, others⟩)
      (hevents : s.events = []) (hunloads : s.unloads = []) (hcall : s.taskingInit = .done s') :
      ExecRun A T W ⟨s', s'.current, .idle, []⟩ others false
  /-- A call by another task, or by the shell outside of `cmd_exec`. -/
  | plain {x : Exec} {s' : Tasking} {others others' : List ℕ} {e e' : Bool}
      (hrun : ExecRun A T W x others e) (hfree : x.phase = .idle ∨ x.sched.current ≠ x.shell)
      (hcall : Plain x.sched others e s' others' e') :
      ExecRun A T W { x with sched := s' } others' e'
  | tick {x : Exec} {others : List ℕ} {e : Bool} (hrun : ExecRun A T W x others e) :
      ExecRun A T W { x with sched := x.sched.taskTick } others e
  | yield {x : Exec} {s' : Tasking} {others : List ℕ} {e : Bool} (hrun : ExecRun A T W x others e)
      (hW : W x) (hcall : Yields T x.sched s') : ExecRun A T W { x with sched := s' } others false
  | load {x : Exec} {sys : Sys} {others : List ℕ} {image : UserImage} (F : File) (out : ℕ)
      (hrun : ExecRun A T W x others false) (hshell : x.sched.current = x.shell)
      (hphase : x.phase = .idle)
      (hcall : elfLoad T x.sched.sys F out = .done (0, some image, sys)) :
      ExecRun A T W { x with
        sched := { x.sched with sys := sys }, phase := .create image,
        loaded := image :: x.loaded } others false
  | loadFails {x : Exec} {sys : Sys} {others : List ℕ} {code : ℤ} (F : File) (out : ℕ)
      (hrun : ExecRun A T W x others false) (hshell : x.sched.current = x.shell)
      (hphase : x.phase = .idle)
      (hcall : elfLoad T x.sched.sys F out = .done (code, none, sys)) :
      ExecRun A T W { x with sched := { x.sched with sys := sys } } others false
  | create {x : Exec} {s' : Tasking} {others : List ℕ} {t : ℕ} {image : UserImage}
      (name : List UInt8) (hrun : ExecRun A T W x others false)
      (hshell : x.sched.current = x.shell) (hphase : x.phase = .create image)
      (hcall : x.sched.taskCreateUser name = .done (t, s')) :
      ExecRun A T W { x with
        sched := s', phase := if t = 0 then .unload image else .attach t image } others false
  | unload {x : Exec} {s' : Tasking} {others : List ℕ} {image : UserImage}
      (hrun : ExecRun A T W x others false) (hshell : x.sched.current = x.shell)
      (hphase : x.phase = .unload image) (hcall : x.sched.unload T image = .done s') :
      ExecRun A T W { x with sched := s', phase := .idle } others false
  | attach {x : Exec} {others : List ℕ} {t : ℕ} {image : UserImage}
      (hrun : ExecRun A T W x others false) (hshell : x.sched.current = x.shell)
      (hphase : x.phase = .attach t image) :
      ExecRun A T W { x with
        sched := x.sched.modify t fun k ↦ { k with image := some image },
        phase := .readId t image } others false
  | read {x : Exec} {others : List ℕ} {phase : Phase} (hrun : ExecRun A T W x others false)
      (hshell : x.sched.current = x.shell) (hphase : x.phase.afterRead? = some phase) :
      ExecRun A T W { x with phase := phase } others false

/-- Every image was passed to `elf_unload` once, or it is in the hand of the shell or in the record
of one task on the ring.  A task that `cmd_exec` has still to do with is on the ring, and the
blocks that it still accesses are in use. -/
def Exec.Released (x : Exec) : Prop :=
  ∃ l, Walk x.sched.next x.sched.current l x.sched.current ∧ l ≠ [] ∧ l.Nodup ∧
    x.loaded.Perm (x.sched.unloads ++ (x.phase.inHand ++ imagesOf x.sched l)) ∧
    (∀ t ∈ x.phase.task?, t ∈ l) ∧
    ∀ p ∈ x.phase.accesses, p ∈ held hdrSize (blockList x.sched.sys.heap)

/-- If the shell is current, the task that `cmd_exec` has still to do with has not exited. -/
def Exec.Waits (x : Exec) : Prop :=
  x.sched.current = x.shell → ∀ t ∈ x.phase.task?, (x.sched.tasks t).state ≠ .zombie

/-! ## What the other tasks change -/

/-- Of the tasks on the ring `l` a plain call changes at most where the current one points and
the state of the current one.  A task that is new on the ring has no image. -/
structure Aside (s s' : Tasking) (l : List ℕ) : Prop where
  current : s'.current = s.current
  image : ∀ x ∈ l, (s'.tasks x).image = (s.tasks x).image
  next : ∀ x ∈ l, x ≠ s.current → s'.next x = s.next x
  state : ∀ x ∈ l, x ≠ s.current → (s'.tasks x).state = (s.tasks x).state
  unloads : s'.unloads = s.unloads
  events : s'.events = s.events ∨
    ∃ t, s'.events = .create t :: s.events ∧ (s'.tasks t).image = none

theorem aside_enqueue {h : Kheap} {f : Task → Task} {n : ℕ} (hr : Ring A s others l) (ht : t ∉ l)
    (himage : (f (s.tasks t)).image = none) :
    Aside s ({ (s.setHeap h).modify t f with nextId := n }.enqueue t) l := by
  have hne : ∀ x ∈ l, x ≠ t := fun x hx ↦ ne_of_mem_of_not_mem hx ht
  have hcurrent := hne s.current hr.current_mem
  rw [Tasking.enqueue, if_neg (by simp [Tasking.modify, Tasking.setHeap, hr.active])]
  refine ⟨rfl, fun x hx ↦ ?_, fun x hx hxc ↦ ?_, fun x hx hxc ↦ ?_, rfl, Or.inr ⟨t, rfl, ?_⟩⟩
  · by_cases hxc : x = s.current
    · simp [Tasking.readyInsertAfterCurrent, Tasking.setNext, Tasking.log, Tasking.modify,
        Tasking.setHeap, hxc, hcurrent]
    · simp [Tasking.readyInsertAfterCurrent, Tasking.setNext, Tasking.log, Tasking.modify,
        Tasking.setHeap, hxc, hne x hx]
  · simp [Tasking.readyInsertAfterCurrent, Tasking.setNext, Tasking.log, Tasking.modify,
      Tasking.setHeap, Tasking.next, hxc, hne x hx]
  · simp [Tasking.readyInsertAfterCurrent, Tasking.setNext, Tasking.log, Tasking.modify,
      Tasking.setHeap, hxc, hne x hx]
  · simp [Tasking.readyInsertAfterCurrent, Tasking.setNext, Tasking.log, Tasking.modify,
      Tasking.setHeap, hcurrent.symm, himage]

theorem aside_of_same (hcurrent : s'.current = s.current) (htasks : s'.tasks = s.tasks)
    (hunloads : s'.unloads = s.unloads) (hevents : s'.events = s.events) : Aside s s' l :=
  ⟨hcurrent, fun x _ ↦ by rw [htasks], fun x _ _ ↦ by rw [Tasking.next, htasks, Tasking.next],
    fun x _ _ ↦ by rw [htasks], hunloads, Or.inl hevents⟩

theorem Plain.aside (hcall : Plain s others e s' others' e') {blocks : List ℕ}
    (hr : Ring A s blocks l) : Aside s s' l := by
  cases hcall with
  | create name hcall =>
      rcases taskCreate_cases hr hcall with ⟨-, h, rfl, -⟩ | ⟨-, ht, h, _, ⟨stack, -, rfl⟩, rfl⟩
      · exact aside_of_same rfl rfl rfl rfl
      · exact aside_enqueue hr ht rfl
  | createUser name hcall =>
      rcases taskCreateUser_cases hr hcall with ⟨-, h, rfl, -⟩ |
        ⟨-, ht, h, _, ⟨k, u, -, -, rfl⟩, rfl⟩
      · exact aside_of_same rfl rfl rfl rfl
      · exact aside_enqueue hr ht rfl
  | exit =>
      have hother : ∀ x, x ≠ s.current → s.taskExit.tasks x = s.tasks x :=
        fun x hx ↦ Function.update_of_ne hx _ _
      refine ⟨rfl, fun x _ ↦ ?_, fun x _ hx ↦ congrArg Task.next (hother x hx),
        fun x _ hx ↦ congrArg Task.state (hother x hx), rfl, Or.inl rfl⟩
      exact modify_frame (f := fun k ↦ { k with state := .zombie }) (fun _ ↦ rfl) x
  | malloc size hcall => exact aside_of_same rfl rfl rfl rfl
  | free hcall => exact aside_of_same rfl rfl rfl rfl
  | reorder hperm => exact aside_of_same rfl rfl rfl rfl
  | paging mm => exact aside_of_same rfl rfl rfl rfl

/-- The ring only grows, and no image comes or goes. -/
theorem Aside.grows {blocks blocks' l' : List ℕ} (h : Aside s s' l) (hr : Ring A s blocks l)
    (hr' : Ring A s' blocks' l') : l ⊆ l' ∧ (imagesOf s' l').Perm (imagesOf s l) := by
  have hsame : imagesOf s' l = imagesOf s l :=
    List.flatMap_congr fun x hx ↦ by rw [h.image x hx]
  rcases h.events with hevents | ⟨t, hevents, himage⟩
  · have hperm : l'.Perm l := by
      refine hr'.alive.trans ?_
      rw [hevents]
      exact hr.alive.symm
    refine ⟨fun x hx ↦ hperm.mem_iff.mpr hx, ?_⟩
    rw [← hsame]
    exact hperm.flatMap_right _
  · have hperm : l'.Perm (t :: l) := by
      refine hr'.alive.trans ?_
      rw [hevents]
      exact (hr.alive.cons t).symm
    refine ⟨fun x hx ↦ hperm.mem_iff.mpr (List.mem_cons_of_mem t hx), ?_⟩
    rw [← hsame]
    refine (hperm.flatMap_right _).trans ?_
    rw [List.flatMap_cons, himage]
    exact List.Perm.refl _

/-! ## The invariant -/

/-- The new task `t` stands right behind the task of the shell, which has not exited. -/
structure Window (s : Tasking) (shell t : ℕ) (l : List ℕ) : Prop where
  mem : shell ∈ l
  next : s.next shell = t
  ne : t ≠ shell
  alive : (s.tasks shell).state ≠ .zombie

theorem Window.task_mem {shell : ℕ} (h : Window s shell t l) (hr : Ring A s others l) : t ∈ l := by
  rcases hr.walk.next_mem_or_eq h.mem with hmem | hend
  · exact h.next ▸ hmem
  · rw [← h.next, hend]
    exact hr.current_mem

theorem Ring.setSys {sys : Sys} (hr : Ring A s others l)
    (hheap : HeapInv A ⟨sys.heap, l.flatMap (fun t ↦ (s.tasks t).owned t) ++ others'⟩) :
    Ring A { s with sys := sys } others' l :=
  ⟨hr.walk, hr.ne_nil, hheap, hr.active, hr.alive, hr.proper, hr.tops⟩

theorem Settled.setSys {sys : Sys} (hs : Settled s e l) : Settled { s with sys := sys } e l :=
  ⟨hs.current, hs.rest, hs.esp0⟩

theorem imagesOf_attach (hnodup : l.Nodup) (ht : t ∈ l) (hnone : (s.tasks t).image = none) :
    (imagesOf (s.modify t fun k ↦ { k with image := some image }) l).Perm
      (image :: imagesOf s l) := by
  obtain ⟨pre, post, rfl⟩ := List.append_of_mem ht
  have hpre : t ∉ pre := fun hmem ↦ List.disjoint_of_nodup_append hnodup hmem List.mem_cons_self
  have hpost : t ∉ post := (List.nodup_cons.mp (List.nodup_append.mp hnodup).2.1).1
  have hother : ∀ l' : List ℕ, t ∉ l' →
      imagesOf (s.modify t fun k ↦ { k with image := some image }) l' = imagesOf s l' := by
    refine fun l' hl' ↦ List.flatMap_congr fun y hy ↦ ?_
    have hsame := Function.update_of_ne (ne_of_mem_of_not_mem hy hl')
      { s.tasks t with image := some image } s.tasks
    exact congrArg (fun k : Task ↦ k.image.toList) hsame
  have hself : ((s.modify t fun k ↦ { k with image := some image }).tasks t).image =
      some image := by simp [Tasking.modify]
  have hsplit : ∀ s' : Tasking, imagesOf s' (pre ++ t :: post) =
      imagesOf s' pre ++ ((s'.tasks t).image.toList ++ imagesOf s' post) := by
    intro s'
    simp [imagesOf]
  rw [hsplit, hsplit, hother pre hpre, hother post hpost, hself, hnone]
  exact List.perm_middle

structure ExecInv (A : Arena) (x : Exec) (others : List ℕ) (e : Bool) (l : List ℕ) : Prop where
  ring : Ring A x.sched (x.phase.inHand.map UserImage.ptr ++ others) l
  settled : Settled x.sched e l
  images : x.loaded.Perm (x.sched.unloads ++ (x.phase.inHand ++ imagesOf x.sched l))
  window : ∀ t ∈ x.phase.task?, Window x.sched x.shell t l
  stored : ∀ t ∈ x.phase.task?, (x.sched.tasks t).image = x.phase.stored

theorem Ring.mem_held (hr : Ring A s others l)
    (hp : p ∈ l.flatMap (fun t ↦ (s.tasks t).owned t) ++ others) :
    p ∈ held hdrSize (blockList s.sys.heap) := by
  obtain ⟨bs, hbs, hlive⟩ := hr.heap
  rw [hbs.blockList]
  exact hlive.mem_iff.mp hp

namespace ExecInv

variable {x : Exec}

theorem accesses_held (h : ExecInv A x others e l) :
    ∀ p ∈ x.phase.accesses, p ∈ held hdrSize (blockList x.sched.sys.heap) := by
  have htask : ∀ t ∈ x.phase.task?, t ∈ held hdrSize (blockList x.sched.sys.heap) :=
    fun t ht ↦ h.ring.mem_held
      (List.mem_append_left _ (mem_flatMap_owned ((h.window t ht).task_mem h.ring)))
  have hhand : ∀ image ∈ x.phase.inHand, image.ptr ∈ held hdrSize (blockList x.sched.sys.heap) :=
    fun image himage ↦ h.ring.mem_held (List.mem_append_right _
      (List.mem_append_left _ (List.mem_map_of_mem himage)))
  -- an image that was stored belongs to the task
  have hstored : ∀ t ∈ x.phase.task?, ∀ image ∈ x.phase.stored,
      image.ptr ∈ held hdrSize (blockList x.sched.sys.heap) := by
    intro t ht image himage
    refine h.ring.mem_held (List.mem_append_left _ (List.mem_flatMap.mpr
      ⟨t, (h.window t ht).task_mem h.ring, ?_⟩))
    rw [← h.stored t ht] at himage
    rw [Task.owned, Option.mem_def.mp himage]
    exact List.mem_append_left _ List.mem_cons_self
  intro p hp
  cases hphase : x.phase with
  | idle => simp [hphase, Phase.accesses] at hp
  | create image =>
      simp only [hphase, Phase.accesses, List.mem_singleton] at hp
      exact hp ▸ hhand image (by simp [hphase, Phase.inHand])
  | unload image =>
      simp only [hphase, Phase.accesses, List.mem_singleton] at hp
      exact hp ▸ hhand image (by simp [hphase, Phase.inHand])
  | attach t image =>
      simp only [hphase, Phase.accesses, List.mem_cons, List.not_mem_nil, or_false] at hp
      rcases hp with rfl | rfl
      · exact htask p (by simp [hphase, Phase.task?])
      · exact hhand image (by simp [hphase, Phase.inHand])
  | readId t image =>
      simp only [hphase, Phase.accesses, List.mem_cons, List.not_mem_nil, or_false] at hp
      rcases hp with rfl | rfl
      · exact htask p (by simp [hphase, Phase.task?])
      · exact hstored t (by simp [hphase, Phase.task?]) image (by simp [hphase, Phase.stored])
  | readEntry t image =>
      simp only [hphase, Phase.accesses, List.mem_singleton] at hp
      exact hp ▸ hstored t (by simp [hphase, Phase.task?]) image (by simp [hphase, Phase.stored])
  | readSegCount t image =>
      simp only [hphase, Phase.accesses, List.mem_singleton] at hp
      exact hp ▸ hstored t (by simp [hphase, Phase.task?]) image (by simp [hphase, Phase.stored])

theorem released (h : ExecInv A x others e l) : x.Released :=
  ⟨l, h.ring.walk, h.ring.ne_nil, h.ring.nodup, h.images,
    fun t ht ↦ (h.window t ht).task_mem h.ring, h.accesses_held⟩

/-- A call of another task. -/
theorem plain (h : ExecInv A x others e l) (hfree : x.phase = .idle ∨ x.sched.current ≠ x.shell)
    (hcall : Plain x.sched others e s' others' e') :
    ∃ l', ExecInv A { x with sched := s' } others' e' l' := by
  obtain ⟨l', hr', hs'⟩ := hcall.ring _ h.ring h.settled
  have haside := hcall.aside h.ring
  obtain ⟨hsub, himages⟩ := haside.grows h.ring hr'
  have hother : ∀ t ∈ x.phase.task?, x.shell ≠ x.sched.current := by
    intro t ht heq
    rcases hfree with hidle | hne
    · simp [hidle, Phase.task?] at ht
    · exact hne heq.symm
  refine ⟨l', hr', hs', ?_, fun t ht ↦ ?_, fun t ht ↦ ?_⟩
  · rw [haside.unloads]
    exact h.images.trans ((himages.symm.append_left _).append_left _)
  · have hw := h.window t ht
    exact ⟨hsub hw.mem, (haside.next _ hw.mem (hother t ht)).trans hw.next, hw.ne,
      by rw [haside.state _ hw.mem (hother t ht)]; exact hw.alive⟩
  · exact (haside.image t ((h.window t ht).task_mem h.ring)).trans (h.stored t ht)

theorem tick (h : ExecInv A x others e l) :
    ExecInv A { x with sched := x.sched.taskTick } others e l := by
  have himage := taskTick_frame (g := Task.image) x.sched (fun _ _ ↦ rfl) fun _ _ ↦ rfl
  have hnext := taskTick_frame (g := Task.next) x.sched (fun _ _ ↦ rfl) fun _ _ ↦ rfl
  have hstate := taskTick_frame (g := Task.state) x.sched (fun _ _ ↦ rfl) fun _ _ ↦ rfl
  have hsame := imagesOf_congr himage l
  obtain ⟨-, -, -, -, -, hunloads⟩ := taskTick_fields x.sched
  refine ⟨h.ring.taskTick, h.settled.taskTick h.ring.current_mem, ?_, fun t ht ↦ ?_,
    fun t ht ↦ (himage t).trans (h.stored t ht)⟩
  · rw [hsame, hunloads]
    exact h.images
  · have hw := h.window t ht
    exact ⟨hw.mem, (hnext _).trans hw.next, hw.ne, by rw [hstate]; exact hw.alive⟩

/-- The new task is the first behind the shell. -/
theorem head_eq (h : ExecInv A x others e (x.sched.current :: rest)) (ht : t ∈ x.phase.task?)
    (hshell : x.sched.current = x.shell) : ∃ rest', rest = t :: rest' := by
  have hw := h.window t ht
  have hwalk : Walk x.sched.next x.sched.current ([] ++ x.sched.current :: rest)
    x.sched.current := h.ring.walk
  have hnext := hwalk.next_eq
  rw [hshell, hw.next] at hnext
  cases rest with
  | nil => exact absurd hnext hw.ne
  | cons y rest' => exact ⟨rest', by rw [hnext]; rfl⟩

/-- After a yield of the shell to the new task, or of another task that stops at the shell at the
latest, the two still stand together. -/
theorem window_yield {zs : List ℕ} (h : ExecInv A x others e (x.sched.current :: (zs ++ rest)))
    (hwaits : x.Waits)
    (hy : Yielded A x.sched s' (x.phase.inHand.map UserImage.ptr ++ others) zs rest)
    (ht : t ∈ x.phase.task?) : Window s' x.shell t (rest ++ [x.sched.current]) := by
  have hw := h.window t ht
  have halive : (s'.tasks x.shell).state ≠ .zombie := by
    rw [Ne, hy.zombie_iff]
    exact hw.alive
  by_cases hshell : x.sched.current = x.shell
  · obtain ⟨rest', hrest⟩ := h.head_eq ht hshell
    have hzs : zs = [] := by
      cases zs with
      | nil => rfl
      | cons z zs =>
          obtain rfl : z = t := (List.cons.inj hrest).1
          exact absurd (hy.zombies z List.mem_cons_self) (hwaits hshell z ht)
    subst hzs
    obtain rfl : rest = t :: rest' := hrest
    have hstart := hy.ring.walk.start_eq
    refine ⟨by simp [hshell], ?_, hw.ne, halive⟩
    rw [← hshell]
    exact hy.ring.walk.next_eq.trans hstart
  · have hmem : x.shell ∈ rest := by
      have hin := hw.mem
      simp only [List.mem_cons, List.mem_append] at hin
      rcases hin with heq | hzs | hrest
      · exact absurd heq.symm hshell
      · exact absurd (hy.zombies _ hzs) hw.alive
      · exact hrest
    obtain ⟨pre, post, rfl⟩ := List.append_of_mem hmem
    refine ⟨by simp, ?_, hw.ne, halive⟩
    have hbefore : Walk x.sched.next x.sched.current
        ((x.sched.current :: (zs ++ pre)) ++ x.shell :: post) x.sched.current := by
      have hwalk := h.ring.walk
      rwa [← List.append_assoc, ← List.cons_append] at hwalk
    have hafter : Walk s'.next s'.current (pre ++ x.shell :: (post ++ [x.sched.current]))
        s'.current := by
      have hwalk := hy.ring.walk
      rwa [List.append_assoc, List.cons_append] at hwalk
    rw [hafter.next_eq, ← hw.next, hbefore.next_eq]
    cases post <;> rfl

theorem images_yield {zs : List ℕ} (h : ExecInv A x others e (x.sched.current :: (zs ++ rest)))
    (hy : Yielded A x.sched s' (x.phase.inHand.map UserImage.ptr ++ others) zs rest) :
    x.loaded.Perm (s'.unloads ++
      (x.phase.inHand ++ imagesOf s' (rest ++ [x.sched.current]))) := by
  have hsame := imagesOf_congr (fun y ↦ Task.image_of_kept (hy.kept y)) (rest ++ [x.sched.current])
  have hring : (x.sched.current :: (zs ++ rest)).Perm
      (zs.reverse ++ (rest ++ [x.sched.current])) := by
    rw [← List.append_assoc]
    refine (List.perm_append_singleton _ _).symm.trans ?_
    exact ((List.reverse_perm zs).symm.append_right rest).append_right _
  have hsplit := hring.flatMap_right fun t ↦ (x.sched.tasks t).image.toList
  rw [List.flatMap_append] at hsplit
  refine (h.images.trans ((hsplit.append_left _).append_left _)).trans ?_
  rw [hsame, hy.unloads, ← Multiset.coe_eq_coe]
  simp only [← Multiset.coe_add, imagesOf]
  abel

theorem yield (h : ExecInv A x others e l) (hwaits : x.Waits) (hcall : Yields T x.sched s') :
    ∃ l', ExecInv A { x with sched := s' } others false l' := by
  obtain ⟨rest, rfl⟩ := h.ring.exists_cons
  obtain ⟨zs, rest', rfl, hy, hs'⟩ := hcall.spec h.ring h.settled
  exact ⟨_, hy.ring, hs', h.images_yield hy, fun t ht ↦ h.window_yield hwaits hy ht,
    fun t ht ↦ (Task.image_of_kept (hy.kept t)).trans (h.stored t ht)⟩

/-- A yield of the shell reaps the new task if that has exited. -/
theorem yield_breaks (h : ExecInv A x others e l) (hwaits : ¬x.Waits)
    (hcall : Yields T x.sched s') : ¬Exec.Released { x with sched := s' } := by
  obtain ⟨rest, rfl⟩ := h.ring.exists_cons
  obtain ⟨zs, rest', rfl, hy, -⟩ := hcall.spec h.ring h.settled
  simp only [Exec.Waits, not_forall, not_not] at hwaits
  obtain ⟨hshell, t, ht, hzombie⟩ := hwaits
  obtain ⟨rest'', hrest⟩ := h.head_eq ht hshell
  have hreaped : t ∈ zs := by
    cases zs with
    | nil =>
        obtain rfl : rest' = t :: rest'' := hrest
        exact absurd hzombie (hy.head t rfl)
    | cons z zs =>
        obtain rfl : z = t := (List.cons.inj hrest).1
        exact List.mem_cons_self
  rintro ⟨l', hwalk, hne, hnodup, -, hring, -⟩
  have hl' : l' = rest' ++ [x.sched.current] :=
    hwalk.cycle_unique hne hnodup hy.ring.walk hy.ring.ne_nil hy.ring.nodup
  have hmem := hring t ht
  rw [hl', List.mem_append, List.mem_singleton] at hmem
  have hall := h.ring.nodup
  rw [List.nodup_cons] at hall
  rcases hmem with hmem | rfl
  · exact List.disjoint_of_nodup_append hall.2 hreaped hmem
  · exact hall.1 (List.mem_append_left _ hreaped)

/-! ### The statements of the shell -/

theorem load {sys : Sys} {F : File} {out : ℕ} (h : ExecInv A x others false l)
    (hphase : x.phase = .idle)
    (hcall : elfLoad T x.sched.sys F out = .done (0, some image, sys)) :
    ExecInv A { x with
      sched := { x.sched with sys := sys }, phase := .create image,
      loaded := image :: x.loaded } others false l := by
  have hr := h.ring
  have himages := h.images
  rw [hphase] at hr himages
  refine ⟨hr.setSys ((elfLoad_heap hr.heap hcall).perm List.perm_middle), h.settled.setSys, ?_,
    nofun, nofun⟩
  exact (himages.cons image).trans List.perm_middle.symm

theorem loadFails {sys : Sys} {F : File} {out : ℕ} {code : ℤ} (h : ExecInv A x others false l)
    (hcall : elfLoad T x.sched.sys F out = .done (code, none, sys)) :
    ExecInv A { x with sched := { x.sched with sys := sys } } others false l :=
  ⟨h.ring.setSys (elfLoad_heap h.ring.heap hcall), h.settled.setSys, h.images,
    fun t ht ↦ ⟨(h.window t ht).mem, (h.window t ht).next, (h.window t ht).ne,
      (h.window t ht).alive⟩, h.stored⟩

theorem create {name : List UInt8} (h : ExecInv A x others false l)
    (hshell : x.sched.current = x.shell) (hphase : x.phase = .create image)
    (hcall : x.sched.taskCreateUser name = .done (t, s')) :
    ∃ l', ExecInv A { x with
      sched := s', phase := if t = 0 then .unload image else .attach t image } others false l' := by
  have hr := h.ring
  have himages := h.images
  rw [hphase] at hr himages
  obtain ⟨t', s'', l', hcall', hr', hsettled, hnew, hcreated⟩ := taskCreateUser_spec hr name
  rw [hcall] at hcall'
  cases hcall'
  have hs' := hsettled _ h.settled
  have hplain : Plain x.sched others false s' others false := .createUser name hcall
  have haside := hplain.aside hr
  obtain ⟨hsub, hsame⟩ := haside.grows hr hr'
  have himages' := himages.trans ((hsame.symm.append_left [image]).append_left _)
  rw [← haside.unloads] at himages'
  by_cases hzero : t = 0
  · rw [if_pos hzero]
    exact ⟨l', hr', hs', himages', by rintro y ⟨⟩, by rintro y ⟨⟩⟩
  · rw [if_neg hzero]
    refine ⟨l', hr', hs', himages', fun y hy ↦ ?_, fun y hy ↦ ?_⟩
    · obtain rfl : t = y := Option.some.inj hy
      rcases hcreated with ⟨hnull, -⟩ | ⟨-, hnot, k, f, -, rfl⟩
      · exact absurd hnull hzero
      have hne : t ≠ x.shell := by
        rintro rfl
        exact hnot (hshell ▸ hr.current_mem)
      refine ⟨hsub (hshell ▸ hr.current_mem), ?_, hne, ?_⟩
      · rw [← hshell, Tasking.enqueue,
          if_neg (by simp [Tasking.modify, Tasking.setHeap, hr.active])]
        simp [Tasking.readyInsertAfterCurrent, Tasking.setNext, Tasking.log, Tasking.modify,
          Tasking.setHeap, Tasking.next]
      · have hrunning := hs'.current
        rw [haside.current, hshell] at hrunning
        rw [hrunning]
        decide
    · obtain rfl : t = y := Option.some.inj hy
      exact (hnew hzero).2

theorem unload (h : ExecInv A x others false l) (hphase : x.phase = .unload image)
    (hcall : x.sched.unload T image = .done s') :
    ExecInv A { x with sched := s', phase := .idle } others false l := by
  have hr := h.ring
  have himages := h.images
  rw [hphase] at hr himages
  obtain ⟨sys, hcall', hr'⟩ := hr.unload T
  rw [hcall] at hcall'
  cases hcall'
  exact ⟨hr', ⟨h.settled.current, h.settled.rest, h.settled.esp0⟩,
    himages.trans List.perm_middle, by rintro y ⟨⟩, by rintro y ⟨⟩⟩

theorem attach (h : ExecInv A x others false l) (hphase : x.phase = .attach t image) :
    ExecInv A { x with
      sched := x.sched.modify t fun k ↦ { k with image := some image },
      phase := .readId t image } others false l := by
  have hr := h.ring
  have himages := h.images
  have htask : t ∈ x.phase.task? := by rw [hphase]; rfl
  have hw := h.window t htask
  have hmem := hw.task_mem hr
  have hnone := h.stored t htask
  rw [hphase] at hr himages hnone
  have hnext := modify_frame (s := x.sched) (t := t) (f := fun k ↦ { k with image := some image })
    (g := Task.next) fun _ ↦ rfl
  have hstate := modify_frame (s := x.sched) (t := t) (f := fun k ↦ { k with image := some image })
    (g := Task.state) fun _ ↦ rfl
  refine ⟨hr.attach hmem hnone, h.settled.attach, himages.trans ?_, fun y hy ↦ ?_, fun y hy ↦ ?_⟩
  · exact (imagesOf_attach hr.nodup hmem hnone).symm.append_left _
  · obtain rfl : t = y := Option.some.inj hy
    exact ⟨hw.mem, (hnext _).trans hw.next, hw.ne, by rw [hstate]; exact hw.alive⟩
  · obtain rfl : t = y := Option.some.inj hy
    simp [Tasking.modify, Phase.stored]

theorem read {phase : Phase} (h : ExecInv A x others false l)
    (hphase : x.phase.afterRead? = some phase) :
    ExecInv A { x with phase := phase } others false l := by
  have hhand : x.phase.inHand = phase.inHand := by
    cases hx : x.phase <;> rw [hx] at hphase <;> cases hphase <;> rfl
  have htask : ∀ t ∈ phase.task?, t ∈ x.phase.task? := by
    cases hx : x.phase <;> rw [hx] at hphase <;> cases hphase <;>
      first | exact fun t ht ↦ ht | exact nofun
  have hstored : ∀ t ∈ phase.task?, phase.stored = x.phase.stored := by
    cases hx : x.phase <;> rw [hx] at hphase <;> cases hphase <;>
      first | exact fun t ht ↦ rfl | exact nofun
  refine ⟨hhand ▸ h.ring, h.settled, hhand ▸ h.images, fun t ht ↦ h.window t (htask t ht),
    fun t ht ↦ (h.stored t (htask t ht)).trans (hstored t ht).symm⟩

end ExecInv

theorem taskingInit_alone (hevents : s.events = []) (hcall : s.taskingInit = .done s') :
    s'.events = [.create s'.current] ∧ (s'.tasks s'.current).image = none ∧
      s'.unloads = s.unloads := by
  obtain ⟨⟨boot, h⟩, -, hrest⟩ := Outcome.bind_eq_done_iff.mp hcall
  by_cases hzero : boot = 0
  · simp [hzero] at hrest
  · simp only [if_neg hzero] at hrest
    cases hrest
    simp [Tasking.log, Tasking.modify, Tasking.setHeap, hevents]

theorem ExecRun.inv {x : Exec} (hrun : ExecRun A T Exec.Waits x others e) :
    ∃ l, ExecInv A x others e l := by
  induction hrun with
  | init hheap hevents hunloads hcall =>
      obtain ⟨l, hr, hs⟩ := taskingInit_spec hheap hevents hcall
      obtain ⟨halone, himage, hkept⟩ := taskingInit_alone hevents hcall
      have hl := hr.alive
      rw [halone] at hl
      obtain rfl := List.perm_singleton.mp hl
      refine ⟨_, hr, hs, ?_, nofun, nofun⟩
      simp [imagesOf, Phase.inHand, himage, hkept, hunloads]
  | plain _ hfree hcall ih =>
      obtain ⟨l, h⟩ := ih
      exact h.plain hfree hcall
  | tick _ ih =>
      obtain ⟨l, h⟩ := ih
      exact ⟨l, h.tick⟩
  | yield _ hwaits hcall ih =>
      obtain ⟨l, h⟩ := ih
      exact h.yield hwaits hcall
  | load F out _ _ hphase hcall ih =>
      obtain ⟨l, h⟩ := ih
      exact ⟨l, h.load hphase hcall⟩
  | loadFails F out _ _ _ hcall ih =>
      obtain ⟨l, h⟩ := ih
      exact ⟨l, h.loadFails hcall⟩
  | create name _ hshell hphase hcall ih =>
      obtain ⟨l, h⟩ := ih
      exact h.create hshell hphase hcall
  | unload _ _ hphase hcall ih =>
      obtain ⟨l, h⟩ := ih
      exact ⟨l, h.unload hphase hcall⟩
  | attach _ _ hphase ih =>
      obtain ⟨l, h⟩ := ih
      exact ⟨l, h.attach hphase⟩
  | read _ _ hphase ih =>
      obtain ⟨l, h⟩ := ih
      exact ⟨l, h.read hphase⟩

/-- In an interleaving in which no yield of the shell came after the exit of the task that
`cmd_exec` had still to do with, every image is released once and no freed block is accessed.  The
next yield keeps that exactly if it is such a yield too. -/
theorem exec_released_iff {x : Exec} (hrun : ExecRun A T Exec.Waits x others e) :
    x.Released ∧
      ∀ s', Yields T x.sched s' → (Exec.Released { x with sched := s' } ↔ x.Waits) := by
  obtain ⟨l, h⟩ := hrun.inv
  refine ⟨h.released, fun s' hcall ↦ ⟨fun hreleased ↦ ?_, fun hwaits ↦ ?_⟩⟩
  · by_contra hwaits
    exact h.yield_breaks hwaits hcall hreleased
  · obtain ⟨l', h'⟩ := h.yield hwaits hcall
    exact h'.released

/-! ## A short program -/

theorem ExecRun.ticks {W : Exec → Prop} {x : Exec} (hrun : ExecRun A T W x others e) (n : ℕ) :
    ExecRun A T W { x with sched := Tasking.taskTick^[n] x.sched } others e := by
  induction n with
  | zero => exact hrun
  | succ n ih =>
      rw [Function.iterate_succ_apply']
      exact ih.tick

/-- A program without segments is loaded and its task put on the ring.  The slice of the shell
ends, the task runs and exits, and the slice of the shell ends again. -/
structure ShortRun (s₀ s₁ s₂ s₃ s₄ : Tasking) (sys : Sys) (image : UserImage) (t : ℕ) : Prop where
  init : fresh.taskingInit = .done s₀
  load : elfLoad lowTables s₀.sys (segmentFile 0x40000000 0 0 0) 1 = .done (0, some image, sys)
  create : { s₀ with sys := sys }.taskCreateUser [0x70] = .done (t, s₁)
  timer : (Tasking.taskTick^[5] s₁).irqReturn lowTables 0 = .done s₂
  exit : s₂.taskExit.taskYield lowTables 0 = .done s₃
  again : (Tasking.taskTick^[5] s₃).irqReturn lowTables 0 = .done s₄
  made : t ≠ 0 ∧ ((Tasking.taskTick^[5] s₁).tasks t).state = .ready ∧
    (Tasking.taskTick^[5] s₁).needResched = true
  left : s₂.current ≠ s₀.current ∧ (Tasking.taskTick^[5] s₃).needResched = true
  back : s₄.current = s₀.current ∧ alive s₄.events = [s₀.current] ∧
    t ∉ held hdrSize (blockList s₄.sys.heap)
  imageless : s₄.unloads = []

theorem exists_shortRun : ∃ s₀ s₁ s₂ s₃ s₄ sys image t,
    ShortRun s₀ s₁ s₂ s₃ s₄ sys image t := by
  have hcalls : (do
      let s₀ ← fresh.taskingInit
      let r ← elfLoad lowTables s₀.sys (segmentFile 0x40000000 0 0 0) 1
      let c ← { s₀ with sys := r.2.2 }.taskCreateUser [0x70]
      let s₂ ← (Tasking.taskTick^[5] c.2).irqReturn lowTables 0
      let s₃ ← s₂.taskExit.taskYield lowTables 0
      let s₄ ← (Tasking.taskTick^[5] s₃).irqReturn lowTables 0
      .done (decide ((r.1 = 0 ∧ r.2.1.isSome = true) ∧
        (c.1 ≠ 0 ∧ ((Tasking.taskTick^[5] c.2).tasks c.1).state = TaskState.ready ∧
          (Tasking.taskTick^[5] c.2).needResched = true) ∧
        (s₂.current ≠ s₀.current ∧ (Tasking.taskTick^[5] s₃).needResched = true) ∧
        (s₄.current = s₀.current ∧ alive s₄.events = [s₀.current] ∧
          c.1 ∉ held hdrSize (blockList s₄.sys.heap)) ∧
        s₄.unloads.isEmpty = true))).value? = some true := by
    decide +kernel
  obtain ⟨s₀, hinit, hrest⟩ := Outcome.bind_eq_done_iff.mp (Outcome.value?_eq_some.mp hcalls)
  obtain ⟨⟨code, out, sys⟩, hload, hrest⟩ := Outcome.bind_eq_done_iff.mp hrest
  obtain ⟨⟨t, s₁⟩, hcreate, hrest⟩ := Outcome.bind_eq_done_iff.mp hrest
  obtain ⟨s₂, htimer, hrest⟩ := Outcome.bind_eq_done_iff.mp hrest
  obtain ⟨s₃, hexit, hrest⟩ := Outcome.bind_eq_done_iff.mp hrest
  obtain ⟨s₄, hagain, hdone⟩ := Outcome.bind_eq_done_iff.mp hrest
  obtain ⟨⟨hcode, hsome⟩, hmade, hleft, hback, hnone⟩ :=
    of_decide_eq_true (Outcome.done.inj hdone)
  obtain ⟨image, himage⟩ := Option.isSome_iff_exists.mp hsome
  simp only at hcode himage
  subst hcode himage
  exact ⟨s₀, s₁, s₂, s₃, s₄, sys, image, t, hinit, hload, hcreate, htimer, hexit, hagain, hmade,
    hleft, hback, List.isEmpty_iff.mp hnone⟩

namespace ShortRun

variable {s₀ s₁ s₂ s₃ s₄ : Tasking} {sys : Sys} {W : Exec → Prop}

theorem published (h : ShortRun s₀ s₁ s₂ s₃ s₄ sys image t) (W : Exec → Prop) :
    ExecRun lowArena lowTables W
      ⟨Tasking.taskTick^[5] s₁, s₀.current, .attach t image, [image]⟩ [] false := by
  have hrun := ((ExecRun.init (W := W) fresh_inv rfl rfl h.init).load _ 1 rfl rfl h.load).create
    [0x70] rfl rfl h.create
  rw [if_neg h.made.1] at hrun
  exact hrun.ticks 5

theorem yields (h : ShortRun s₀ s₁ s₂ s₃ s₄ sys image t) :
    Yields lowTables (Tasking.taskTick^[5] s₁) s₂ := .timer 0 h.made.2.2 h.timer

/-- The shell has stored the image in a record that is no longer a block of the heap. -/
theorem lost (h : ShortRun s₀ s₁ s₂ s₃ s₄ sys image t) :
    ExecRun lowArena lowTables (fun _ ↦ True)
      ⟨s₄.modify t fun k ↦ { k with image := some image }, s₀.current, .readId t image, [image]⟩
        [] false := by
  have hrun₂ := (h.published fun _ ↦ True).yield trivial h.yields
  have hrun₃ := (hrun₂.plain (Or.inr h.left.1) .exit).yield trivial (.call 0 h.exit)
  have hrun₄ := (hrun₃.ticks 5).yield trivial (.timer 0 h.left.2 h.again)
  exact hrun₄.attach h.back.1 rfl

end ShortRun

theorem exec_released_iff_published : ∃ (x : Exec) (t : ℕ) (image : UserImage) (s' : Tasking),
    ExecRun lowArena lowTables Exec.Waits x [] false ∧ x.phase = .attach t image ∧
      Yields lowTables x.sched s' ∧ Exec.Released { x with sched := s' } := by
  obtain ⟨s₀, s₁, s₂, s₃, s₄, sys, image, t, h⟩ := exists_shortRun
  have hrun := h.published Exec.Waits
  refine ⟨_, t, image, s₂, hrun, rfl, h.yields, ?_⟩
  refine ((exec_released_iff hrun).2 s₂ h.yields).mpr fun _ y hy ↦ ?_
  obtain rfl : t = y := Option.some.inj hy
  change ((Tasking.taskTick^[5] s₁).tasks t).state ≠ .zombie
  rw [h.made.2.1]
  nofun

/-- The task exits before the shell has stored the image and is reaped by the next yield of the
shell: the image is never unloaded, and the store goes to a freed record. -/
theorem exec_loses_image : ∃ (x : Exec) (t : ℕ) (image : UserImage),
    ExecRun lowArena lowTables (fun _ ↦ True) x [] false ∧ x.phase = .readId t image ∧
      x.sched.current = x.shell ∧ x.loaded = [image] ∧ x.sched.unloads = [] ∧
      alive x.sched.events = [x.shell] ∧ t ∉ held hdrSize (blockList x.sched.sys.heap) ∧
      ¬x.Released := by
  obtain ⟨s₀, s₁, s₂, s₃, s₄, sys, image, t, h⟩ := exists_shortRun
  refine ⟨_, t, image, h.lost, rfl, h.back.1, rfl, h.imageless, h.back.2.1, h.back.2.2, ?_⟩
  rintro ⟨l, -, -, -, -, -, haccess⟩
  exact h.back.2.2 (haccess t List.mem_cons_self)

end MyOS.Sched
