import Mathlib.Data.List.TakeWhile
import MyOS.Sched.Ring

/-!
# Every run of the scheduler keeps the ring

A run starts with `tasking_init` on a heap in order and continues with calls in any order.  A
call is a step, but `task_exit` is two: it marks the task, and the yield is left to a later
step, so that a tick or a yield from the timer may come first.  The rest of the kernel uses the
heap and the page tables in between.
-/

namespace MyOS.Sched

open Heap Elf

variable {A : Arena} {T : Tables} {s s' : Tasking} {others l rest : List ℕ} {e : Bool}
  {c d p r t sp : ℕ}

/-! ## Reaping -/

/-- The walk of `ready_remove` ends at the task before `t`. -/
theorem readyRemoveLoop_eq {pre : List ℕ} {fuel : ℕ} (hwalk : Walk s.next p pre c)
    (hpre : ∀ x ∈ pre, s.next x ≠ t) (hc : s.next c = t) (hfuel : pre.length < fuel) :
    s.readyRemoveLoop t fuel p = .done c := by
  induction pre generalizing p fuel with
  | nil =>
      obtain rfl : p = c := hwalk
      obtain ⟨fuel, rfl⟩ := Nat.exists_eq_add_one.mpr (Nat.zero_lt_of_lt hfuel)
      rw [Tasking.readyRemoveLoop, if_neg (not_not.mpr hc)]
  | cons x pre ih =>
      obtain ⟨rfl, hrest⟩ := hwalk
      obtain ⟨fuel, rfl⟩ := Nat.exists_eq_add_one.mpr (Nat.zero_lt_of_lt hfuel)
      rw [Tasking.readyRemoveLoop, if_pos (hpre x List.mem_cons_self)]
      exact ih hrest (fun y hy ↦ hpre y (List.mem_cons_of_mem x hy)) (Nat.lt_of_succ_lt_succ hfuel)

namespace Ring

/-- The successor of the current task, and the way from there back. -/
theorem second (hr : Ring A s others (s.current :: d :: rest)) :
    s.next s.current = d ∧ Walk s.next (s.next d) rest s.current ∧ d ≠ s.current ∧ d ∉ rest ∧
      s.current ∉ rest := by
  obtain ⟨-, hd, hrest⟩ := hr.walk
  rw [← hd] at hrest
  have hnodup := hr.nodup
  simp only [List.nodup_cons, List.mem_cons, not_or] at hnodup
  exact ⟨hd.symm, hrest, fun heq ↦ hnodup.1.1 heq.symm, hnodup.2.1, hnodup.1.2⟩

theorem readyRemove (hr : Ring A s others (s.current :: d :: rest)) (ev : Event) :
    (s.log ev).readyRemove d = .done ((s.log ev).setNext s.current (s.next d)) := by
  obtain ⟨hnext, hwalk, hne, hnot, -⟩ := hr.second
  have hlength := hr.length_lt
  simp only [List.length_cons] at hlength
  -- nobody on the way points to `d`, so that the walk arrives at the current task
  have hpre : ∀ x ∈ rest, s.next x ≠ d := by
    intro x hx heq
    rcases hwalk.next_mem_or_eq hx with hmem | hend
    · exact hnot (heq ▸ hmem)
    · exact hne (heq.symm.trans hend)
  have hloop : (s.log ev).readyRemoveLoop d walkFuel (s.next d) = .done s.current :=
    readyRemoveLoop_eq (s := s.log ev) hwalk hpre hnext (by omega)
  exact congrArg (fun o : Outcome ℕ ↦ o >>= fun p ↦ .done ((s.log ev).setNext p (s.next d))) hloop

/-- The ring without the successor of the current task. -/
theorem unlink (hr : Ring A s others (s.current :: d :: rest)) :
    Ring A ((s.log (.reap d s.current)).setNext s.current (s.next d))
      ((s.tasks d).owned d ++ others) (s.current :: rest) := by
  obtain ⟨-, hwalk, hne, -, hnot⟩ := hr.second
  have hkept : ∀ x, (((s.log (.reap d s.current)).setNext s.current (s.next d)).tasks x).kept =
      (s.tasks x).kept := by
    intro x
    simp only [Tasking.setNext, Tasking.log, Tasking.modify, Function.update_apply]
    split_ifs <;> subst_vars <;> rfl
  have hother : ∀ x, x ≠ s.current →
      ((s.log (.reap d s.current)).setNext s.current (s.next d)).next x = s.next x :=
    fun x hx ↦ congrArg Task.next (Function.update_of_ne hx _ _)
  have hself : ((s.log (.reap d s.current)).setNext s.current (s.next d)).next s.current =
      s.next d := by
    have hrecord := congrArg Task.next (Function.update_self s.current
      { s.tasks s.current with next := s.next d } s.tasks)
    exact hrecord
  refine ⟨⟨rfl, ?_⟩, List.cons_ne_nil _ _, ?_, hr.active, ?_, ?_, ?_⟩
  · change Walk _ (((s.log (.reap d s.current)).setNext s.current (s.next d)).next s.current) _ _
    rw [hself]
    refine hwalk.congr fun x hx ↦ hother x ?_
    rintro rfl
    exact hnot hx
  · rw [flatMap_owned_congr fun x _ ↦ hkept x]
    refine hr.heap.perm ?_
    simp only [List.flatMap_cons, List.append_assoc]
    exact (List.perm_append_comm_assoc _ _ others).append_left _
  · have herase := hr.alive.erase d
    rw [List.erase_cons_tail (by simpa using hne.symm), List.erase_cons_head] at herase
    exact herase
  · intro ev hev
    rcases List.mem_cons.mp hev with rfl | hev
    · exact hne
    · exact hr.proper ev hev
  · intro x hx
    rw [Task.isUser_of_kept (hkept x), Task.top_of_kept (hkept x)]
    refine hr.tops x ?_
    rcases List.mem_cons.mp hx with rfl | hx
    · exact List.mem_cons_self
    · exact List.mem_cons_of_mem _ (List.mem_cons_of_mem _ hx)

/-- A call of `elf_unload` gives the block of the image back. -/
theorem unload (T : Tables) {image : UserImage} (hr : Ring A s (image.ptr :: others) l) :
    ∃ sys, s.unload T image = .done { s with sys := sys, unloads := image :: s.unloads } ∧
      Ring A { s with sys := sys, unloads := image :: s.unloads } others l := by
  have hptr : image.ptr ≠ 0 := hr.heap.ne_zero (List.mem_append_right _ List.mem_cons_self)
  obtain ⟨h, hfree, hinv⟩ := (hr.heap.perm List.perm_middle.symm).free_head
  simp only [Tasking.unload, elfUnload, if_neg hptr, hfree, Outcome.done_bind]
  exact ⟨_, rfl, hr.walk, hr.ne_nil, hinv, hr.active, hr.alive, hr.proper, hr.tops⟩

theorem unloadImage (T : Tables)
    (hr : Ring A s ((s.tasks t).image.toList.map UserImage.ptr ++ others) l) :
    ∃ sys us, us = (s.tasks t).image.toList ++ s.unloads ∧
      s.unloadImage t T = .done { s with sys := sys, unloads := us } ∧
      Ring A { s with sys := sys, unloads := us } others l := by
  rw [Tasking.unloadImage]
  cases himage : (s.tasks t).image with
  | none =>
      rw [himage] at hr
      exact ⟨s.sys, s.unloads, rfl, rfl, hr⟩
  | some image =>
      rw [himage] at hr
      obtain ⟨sys, hcall, hr'⟩ := hr.unload T
      exact ⟨sys, _, rfl, hcall, hr'⟩

/-- `reap` of the successor of the current task returns, and only changes the current task's
`next`. -/
theorem reap (T : Tables) (hr : Ring A s others (s.current :: d :: rest)) :
    ∃ s', s.reap d T = .done s' ∧ Ring A s' others (s.current :: rest) ∧
      s'.current = s.current ∧ s'.esp0 = s.esp0 ∧ s'.next s.current = s.next d ∧
      s'.events = .reap d s.current :: s.events ∧
      s'.unloads = (s.tasks d).image.toList ++ s.unloads ∧
      ∀ x, (s'.tasks x).state = (s.tasks x).state ∧ (s'.tasks x).kept = (s.tasks x).kept := by
  obtain ⟨-, -, hne, -, -⟩ := hr.second
  have hring := hr.unlink
  have hrecord : ((s.log (.reap d s.current)).setNext s.current (s.next d)).tasks d = s.tasks d :=
    Function.update_of_ne hne _ _
  have hsame : ∀ x,
      (((s.log (.reap d s.current)).setNext s.current (s.next d)).tasks x).state =
        (s.tasks x).state ∧
      (((s.log (.reap d s.current)).setNext s.current (s.next d)).tasks x).kept =
        (s.tasks x).kept := by
    intro x
    simp only [Tasking.setNext, Tasking.log, Tasking.modify, Function.update_apply]
    split_ifs <;> subst_vars <;> exact ⟨rfl, rfl⟩
  have hself : ((s.log (.reap d s.current)).setNext s.current (s.next d)).next s.current =
      s.next d := by
    have hcell := congrArg Task.next (Function.update_self s.current
      { s.tasks s.current with next := s.next d } s.tasks)
    exact hcell
  have hcurrent : ((s.log (.reap d s.current)).setNext s.current (s.next d)).current =
      s.current := rfl
  have hesp0 : ((s.log (.reap d s.current)).setNext s.current (s.next d)).esp0 = s.esp0 := rfl
  have hevents : ((s.log (.reap d s.current)).setNext s.current (s.next d)).events =
      .reap d s.current :: s.events := rfl
  have hunloads : ((s.log (.reap d s.current)).setNext s.current (s.next d)).unloads =
      s.unloads := rfl
  rw [Tasking.reap, hr.readyRemove, Outcome.done_bind]
  generalize (s.log (.reap d s.current)).setNext s.current (s.next d) = s₁ at *
  rw [← hrecord, Task.owned, List.append_assoc] at hring
  obtain ⟨sys, us, hus, hunload, hring₂⟩ := hring.unloadImage T
  rw [hrecord, hunloads] at hus
  rw [hunload, Outcome.done_bind]
  simp only [List.append_assoc] at hring₂
  obtain ⟨h₃, hfree₃, hring₃⟩ := hring₂.freeIf
  obtain ⟨h₄, hfree₄, hring₄⟩ := hring₃.freeIf
  obtain ⟨h₅, hfree₅, hring₅⟩ := hring₄.free
  have hcalls : (do
      let s ← ({ s₁ with sys := sys, unloads := us }).freeIf (s₁.tasks d).stackBase
      let s ← s.freeIf (s.tasks d).userStackBase
      s.free d) =
        .done ((({ s₁ with sys := sys, unloads := us }.setHeap h₃).setHeap h₄).setHeap h₅) := by
    rw [hfree₃, Outcome.done_bind]
    exact (congrArg (fun o : Outcome Tasking ↦ o >>= fun s ↦ s.free d) hfree₄).trans hfree₅
  exact ⟨_, hcalls, hring₅, hcurrent, hesp0, hself, hevents, hus, hsame⟩

end Ring

/-! ## Switching -/

/-- The task at `t` is a zombie. -/
def Tasking.dead (s : Tasking) (t : ℕ) : Bool := decide ((s.tasks t).state = .zombie)

@[simp] theorem dead_eq_true : s.dead t = true ↔ (s.tasks t).state = .zombie := decide_eq_true_iff

@[simp] theorem dead_eq_false : s.dead t = false ↔ (s.tasks t).state ≠ .zombie :=
  decide_eq_false_iff_not

theorem dead_congr (hstate : ∀ x, (s'.tasks x).state = (s.tasks x).state) : s'.dead = s.dead := by
  funext x
  rw [Tasking.dead, Tasking.dead, hstate x]

/-- The images that the tasks of `l` have. -/
def imagesOf (s : Tasking) (l : List ℕ) : List UserImage :=
  l.flatMap fun t ↦ (s.tasks t).image.toList

theorem imagesOf_congr (h : ∀ x, (s'.tasks x).image = (s.tasks x).image) (l : List ℕ) :
    imagesOf s' l = imagesOf s l :=
  List.flatMap_congr fun x _ ↦ by rw [h]

/-- What `pick_next` leaves: of the tasks behind the current one the zombies at the front are
gone, their images were passed to `elf_unload`, and the first of the others was picked. -/
structure Picked (A : Arena) (s s' : Tasking) (others rest : List ℕ) (r : ℕ) : Prop where
  ring : Ring A s' others (s.current :: rest.dropWhile s.dead)
  current : s'.current = s.current
  esp0 : s'.esp0 = s.esp0
  same : ∀ x, (s'.tasks x).state = (s.tasks x).state ∧ (s'.tasks x).kept = (s.tasks x).kept
  events : s'.events = ((rest.takeWhile s.dead).map (Event.reap · s.current)).reverse ++ s.events
  unloads : s'.unloads = imagesOf s (rest.takeWhile s.dead).reverse ++ s.unloads
  head : r = (rest.dropWhile s.dead).headD s.current

theorem Picked.cases (hpick : Picked A s s' others rest r) :
    (rest.dropWhile s.dead = [] ∧ r = s.current ∧ ∀ x ∈ rest, (s.tasks x).state = .zombie) ∨
      ∃ rest', rest.dropWhile s.dead = r :: rest' ∧ (s.tasks r).state ≠ .zombie := by
  have hhead := hpick.head
  cases hrest : rest.dropWhile s.dead with
  | nil =>
      rw [hrest] at hhead
      refine Or.inl ⟨rfl, hhead, fun x hx ↦ ?_⟩
      exact dead_eq_true.mp (List.dropWhile_eq_nil_iff.mp hrest x hx)
  | cons d rest' =>
      rw [hrest] at hhead
      obtain rfl : r = d := hhead
      refine Or.inr ⟨rest', rfl, ?_⟩
      have hfirst := List.head?_dropWhile_not s.dead rest
      rw [hrest] at hfirst
      exact dead_eq_false.mp (by simpa using hfirst)

theorem pickNextLoop_spec (T : Tables) {fuel : ℕ} (hr : Ring A s others (s.current :: rest))
    (hfuel : rest.length < fuel) :
    ∃ r s', Tasking.pickNextLoop T s.current fuel (s.next s.current) s = .done (r, s') ∧
      Picked A s s' others rest r := by
  -- each turn of the loop sees the successor of the current task, after the reaped ones are gone
  induction rest generalizing s fuel with
  | nil =>
      obtain ⟨fuel, rfl⟩ := Nat.exists_eq_add_one.mpr (Nat.zero_lt_of_lt hfuel)
      obtain ⟨-, hnext⟩ := hr.walk
      rw [Walk.nil_iff] at hnext
      rw [Tasking.pickNextLoop, if_pos hnext]
      exact ⟨s.current, s, rfl, hr, rfl, rfl, fun x ↦ ⟨rfl, rfl⟩, rfl, rfl, rfl⟩
  | cons d rest ih =>
      obtain ⟨fuel, rfl⟩ := Nat.exists_eq_add_one.mpr (Nat.zero_lt_of_lt hfuel)
      obtain ⟨hnext, -, hne, -, -⟩ := hr.second
      rw [Tasking.pickNextLoop, hnext, if_neg hne]
      by_cases hzombie : (s.tasks d).state = .zombie
      · obtain ⟨s₁, hreap, hr₁, hcurrent₁, hesp₁, hnext₁, hevents₁, hunloads₁, hsame₁⟩ := hr.reap T
        simp only [if_pos hzombie, hreap, Outcome.done_bind]
        rw [← hnext₁, ← hcurrent₁]
        rw [← hcurrent₁] at hr₁
        obtain ⟨r, s', hloop, hpick⟩ := ih hr₁ (Nat.lt_of_succ_lt_succ hfuel)
        have hdead : s₁.dead = s.dead := dead_congr fun x ↦ (hsame₁ x).1
        have hdrop : (d :: rest).dropWhile s.dead = rest.dropWhile s₁.dead := by
          rw [hdead, List.dropWhile_cons_of_pos (dead_eq_true.mpr hzombie)]
        have htake : (d :: rest).takeWhile s.dead = d :: rest.takeWhile s₁.dead := by
          rw [hdead, List.takeWhile_cons_of_pos (dead_eq_true.mpr hzombie)]
        refine ⟨r, s', hloop, ?_, hpick.current.trans hcurrent₁, hpick.esp0.trans hesp₁,
          fun x ↦ ?_, ?_, ?_, ?_⟩
        · rw [hdrop, ← hcurrent₁]
          exact hpick.ring
        · exact ⟨(hpick.same x).1.trans (hsame₁ x).1, (hpick.same x).2.trans (hsame₁ x).2⟩
        · rw [hpick.events, hevents₁, hcurrent₁, htake, List.map_cons, List.reverse_cons,
            List.append_assoc, List.singleton_append]
        · have himages := imagesOf_congr (fun x ↦ Task.image_of_kept (hsame₁ x).2)
            (rest.takeWhile s₁.dead).reverse
          rw [hpick.unloads, hunloads₁, himages, htake, List.reverse_cons]
          simp [imagesOf]
        · rw [hdrop, ← hcurrent₁]
          exact hpick.head
      · have hstate : (s.tasks d).state = .ready ∨ (s.tasks d).state = .running := by
          cases hd : (s.tasks d).state with
          | ready => exact Or.inl rfl
          | running => exact Or.inr rfl
          | zombie => exact absurd hd hzombie
        have halive : ¬ s.dead d = true := fun hdead ↦ hzombie (dead_eq_true.mp hdead)
        have hdrop : (d :: rest).dropWhile s.dead = d :: rest := List.dropWhile_cons_of_neg halive
        have htake : (d :: rest).takeWhile s.dead = [] := List.takeWhile_cons_of_neg halive
        rw [if_neg hzombie, if_pos hstate]
        refine ⟨d, s, rfl, ?_, rfl, rfl, fun x ↦ ⟨rfl, rfl⟩, ?_, ?_, ?_⟩
        · rwa [hdrop]
        · rw [htake]
          rfl
        · rw [htake]
          rfl
        · rw [hdrop]
          rfl

theorem pickNext_spec (T : Tables) (hr : Ring A s others (s.current :: rest)) :
    ∃ r s', s.pickNext T s.current = .done (r, s') ∧ Picked A s s' others rest r := by
  have hlength := hr.length_lt
  rw [List.length_cons] at hlength
  exact pickNextLoop_spec T hr (by omega)

theorem switchTo_tasks (sp : ℕ) (hne : c ≠ r) (x : ℕ) :
    ((s.switchTo c r sp).tasks x).kept = (s.tasks x).kept ∧
      (s.switchTo c r sp).next x = s.next x ∧
      ((s.switchTo c r sp).tasks x).state = if x = r then .running else
        if x = c ∧ (s.tasks c).state = .running then .ready else (s.tasks x).state := by
  by_cases hrun : (s.tasks c).state = .running <;> by_cases hxr : x = r <;>
    by_cases hxc : x = c <;>
    simp [Tasking.switchTo, Tasking.log, Tasking.modify, Tasking.next, Task.kept,
      hrun, hxr, hxc, hne, hne.symm, apply_ite]

theorem switchTo_fields (s : Tasking) (c r sp : ℕ) :
    (s.switchTo c r sp).current = r ∧ (s.switchTo c r sp).sys = s.sys ∧
      (s.switchTo c r sp).active = s.active ∧
      (s.switchTo c r sp).events = .resume r (s.tasks r).state :: s.events ∧
      (s.switchTo c r sp).unloads = s.unloads := by
  simp only [Tasking.switchTo]
  split_ifs <;> exact ⟨rfl, rfl, rfl, rfl, rfl⟩

theorem switchTo_esp0 (hne : c ≠ r) (htop : (s.tasks r).kernelStackTop ≠ 0) :
    (s.switchTo c r sp).esp0 = (s.tasks r).kernelStackTop := by
  by_cases hrun : (s.tasks c).state = .running <;>
    simp [Tasking.switchTo, Tasking.log, Tasking.modify, hrun, hne.symm, htop]

/-- The list starts with the task that is switched to, and the one that was current is its last. -/
theorem Ring.switchTo (hr : Ring A s others (s.current :: r :: rest))
    (halive : (s.tasks r).state ≠ .zombie) :
    Ring A (s.switchTo s.current r sp) others ((r :: rest) ++ [s.current]) := by
  obtain ⟨hnext, hwalk, hne, -, -⟩ := hr.second
  obtain ⟨hcurrent, hsys, hactive, hevents, -⟩ := switchTo_fields s s.current r sp
  have htasks := switchTo_tasks (s := s) sp hne.symm
  have hperm : ((r :: rest) ++ [s.current]).Perm (s.current :: r :: rest) :=
    List.perm_append_singleton s.current (r :: rest)
  refine ⟨?_, by simp, ?_, hactive.trans hr.active, ?_, ?_, ?_⟩
  · have hround : Walk s.next r ((r :: rest) ++ [s.current]) r :=
      Walk.append_iff.mpr ⟨s.current, ⟨rfl, hwalk⟩, rfl, hnext⟩
    rw [hcurrent]
    exact hround.congr fun x _ ↦ (htasks x).2.1
  · rw [hsys, flatMap_owned_congr fun x _ ↦ (htasks x).1]
    exact hr.heap.perm ((hperm.flatMap_right _).append_right others)
  · rw [hevents]
    exact hperm.trans hr.alive
  · rw [hevents]
    intro ev hev
    rcases List.mem_cons.mp hev with rfl | hev
    · exact halive
    · exact hr.proper ev hev
  · intro x hx
    rw [Task.isUser_of_kept (htasks x).1, Task.top_of_kept (htasks x).1]
    exact hr.tops x (hperm.mem_iff.mp hx)

theorem Settled.switchTo (hs : Settled s e (s.current :: r :: rest))
    (hr : Ring A s others (s.current :: r :: rest)) :
    Settled (s.switchTo s.current r sp) false ((r :: rest) ++ [s.current]) := by
  obtain ⟨-, -, hne, -, -⟩ := hr.second
  obtain ⟨hcurrent, -⟩ := switchTo_fields s s.current r sp
  have htasks := switchTo_tasks (s := s) sp hne.symm
  have hperm : ((r :: rest) ++ [s.current]).Perm (s.current :: r :: rest) :=
    List.perm_append_singleton s.current (r :: rest)
  refine ⟨?_, ?_, ?_⟩
  · rw [hcurrent, (htasks r).2.2, if_pos rfl]
    rfl
  · intro x hx hxr
    rw [hcurrent] at hxr
    rw [(htasks x).2.2, if_neg hxr]
    split_ifs with hprev
    · simp
    · intro hrunning
      by_cases hxc : x = s.current
      · exact hprev ⟨hxc, hxc ▸ hrunning⟩
      · exact hs.rest x (hperm.mem_iff.mp hx) hxc hrunning
  · intro huser
    rw [hcurrent, Task.isUser_of_kept (htasks r).1] at huser
    rw [hcurrent, Task.top_of_kept (htasks r).1]
    exact switchTo_esp0 hne.symm
      (hr.tops r (List.mem_cons_of_mem _ List.mem_cons_self) huser)

/-- `task_yield` returns with some task running, unless no task is left that could. -/
theorem taskYield_spec (T : Tables) (hr : Ring A s others l) (hs : Settled s e l) (sp : ℕ) :
    (∃ s' l', s.taskYield T sp = .done s' ∧ Ring A s' others l' ∧ Settled s' false l') ∨
      (s.taskYield T sp = .halt "\n[scheduler] no runnable tasks. halting.\n" ∧
        ∀ x ∈ l, (s.tasks x).state = .zombie) := by
  obtain ⟨rest, rfl⟩ := hr.exists_cons
  obtain ⟨r, s₁, hpick, hpicked⟩ := pickNext_spec T hr
  have hs₁ : Settled s₁ e (s.current :: rest.dropWhile s.dead) :=
    hs.congr hpicked.current hpicked.esp0 List.mem_cons_self
      (List.cons_subset_cons _ (List.dropWhile_suffix _).subset) (fun x _ ↦ (hpicked.same x).1)
      fun x _ ↦ (hpicked.same x).2
  have hr₁ := hpicked.ring
  rw [Tasking.taskYield, if_neg (by simp [hr.active])]
  simp only [hpick, Outcome.done_bind]
  rcases hpicked.cases with ⟨hnil, rfl, hall⟩ | ⟨rest', hrest, halive⟩
  · rw [if_pos rfl]
    by_cases hzombie : (s₁.tasks s.current).state = .zombie
    · rw [if_neg (not_not.mpr hzombie)]
      refine Or.inr ⟨rfl, fun x hx ↦ ?_⟩
      rcases List.mem_cons.mp hx with rfl | hx
      · rwa [← (hpicked.same _).1]
      · exact hall x hx
    · rw [if_pos hzombie]
      have he : e = false := by
        cases e with
        | false => rfl
        | true =>
            have hmark := hs₁.current
            rw [hpicked.current] at hmark
            exact absurd hmark hzombie
      subst he
      exact Or.inl ⟨s₁, _, rfl, hr₁, hs₁⟩
  · rw [hrest, ← hpicked.current] at hr₁ hs₁
    rw [← hpicked.current, if_neg hr₁.second.2.2.1]
    rw [← (hpicked.same r).1] at halive
    exact Or.inl ⟨_, _, rfl, hr₁.switchTo halive, hs₁.switchTo hr₁⟩

/-! ## Ticks, exits and the beginning -/

/-- A tick keeps of every record what does not depend on its ticks and its slice. -/
theorem taskTick_frame {β : Type} {g : Task → β} (s : Tasking)
    (hticks : ∀ k n, g { k with ticksRun := n } = g k)
    (hslice : ∀ k n, g { k with sliceLeft := n } = g k) (x : ℕ) :
    g (s.taskTick.tasks x) = g (s.tasks x) := by
  have hfirst := modify_frame (s := s) (t := s.current)
    (f := fun k ↦ { k with ticksRun := Word.add k.ticksRun 1 }) (fun k ↦ hticks k _) x
  have hsecond := fun s : Tasking ↦ modify_frame (s := s) (t := s.current)
    (f := fun k ↦ { k with sliceLeft := k.sliceLeft - 1 }) (fun k ↦ hslice k _) x
  simp only [Tasking.taskTick]
  split_ifs
  · rfl
  · exact (hsecond _).trans hfirst
  · exact (hsecond _).trans hfirst
  · exact hfirst
  · exact hfirst

theorem taskTick_fields (s : Tasking) :
    s.taskTick.current = s.current ∧ s.taskTick.sys = s.sys ∧ s.taskTick.active = s.active ∧
      s.taskTick.events = s.events ∧ s.taskTick.esp0 = s.esp0 ∧
      s.taskTick.unloads = s.unloads := by
  simp only [Tasking.taskTick]
  split_ifs <;> exact ⟨rfl, rfl, rfl, rfl, rfl, rfl⟩

theorem Ring.taskTick (hr : Ring A s others l) : Ring A s.taskTick others l := by
  obtain ⟨hcurrent, hsys, hactive, hevents, -⟩ := taskTick_fields s
  exact hr.congr hcurrent (congrArg Sys.heap hsys) hactive hevents
    (fun x _ ↦ taskTick_frame (g := Task.next) s (fun _ _ ↦ rfl) (fun _ _ ↦ rfl) x)
    fun x _ ↦ taskTick_frame s (fun _ _ ↦ rfl) (fun _ _ ↦ rfl) x

theorem Settled.taskTick (hs : Settled s e l) (hmem : s.current ∈ l) :
    Settled s.taskTick e l := by
  obtain ⟨hcurrent, -, -, -, hesp0, -⟩ := taskTick_fields s
  exact hs.congr hcurrent hesp0 hmem (List.Subset.refl l)
    (fun x _ ↦ taskTick_frame s (fun _ _ ↦ rfl) (fun _ _ ↦ rfl) x)
    fun x _ ↦ taskTick_frame s (fun _ _ ↦ rfl) (fun _ _ ↦ rfl) x

theorem taskExit_tasks (s : Tasking) (x : ℕ) :
    s.taskExit.next x = s.next x ∧ (s.taskExit.tasks x).kept = (s.tasks x).kept := by
  have hsame := modify_frame (s := s) (t := s.current) (f := fun k ↦ { k with state := .zombie })
    (g := fun k ↦ (k.next, k.kept)) (fun _ ↦ rfl) x
  simp only [Prod.mk.injEq] at hsame
  exact hsame

theorem Ring.taskExit (hr : Ring A s others l) : Ring A s.taskExit others l :=
  hr.congr rfl rfl rfl rfl (fun x _ ↦ (taskExit_tasks s x).1) fun x _ ↦ (taskExit_tasks s x).2

theorem Settled.taskExit (hs : Settled s e l) : Settled s.taskExit true l := by
  have hself : (s.taskExit.tasks s.current).state = .zombie := by
    rw [Tasking.taskExit, modify_tasks, Function.update_self]
  have hother : ∀ x, x ≠ s.current → s.taskExit.tasks x = s.tasks x :=
    fun x hx ↦ Function.update_of_ne hx _ _
  refine ⟨hself, ?_, ?_⟩
  · intro x hx hne
    rw [hother x hne]
    exact hs.rest x hx hne
  · have hkept := (taskExit_tasks s s.current).2
    intro huser
    have hesp0 := hs.esp0 ((Task.isUser_of_kept hkept).symm.trans huser)
    exact hesp0.trans (Task.top_of_kept hkept).symm

/-- The boot task alone is a ring. -/
theorem taskingInit_spec (hheap : HeapInv A ⟨s.sys.heap, others⟩) (hevents : s.events = [])
    (hinit : s.taskingInit = .done s') :
    ∃ l, Ring A s' others l ∧ Settled s' false l := by
  obtain ⟨boot, h, hcall, hinv⟩ := kmalloc_inv hheap taskSize
  simp only [Tasking.taskingInit, hcall, Outcome.done_bind] at hinit
  by_cases hboot : boot = 0
  · rw [if_pos hboot] at hinit
    cases hinit
  rw [if_neg hboot] at hinit hinv
  cases hinit
  refine ⟨[boot], ⟨⟨rfl, ?_⟩, by simp, ?_, rfl, ?_, ?_, ?_⟩, ⟨?_, ?_, ?_⟩⟩
  · simp [Tasking.next, Tasking.log]
  · simpa [Tasking.log, Tasking.setHeap, Tasking.modify, Task.owned] using hinv
  · simp [Tasking.log, Tasking.setHeap, Tasking.modify, hevents, alive]
  · simp [Tasking.log, Tasking.setHeap, Tasking.modify, hevents, Event.Proper]
  · simp [Tasking.log]
  · simp [Tasking.log]
  · intro x hx hne
    exact absurd (List.mem_singleton.mp hx) hne
  · simp [Tasking.log]

/-! ## Runs -/

/-- A call that neither yields nor has to do with images: the state, the blocks of the rest of
the kernel and whether the current task is exiting, before and after. -/
inductive Plain : Tasking → List ℕ → Bool → Tasking → List ℕ → Bool → Prop where
  | create {s s' : Tasking} {others : List ℕ} {t : ℕ} (name : List UInt8)
      (hcall : s.taskCreate name = .done (t, s')) : Plain s others false s' others false
  | createUser {s s' : Tasking} {others : List ℕ} {t : ℕ} (name : List UInt8)
      (hcall : s.taskCreateUser name = .done (t, s')) : Plain s others false s' others false
  | exit {s : Tasking} {others : List ℕ} : Plain s others false s.taskExit others true
  | malloc {s : Tasking} {h : Kheap} {others : List ℕ} {exiting : Bool} {p : ℕ} (size : ℕ)
      (hcall : kmalloc s.sys.heap size = .done (p, h)) :
      Plain s others exiting (s.setHeap h) (if p = 0 then others else p :: others) exiting
  | free {s : Tasking} {h : Kheap} {others : List ℕ} {exiting : Bool} {p : ℕ}
      (hcall : kfree s.sys.heap p = .done h) :
      Plain s (p :: others) exiting (s.setHeap h) others exiting
  | reorder {s : Tasking} {others others' : List ℕ} {exiting : Bool} (hperm : others'.Perm others) :
      Plain s others exiting s others' exiting
  | paging {s : Tasking} {others : List ℕ} {exiting : Bool} (mm : Mm) :
      Plain s others exiting { s with sys := { s.sys with mm := mm } } others exiting

/-- `held` are blocks that the caller keeps out of the call. -/
theorem Plain.ring {others' : List ℕ} {e' : Bool} (held : List ℕ)
    (hcall : Plain s others e s' others' e')
    (hr : Ring A s (held ++ others) l) (hs : Settled s e l) :
    ∃ l', Ring A s' (held ++ others') l' ∧ Settled s' e' l' := by
  cases hcall with
  | create name hcall =>
      obtain ⟨t', s', l', hcall', hr', hs', -⟩ := taskCreate_spec hr name
      rw [hcall] at hcall'
      cases hcall'
      exact ⟨l', hr', hs' _ hs⟩
  | createUser name hcall =>
      obtain ⟨t', s', l', hcall', hr', hs', -⟩ := taskCreateUser_spec hr name
      rw [hcall] at hcall'
      cases hcall'
      exact ⟨l', hr', hs' _ hs⟩
  | exit => exact ⟨l, hr.taskExit, hs.taskExit⟩
  | malloc size hcall =>
      obtain ⟨p', h', hcall', hr', -⟩ := hr.kmalloc size
      rw [hcall] at hcall'
      cases hcall'
      refine ⟨l, hr'.perm ?_, hs.setHeap⟩
      split_ifs
      · exact List.Perm.refl _
      · exact List.perm_middle
  | free hcall =>
      have hr' := hr.perm List.perm_middle.symm
      obtain ⟨h', hfree, hinv⟩ := (hr'.heap.perm List.perm_middle.symm).free_head
      rw [hcall] at hfree
      cases hfree
      exact ⟨l, hr'.setHeap hinv, hs.setHeap⟩
  | reorder hperm => exact ⟨l, hr.perm (hperm.append_left held), hs⟩
  | paging mm =>
      exact ⟨l, hr.congr rfl rfl rfl rfl (fun _ _ ↦ rfl) fun _ _ ↦ rfl,
        hs.current, hs.rest, hs.esp0⟩

theorem Plain.ring_others {others' : List ℕ} {e' : Bool} (hcall : Plain s others e s' others' e')
    (hring : ∃ l, Ring A s others l ∧ Settled s e l) :
    ∃ l', Ring A s' others' l' ∧ Settled s' e' l' := by
  obtain ⟨l, hr, hs⟩ := hring
  exact hcall.ring [] hr hs

theorem Ring.yield (hr : Ring A s others l) (hs : Settled s e l)
    (hcall : s.taskYield T sp = .done s') : ∃ l', Ring A s' others l' ∧ Settled s' false l' := by
  rcases taskYield_spec T hr hs sp with ⟨s'', l', hcall', hr', hs'⟩ | ⟨hhalt, -⟩
  · rw [hcall] at hcall'
    cases hcall'
    exact ⟨l', hr', hs'⟩
  · rw [hcall] at hhalt
    cases hhalt

/-- `Run A T s others exiting`: a run arrives at `s`, where the rest of the kernel has the blocks
`others`, and `exiting` says that the current task has been marked by `task_exit` and there was
no switch since. -/
inductive Run (A : Arena) (T : Tables) : Tasking → List ℕ → Bool → Prop where
  | init {s s' : Tasking} {others : List ℕ} (hheap : HeapInv A ⟨s.sys.heap, others⟩)
      (hevents : s.events = []) (hcall : s.taskingInit = .done s') : Run A T s' others false
  | create {s s' : Tasking} {others : List ℕ} {t : ℕ} (name : List UInt8)
      (hrun : Run A T s others false) (hcall : s.taskCreate name = .done (t, s')) :
      Run A T s' others false
  | createUser {s s' : Tasking} {others : List ℕ} {t : ℕ} (name : List UInt8)
      (hrun : Run A T s others false) (hcall : s.taskCreateUser name = .done (t, s')) :
      Run A T s' others false
  /-- An image is a block of its own; a task that gets it takes it over. -/
  | createUserImage {s s' : Tasking} {others : List ℕ} {t : ℕ} (name : List UInt8)
      (image : UserImage) (hrun : Run A T s (image.ptr :: others) false)
      (hcall : s.taskCreateUserImage name (some image) = .done (t, s')) :
      Run A T s' (if t = 0 then image.ptr :: others else others) false
  | createNoImage {s s' : Tasking} {others : List ℕ} {t : ℕ} (name : List UInt8)
      (hrun : Run A T s others false) (hcall : s.taskCreateUserImage name none = .done (t, s')) :
      Run A T s' others false
  | exit {s : Tasking} {others : List ℕ} (hrun : Run A T s others false) :
      Run A T s.taskExit others true
  | tick {s : Tasking} {others : List ℕ} {exiting : Bool} (hrun : Run A T s others exiting) :
      Run A T s.taskTick others exiting
  | yield {s s' : Tasking} {others : List ℕ} {exiting : Bool} (sp : ℕ)
      (hrun : Run A T s others exiting) (hcall : s.taskYield T sp = .done s') :
      Run A T s' others false
  | irq {s s' : Tasking} {others : List ℕ} {exiting : Bool} (sp : ℕ)
      (hrun : Run A T s others exiting) (hcall : s.irqReturn T sp = .done s') :
      Run A T s' others (exiting && !s.needResched)
  | malloc {s : Tasking} {h : Kheap} {others : List ℕ} {exiting : Bool} {p : ℕ} (size : ℕ)
      (hrun : Run A T s others exiting) (hcall : kmalloc s.sys.heap size = .done (p, h)) :
      Run A T (s.setHeap h) (if p = 0 then others else p :: others) exiting
  | free {s : Tasking} {h : Kheap} {others : List ℕ} {exiting : Bool} {p : ℕ}
      (hrun : Run A T s (p :: others) exiting) (hcall : kfree s.sys.heap p = .done h) :
      Run A T (s.setHeap h) others exiting
  | reorder {s : Tasking} {others others' : List ℕ} {exiting : Bool}
      (hrun : Run A T s others exiting) (hperm : others'.Perm others) : Run A T s others' exiting
  | paging {s : Tasking} {others : List ℕ} {exiting : Bool} (mm : Mm)
      (hrun : Run A T s others exiting) :
      Run A T { s with sys := { s.sys with mm := mm } } others exiting

/-- Every state of a run is a ring of tasks. -/
theorem Run.ring (hrun : Run A T s others e) : ∃ l, Ring A s others l ∧ Settled s e l := by
  induction hrun with
  | init hheap hevents hcall => exact taskingInit_spec hheap hevents hcall
  | create name _ hcall ih => exact (Plain.create name hcall).ring_others ih
  | createUser name _ hcall ih => exact (Plain.createUser name hcall).ring_others ih
  | createUserImage name image _ hcall ih =>
      obtain ⟨l, hr, hs⟩ := ih
      obtain ⟨t', s', l', hcall', hr', hs'⟩ := taskCreateUserImage_spec hr hs name
      rw [hcall] at hcall'
      cases hcall'
      exact ⟨l', hr', hs'⟩
  | createNoImage name _ hcall ih =>
      cases hcall
      exact ih
  | exit _ ih => exact Plain.exit.ring_others ih
  | tick _ ih =>
      obtain ⟨l, hr, hs⟩ := ih
      exact ⟨l, hr.taskTick, hs.taskTick hr.current_mem⟩
  | yield sp _ hcall ih =>
      obtain ⟨l, hr, hs⟩ := ih
      exact hr.yield hs hcall
  | @irq s s' others exiting sp _ hcall ih =>
      obtain ⟨l, hr, hs⟩ := ih
      rw [Tasking.irqReturn, Tasking.taskShouldResched] at hcall
      cases hneed : s.needResched with
      | false =>
          simp only [hneed, if_pos, Bool.false_eq_true, if_false] at hcall
          cases hcall
          rw [Bool.not_false, Bool.and_true]
          exact ⟨l, hr, hs⟩
      | true =>
          rw [hneed, if_neg Bool.true_eq_false.mp, if_pos rfl] at hcall
          rw [Bool.not_true, Bool.and_false]
          have hr₁ : Ring A { s with needResched := false } others l :=
            hr.congr rfl rfl rfl rfl (fun _ _ ↦ rfl) fun _ _ ↦ rfl
          have hs₁ : Settled { s with needResched := false } exiting l :=
            ⟨hs.current, hs.rest, hs.esp0⟩
          exact hr₁.yield hs₁ hcall
  | malloc size _ hcall ih => exact (Plain.malloc size hcall).ring_others ih
  | free _ hcall ih => exact (Plain.free hcall).ring_others ih
  | reorder _ hperm ih => exact (Plain.reorder hperm).ring_others ih
  | paging mm _ ih => exact (Plain.paging mm).ring_others ih

/-- The tasks reached from `g_current` are one cycle of distinct records, blocks of the heap that
are in use, and they are the tasks that were created and not reaped.  Exactly the current one is
running, or, between the mark of `task_exit` and the switch, the current one is a zombie and none
is running. -/
def OneCycle (A : Arena) (T : Tables) (s : Tasking) (exiting : Bool) : Prop :=
  ∃ l live, Walk s.next s.current l s.current ∧ l ≠ [] ∧ l.Nodup ∧
    HeapInv A ⟨s.sys.heap, live⟩ ∧ l ⊆ live ∧ l.Perm (alive s.events) ∧
    (exiting = false → ∀ t ∈ l, (s.tasks t).state = .running ↔ t = s.current) ∧
    (exiting = true → (s.tasks s.current).state = .zombie ∧
      ∀ t ∈ l, (s.tasks t).state ≠ .running) ∧
    -- a yield returns, unless no task is left that could run
    ∀ sp, (∃ s', s.taskYield T sp = .done s') ∨ ∀ t ∈ l, (s.tasks t).state = .zombie

/-- The creation of a task returns, with a task or with `NULL`. -/
def CreatesReturn (s : Tasking) : Prop :=
  ∀ name, (∃ t s', s.taskCreate name = .done (t, s')) ∧
    (∃ t s', s.taskCreateUser name = .done (t, s')) ∧
    ∀ image, ∃ t s', s.taskCreateUserImage name image = .done (t, s')

theorem Ring.oneCycle (T : Tables) (hr : Ring A s others l) (hs : Settled s e l) :
    OneCycle A T s e := by
  refine ⟨l, _, hr.walk, hr.ne_nil, hr.nodup, hr.heap,
    fun t ht ↦ List.mem_append_left others (mem_flatMap_owned ht), hr.alive, ?_, ?_, ?_⟩
  · rintro rfl t ht
    refine ⟨fun hrunning ↦ ?_, ?_⟩
    · by_contra hne
      exact hs.rest t ht hne hrunning
    · rintro rfl
      exact hs.current
  · rintro rfl
    refine ⟨hs.current, fun t ht ↦ ?_⟩
    by_cases hcurrent : t = s.current
    · rw [hcurrent, hs.current]
      simp
    · exact hs.rest t ht hcurrent
  · intro sp
    rcases taskYield_spec T hr hs sp with ⟨s', l', hcall, -⟩ | ⟨-, hall⟩
    · exact Or.inl ⟨s', hcall⟩
    · exact Or.inr hall

theorem Ring.createsReturn (hr : Ring A s others l) : CreatesReturn s := by
  intro name
  obtain ⟨t₁, s₁, -, hcall₁, -⟩ := taskCreate_spec hr name
  obtain ⟨t₂, s₂, -, hcall₂, -⟩ := taskCreateUser_spec hr name
  refine ⟨⟨t₁, s₁, hcall₁⟩, ⟨t₂, s₂, hcall₂⟩, fun image ↦ ?_⟩
  cases image with
  | none => exact ⟨0, s, rfl⟩
  | some image =>
      simp only [Tasking.taskCreateUserImage, hcall₂, Outcome.done_bind]
      split_ifs
      · exact ⟨0, s₂, rfl⟩
      · exact ⟨t₂, _, rfl⟩

/-- The invariant of the scheduler, in every state of every run. -/
theorem scheduler_invariant (hrun : Run A T s others e) :
    OneCycle A T s e ∧ (∀ ev ∈ s.events, ev.Proper) ∧
      ((s.tasks s.current).isUser = true → s.esp0 = (s.tasks s.current).kernelStackTop) ∧
      CreatesReturn s := by
  obtain ⟨l, hr, hs⟩ := hrun.ring
  exact ⟨hr.oneCycle T hs, hr.proper, hs.esp0, hr.createsReturn⟩

/-- A machine before `tasking_init`, with an empty heap. -/
def fresh : Tasking where
  sys := ⟨twoFrames, kheapInit lowArena fun _ ↦ 0, []⟩
  tasks := fun _ ↦ ⟨0, [], .ready, 0, 0, 0, 0, false, 0, none, 0, 0, 0⟩
  current := 0
  active := false
  needResched := false
  nextId := 0
  esp0 := 0
  events := []
  unloads := []

theorem fresh_inv : HeapInv lowArena ⟨fresh.sys.heap, []⟩ := (Reachable.init fun _ ↦ 0).inv

/-- The boot task makes a user task and exits; the user task runs. -/
theorem scheduler_invariant_user : ∃ s : Tasking, Run lowArena lowTables s [] false ∧
    OneCycle lowArena lowTables s false ∧ (s.tasks s.current).isUser = true ∧
      s.esp0 = (s.tasks s.current).kernelStackTop := by
  have hcalls : (do
      let s ← fresh.taskingInit
      let r ← s.taskCreateUser [0x75]
      r.2.taskExit.taskYield lowTables 0).value?.map
        (fun s : Tasking ↦ (s.tasks s.current).isUser) = some true := by decide +kernel
  obtain ⟨s, hvalue, huser⟩ := Option.map_eq_some_iff.mp hcalls
  obtain ⟨s₁, hinit, hrest⟩ := Outcome.bind_eq_done_iff.mp (Outcome.value?_eq_some.mp hvalue)
  obtain ⟨⟨t, s₂⟩, hcreate, hyield⟩ := Outcome.bind_eq_done_iff.mp hrest
  have hrun : Run lowArena lowTables s [] false :=
    .yield 0 (.exit (.createUser [0x75] (.init fresh_inv rfl hinit) hcreate)) hyield
  obtain ⟨hcycle, -, hesp0, -⟩ := scheduler_invariant hrun
  exact ⟨s, hrun, hcycle, huser, hesp0 huser⟩

end MyOS.Sched
