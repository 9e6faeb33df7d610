import MyOS.Sched.Exec

/-!
# Round robin

While no task is created and none exits, a yield takes the zombies right behind the current task
off the ring and makes the next task current.  Seen from the task that is current first, the ring
is passed once: what has been passed has moved to the end, without its zombies.
-/

namespace MyOS.Sched

open Heap Elf

variable {A : Arena} {T : Tables} {s s' s'' : Tasking} {others others' others'' l : List ℕ}
  {done todo cs : List ℕ} {e : Bool} {c t : ℕ}

/-- The tasks of a list that are no zombies. -/
def Tasking.living (s : Tasking) (l : List ℕ) : List ℕ := l.filter fun t ↦ !s.dead t

def Tasking.zombies (s : Tasking) (l : List ℕ) : List ℕ := l.filter s.dead

/-- All tasks that were reaped, the last one first. -/
def Tasking.reaped (s : Tasking) : List ℕ := s.events.filterMap Event.reaped?

/-! ## Between two yields -/

/-- A step that neither creates a task nor ends one nor yields. -/
inductive Quiet : Tasking → List ℕ → Tasking → List ℕ → Prop where
  | tick {s : Tasking} {others : List ℕ} : Quiet s others s.taskTick others
  | shouldResched {s : Tasking} {others : List ℕ} : Quiet s others s.taskShouldResched.2 others
  | malloc {s : Tasking} {h : Kheap} {others : List ℕ} {p : ℕ} (size : ℕ)
      (hcall : kmalloc s.sys.heap size = .done (p, h)) :
      Quiet s others (s.setHeap h) (if p = 0 then others else p :: others)
  | free {s : Tasking} {h : Kheap} {others : List ℕ} {p : ℕ}
      (hcall : kfree s.sys.heap p = .done h) : Quiet s (p :: others) (s.setHeap h) others
  | reorder {s : Tasking} {others others' : List ℕ} (hperm : others'.Perm others) :
      Quiet s others s others'
  | paging {s : Tasking} {others : List ℕ} (mm : Mm) :
      Quiet s others { s with sys := { s.sys with mm := mm } } others

/-- The ring is as it was, and so are the states of the tasks and the log. -/
structure SameRing (A : Arena) (s s' : Tasking) (others' l : List ℕ) : Prop where
  ring : Ring A s' others' l
  settled : Settled s' false l
  current : s'.current = s.current
  dead : s'.dead = s.dead
  events : s'.events = s.events

theorem Quiet.sameRing (h : Quiet s others s' others') (hr : Ring A s others l)
    (hs : Settled s false l) : SameRing A s s' others' l := by
  cases h with
  | tick =>
      obtain ⟨hcurrent, -, -, hevents, -⟩ := taskTick_fields s
      exact ⟨hr.taskTick, hs.taskTick hr.current_mem, hcurrent,
        dead_congr fun x ↦ taskTick_frame s (fun _ _ ↦ rfl) (fun _ _ ↦ rfl) x, hevents⟩
  | shouldResched =>
      rw [Tasking.taskShouldResched]
      split_ifs
      · exact ⟨hr, hs, rfl, rfl, rfl⟩
      · exact ⟨hr.congr rfl rfl rfl rfl (fun _ _ ↦ rfl) fun _ _ ↦ rfl,
          ⟨hs.current, hs.rest, hs.esp0⟩, rfl, rfl, rfl⟩
  | malloc size hcall =>
      obtain ⟨p', h', hcall', hr', -⟩ := hr.kmalloc size
      rw [hcall] at hcall'
      cases hcall'
      exact ⟨hr', hs.setHeap, rfl, rfl, rfl⟩
  | free hcall =>
      obtain ⟨h', hfree, hr'⟩ := hr.free
      rw [Tasking.free, hcall, Outcome.done_bind, Outcome.done.injEq] at hfree
      exact ⟨hfree ▸ hr', hs.setHeap, rfl, rfl, rfl⟩
  | reorder hperm => exact ⟨hr.perm hperm, hs, rfl, rfl, rfl⟩
  | paging mm =>
      exact ⟨hr.congr rfl rfl rfl rfl (fun _ _ ↦ rfl) fun _ _ ↦ rfl,
        ⟨hs.current, hs.rest, hs.esp0⟩, rfl, rfl, rfl⟩

/-- `Rounds T s others cs s' others'`: from `s` to `s'` there are `cs.length` yields, and after
each of them the task in `cs` is current.  No task is created and none exits. -/
inductive Rounds (T : Tables) : Tasking → List ℕ → List ℕ → Tasking → List ℕ → Prop where
  | start (s : Tasking) (others : List ℕ) : Rounds T s others [] s others
  | quiet {s s' s'' : Tasking} {others cs others' others'' : List ℕ}
      (hrounds : Rounds T s others cs s' others') (hstep : Quiet s' others' s'' others'') :
      Rounds T s others cs s'' others''
  | yield {s s' s'' : Tasking} {others cs others' : List ℕ}
      (hrounds : Rounds T s others cs s' others') (hyield : Yields T s' s'') :
      Rounds T s others (cs ++ [s''.current]) s'' others'

/-! ## On the way round -/

/-- The ring was `done ++ todo`, and `done` has been passed. -/
structure Midway (A : Arena) (s : Tasking) (done todo cs : List ℕ) (s' : Tasking)
    (others' : List ℕ) : Prop where
  head : ∀ c ∈ todo.head?, s.dead c = false
  ring : Ring A s' others' (todo ++ s.living done)
  settled : Settled s' false (todo ++ s.living done)
  dead : s'.dead = s.dead
  visited : s.current :: cs = s.living done ++ [s'.current]
  reaped : s'.reaped = (s.zombies done).reverse ++ s.reaped

theorem mem_living : t ∈ s.living l ↔ t ∈ l ∧ s.dead t = false := by
  simp [Tasking.living]

theorem Midway.length_eq (h : Midway A s done todo cs s' others') :
    cs.length = (s.living done).length := by
  have hlength := congrArg List.length h.visited
  simpa using hlength

theorem Midway.quiet (h : Midway A s done todo cs s' others')
    (hstep : Quiet s' others' s'' others'') : Midway A s done todo cs s'' others'' := by
  obtain ⟨hring, hsettled, hcurrent, hdead, hevents⟩ := hstep.sameRing h.ring h.settled
  refine ⟨h.head, hring, hsettled, hdead.trans h.dead, ?_, ?_⟩
  · rw [hcurrent]
    exact h.visited
  · rw [Tasking.reaped, hevents]
    exact h.reaped

/-- Zombies in front of a list without zombies at its end are in front of that end. -/
theorem split_zombies {zs rest : List ℕ} (hsplit : todo ++ s.living done = zs ++ rest)
    (hzs : ∀ z ∈ zs, s.dead z = true) :
    ∃ todo', todo = zs ++ todo' ∧ rest = todo' ++ s.living done := by
  rcases List.append_eq_append_iff.mp hsplit with ⟨mid, hmid, hdone⟩ | ⟨mid, hmid, hrest⟩
  · have hnil : mid = [] := by
      cases mid with
      | nil => rfl
      | cons z mid =>
          have hdead : s.dead z = true := hzs z (by simp [hmid])
          have hlive : z ∈ s.living done := by simp [hdone]
          rw [(mem_living.mp hlive).2] at hdead
          cases hdead
    subst hnil
    exact ⟨[], by simpa using hmid.symm, by simpa using hdone.symm⟩
  · exact ⟨mid, hmid, hrest⟩

theorem Midway.yield (h : Midway A s done (c :: todo) cs s' others') (hyield : Yields T s' s'') :
    ∃ zs todo', todo = zs ++ todo' ∧
      Midway A s (done ++ c :: zs) todo' (cs ++ [s''.current]) s'' others' := by
  have hring := h.ring
  have hsettled := h.settled
  obtain ⟨rest, hrest⟩ := hring.exists_cons
  rw [List.cons_append, List.cons.injEq] at hrest
  obtain ⟨rfl, rfl⟩ := hrest
  obtain ⟨zs, rest', hsplit, hy, hsettled'⟩ := hyield.spec hring hsettled
  have hzs : ∀ z ∈ zs, s.dead z = true := by
    intro z hz
    rw [← h.dead]
    exact dead_eq_true.mpr (hy.zombies z hz)
  obtain ⟨todo', rfl, rfl⟩ := split_zombies hsplit hzs
  have hcurrent : s.dead s'.current = false := h.head _ rfl
  have hliving : s.living (done ++ s'.current :: zs) = s.living done ++ [s'.current] := by
    have hnone : zs.filter (fun t ↦ !s.dead t) = [] := by
      simpa using hzs
    simp [Tasking.living, hcurrent, hnone]
  have hzombies : s.zombies (done ++ s'.current :: zs) = s.zombies done ++ zs := by
    have hall : zs.filter s.dead = zs := List.filter_eq_self.mpr hzs
    simp [Tasking.zombies, hcurrent, hall]
  have hdead : s''.dead = s'.dead := by
    funext x
    simp only [Tasking.dead, hy.zombie_iff x]
  refine ⟨zs, todo', rfl, ?_, ?_, ?_, hdead.trans h.dead, ?_, ?_⟩
  · intro x hx
    rw [← h.dead]
    refine dead_eq_false.mpr (hy.head x ?_)
    cases todo' with
    | nil => cases hx
    | cons y todo' => exact hx
  · rw [hliving, ← List.append_assoc]
    exact hy.ring
  · rw [hliving, ← List.append_assoc]
    exact hsettled'
  · rw [hliving, ← List.cons_append, h.visited]
  · obtain ⟨new, hevents, hnew⟩ := hy.events
    rw [Tasking.reaped, hevents, List.filterMap_append, hnew, hzombies, List.reverse_append,
      List.append_assoc, ← h.reaped]
    rfl

theorem Rounds.midway (hrounds : Rounds T s others cs s' others') (hr : Ring A s others l)
    (hs : Settled s false l) (hlength : cs.length ≤ (s.living l).length) :
    ∃ done todo, l = done ++ todo ∧ Midway A s done todo cs s' others' := by
  induction hrounds with
  | start others =>
      refine ⟨[], l, rfl, ?_, by simpa [Tasking.living] using hr,
        by simpa [Tasking.living] using hs, rfl, rfl, rfl⟩
      obtain ⟨rest, rfl⟩ := hr.exists_cons
      rintro c ⟨⟩
      rw [dead_eq_false, hs.current]
      simp
  | quiet _ hstep ih =>
      obtain ⟨done, todo, hl, hmid⟩ := ih hr hlength
      exact ⟨done, todo, hl, hmid.quiet hstep⟩
  | @yield s' s'' others cs others' _ hyield ih =>
      rw [List.length_append, List.length_singleton] at hlength
      obtain ⟨done, todo, rfl, hmid⟩ := ih hr (by omega)
      have hpassed := hmid.length_eq
      cases todo with
      | nil =>
          rw [List.append_nil] at hlength
          omega
      | cons c todo =>
          obtain ⟨zs, todo', rfl, hmid'⟩ := hmid.yield hyield
          exact ⟨done ++ c :: zs, todo', by simp, hmid'⟩

/-- A round is over when there were as many yields as there are tasks that can run. -/
theorem Midway.all_done (h : Midway A s done todo cs s' others')
    (hlength : cs.length = (s.living (done ++ todo)).length) : todo = [] := by
  have hpassed := h.length_eq
  have hhead := h.head
  cases todo with
  | nil => rfl
  | cons c todo =>
      have hc : s.dead c = false := hhead c rfl
      rw [Tasking.living, List.filter_append, List.length_append,
        List.filter_cons_of_pos (by simp [hc]), List.length_cons] at hlength
      rw [Tasking.living] at hpassed
      omega

theorem Rounds.ring (hrounds : Rounds T s others cs s' others') (hr : Ring A s others l)
    (hs : Settled s false l) : ∃ l', Ring A s' others' l' ∧ Settled s' false l' := by
  induction hrounds with
  | start others => exact ⟨l, hr, hs⟩
  | quiet _ hstep ih =>
      obtain ⟨l', hr', hs'⟩ := ih hr
      have hsame := hstep.sameRing hr' hs'
      exact ⟨l', hsame.ring, hsame.settled⟩
  | yield _ hyield ih =>
      obtain ⟨l', hr', hs'⟩ := ih hr
      obtain ⟨rest, rfl⟩ := hr'.exists_cons
      obtain ⟨zs, rest', -, hy, hs''⟩ := hyield.spec hr' hs'
      exact ⟨_, hy.ring, hs''⟩

/-! ## The round -/

/-- With `l` on the ring, of which `s.current :: rest` can run, yields return, and as many as
there are tasks that can run make each of them current once, in the order of the ring.  Then the
zombies of `l` have been reaped, in the order of the ring, and the heap has the blocks of the
tasks that are left. -/
def FairRound (A : Arena) (T : Tables) (s : Tasking) (others : List ℕ) : Prop :=
  ∃ l rest, Walk s.next s.current l s.current ∧ l.Nodup ∧ s.living l = s.current :: rest ∧
    (∀ cs s' others', Rounds T s others cs s' others' →
      ∀ sp, ∃ s'', s'.taskYield T sp = .done s'') ∧
    ∀ cs s' others', Rounds T s others cs s' others' → cs.length = (s.living l).length →
      cs = rest ++ [s.current] ∧ s'.current = s.current ∧
      Walk s'.next s.current (s.current :: rest) s.current ∧
      s'.reaped = (s.zombies l).reverse ++ s.reaped ∧
      HeapInv A ⟨s'.sys.heap,
        (s.current :: rest).flatMap (fun t ↦ (s'.tasks t).owned t) ++ others'⟩

/-- The scheduler is fair from every state of every run in which the current task is no zombie. -/
theorem round_robin (hrun : Run A T s others e) (halive : (s.tasks s.current).state ≠ .zombie) :
    FairRound A T s others := by
  obtain ⟨l, hr, hs⟩ := hrun.ring
  have he : e = false := by
    cases e with
    | false => rfl
    | true => exact absurd hs.current halive
  subst he
  obtain ⟨tail, htail⟩ := hr.exists_cons
  have hliving : s.living l = s.current :: s.living tail := by
    rw [htail, Tasking.living, List.filter_cons_of_pos (by simpa using halive)]
    rfl
  refine ⟨l, s.living tail, hr.walk, hr.nodup, hliving, ?_, ?_⟩
  · intro cs s' others' hrounds sp
    obtain ⟨l', hr', hs'⟩ := hrounds.ring hr hs
    rcases taskYield_spec T hr' hs' sp with ⟨s'', -, hcall, -⟩ | ⟨-, hall⟩
    · exact ⟨s'', hcall⟩
    · have hzombie := hall _ hr'.current_mem
      rw [hs'.current] at hzombie
      cases hzombie
  · intro cs s' others' hrounds hlength
    obtain ⟨done, todo, rfl, hmid⟩ := hrounds.midway hr hs hlength.le
    obtain rfl := hmid.all_done hlength
    have hring := hmid.ring
    have hvisited := hmid.visited
    have hreaped := hmid.reaped
    rw [List.append_nil] at hliving ⊢
    rw [List.nil_append, hliving] at hring
    rw [hliving, List.cons_append, List.cons.injEq] at hvisited
    -- the ring starts with the current task, so that it is the first one again
    obtain ⟨rest, hrest⟩ := hring.exists_cons
    obtain ⟨hcurrent, -⟩ := List.cons.inj hrest
    rw [← hcurrent] at hvisited
    have hwalk := hring.walk
    rw [← hcurrent] at hwalk
    exact ⟨hvisited.2, hcurrent.symm, hwalk, hreaped, hring.heap⟩

/-- The boot task makes two user tasks and exits; one of them runs, and the boot task is on the
ring as a zombie. -/
theorem round_robin_two_users : ∃ s : Tasking, Run lowArena lowTables s [] false ∧
    (s.tasks s.current).state ≠ .zombie ∧ (s.tasks (s.next (s.next s.current))).state = .zombie ∧
      FairRound lowArena lowTables s [] := by
  have hcalls : (do
      let s ← fresh.taskingInit
      let r ← s.taskCreateUser [0x75]
      let r ← r.2.taskCreateUser [0x76]
      r.2.taskExit.taskYield lowTables 0).value?.map
        (fun s : Tasking ↦ (s.dead s.current, s.dead (s.next (s.next s.current)))) =
      some (false, true) := by decide +kernel
  obtain ⟨s, hvalue, hstates⟩ := Option.map_eq_some_iff.mp hcalls
  obtain ⟨s₁, hinit, hrest⟩ := Outcome.bind_eq_done_iff.mp (Outcome.value?_eq_some.mp hvalue)
  obtain ⟨⟨t₁, s₂⟩, hfirst, hrest⟩ := Outcome.bind_eq_done_iff.mp hrest
  obtain ⟨⟨t₂, s₃⟩, hsecond, hyield⟩ := Outcome.bind_eq_done_iff.mp hrest
  have hrun : Run lowArena lowTables s [] false :=
    .yield 0 (.exit (.createUser [0x76] (.createUser [0x75] (.init fresh_inv rfl hinit) hfirst)
      hsecond)) hyield
  rw [Prod.mk.injEq, dead_eq_false, dead_eq_true] at hstates
  exact ⟨s, hrun, hstates.1, hstates.2, round_robin hrun hstates.1⟩

end MyOS.Sched
