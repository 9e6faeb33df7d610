import MyOS.Sched.Runs

/-!
# What the calls of the scheduler change

Reaping changes successors, the heap and the page tables, and the log tells which tasks were
reaped.  A yield then changes nothing more, or it switches.  A creation that fails has given its
blocks back, and one that succeeds has filled in a record that was not on the ring.
-/

namespace MyOS.Sched

open Heap Elf

variable {A : Arena} {T : Tables} {s s' s'' : Tasking} {others l : List ℕ} {e : Bool}
  {c d p r t sp : ℕ}

/-- `s'` is `s` after tasks were reaped: records have only got other successors. -/
structure Relinked (s s' : Tasking) : Prop where
  tasks : ∀ x, ∃ n, s'.tasks x = { s.tasks x with next := n }
  current : s'.current = s.current
  needResched : s'.needResched = s.needResched
  events : ∃ new, s'.events = new ++ s.events ∧ ∀ ev ∈ new, ∃ t c, ev = .reap t c

namespace Relinked

theorem refl (s : Tasking) : Relinked s s :=
  ⟨fun x ↦ ⟨(s.tasks x).next, rfl⟩, rfl, rfl, [], rfl, nofun⟩

theorem trans (h : Relinked s s') (h' : Relinked s' s'') : Relinked s s'' := by
  refine ⟨fun x ↦ ?_, h'.current.trans h.current, h'.needResched.trans h.needResched, ?_⟩
  · obtain ⟨n, hn⟩ := h.tasks x
    obtain ⟨n', hn'⟩ := h'.tasks x
    exact ⟨n', by rw [hn', hn]⟩
  · obtain ⟨new, hnew, hreaps⟩ := h.events
    obtain ⟨new', hnew', hreaps'⟩ := h'.events
    refine ⟨new' ++ new, by rw [hnew', hnew, List.append_assoc], fun ev hev ↦ ?_⟩
    rcases List.mem_append.mp hev with hev | hev
    · exact hreaps' ev hev
    · exact hreaps ev hev

/-- What does not depend on the successor of a record is kept. -/
theorem frame {β : Type} {g : Task → β} (h : Relinked s s')
    (hg : ∀ k n, g { k with next := n } = g k) (x : ℕ) : g (s'.tasks x) = g (s.tasks x) := by
  obtain ⟨n, hn⟩ := h.tasks x
  rw [hn, hg]

end Relinked

theorem relinked_sys (s : Tasking) (sys : Sys) : Relinked s { s with sys := sys } :=
  ⟨fun x ↦ ⟨(s.tasks x).next, rfl⟩, rfl, rfl, [], rfl, nofun⟩

theorem relinked_unload {image : UserImage} (hcall : s.unload T image = .done s') :
    Relinked s s' := by
  obtain ⟨sys, -, hdone⟩ := Outcome.bind_eq_done_iff.mp hcall
  cases hdone
  exact ⟨fun x ↦ ⟨(s.tasks x).next, rfl⟩, rfl, rfl, [], rfl, nofun⟩

theorem relinked_free (hcall : s.free p = .done s') : Relinked s s' := by
  obtain ⟨h, -, hdone⟩ := Outcome.bind_eq_done_iff.mp hcall
  cases hdone
  exact relinked_sys s _

theorem relinked_freeIf (hcall : s.freeIf p = .done s') : Relinked s s' := by
  rw [Tasking.freeIf] at hcall
  split_ifs at hcall
  · exact relinked_free hcall
  · cases hcall
    exact .refl s

theorem relinked_unloadImage (hcall : s.unloadImage t T = .done s') : Relinked s s' := by
  rw [Tasking.unloadImage] at hcall
  cases himage : (s.tasks t).image with
  | none =>
      rw [himage] at hcall
      cases hcall
      exact .refl s
  | some image =>
      rw [himage] at hcall
      exact relinked_unload hcall

theorem relinked_setNext (s : Tasking) (t n : ℕ) : Relinked s (s.setNext t n) := by
  refine ⟨fun x ↦ ?_, rfl, rfl, [], rfl, nofun⟩
  by_cases hx : x = t
  · exact ⟨n, by rw [hx]; exact Function.update_self _ _ _⟩
  · exact ⟨(s.tasks x).next, Function.update_of_ne hx _ _⟩

theorem relinked_reap (hcall : s.reap d T = .done s') : Relinked s s' := by
  have hlog : Relinked s (s.log (.reap d s.current)) :=
    ⟨fun x ↦ ⟨(s.tasks x).next, rfl⟩, rfl, rfl, [.reap d s.current], rfl,
      fun ev hev ↦ ⟨d, s.current, List.mem_singleton.mp hev⟩⟩
  obtain ⟨s₁, hremove, hcall⟩ := Outcome.bind_eq_done_iff.mp hcall
  obtain ⟨q, -, hset⟩ := Outcome.bind_eq_done_iff.mp hremove
  cases hset
  obtain ⟨s₂, hunload, hcall⟩ := Outcome.bind_eq_done_iff.mp hcall
  obtain ⟨s₃, hstack, hcall⟩ := Outcome.bind_eq_done_iff.mp hcall
  obtain ⟨s₄, hustack, hfree⟩ := Outcome.bind_eq_done_iff.mp hcall
  exact ((((hlog.trans (relinked_setNext _ _ _)).trans (relinked_unloadImage hunload)).trans
    (relinked_freeIf hstack)).trans (relinked_freeIf hustack)).trans (relinked_free hfree)

theorem relinked_pickNextLoop {fuel : ℕ}
    (hcall : Tasking.pickNextLoop T c fuel d s = .done (r, s')) : Relinked s s' := by
  induction fuel generalizing d s with
  | zero => cases hcall
  | succ fuel ih =>
      rw [Tasking.pickNextLoop] at hcall
      split_ifs at hcall
      · cases hcall
        exact .refl _
      · obtain ⟨s₁, hreap, hrest⟩ := Outcome.bind_eq_done_iff.mp hcall
        exact (relinked_reap hreap).trans (ih hrest)
      · cases hcall
        exact .refl _
      · exact ih hcall

/-- A yield stays with the current task, which is no zombie, or it switches to another one. -/
theorem taskYield_cases (hactive : s.active = true) (hcall : s.taskYield T sp = .done s') :
    ∃ r s₁, s.pickNext T s.current = .done (r, s₁) ∧ Relinked s s₁ ∧
      ((r = s.current ∧ s' = s₁) ∨ (r ≠ s.current ∧ s' = s₁.switchTo s.current r sp)) := by
  rw [Tasking.taskYield, if_neg (by simp [hactive])] at hcall
  obtain ⟨⟨r, s₁⟩, hpick, hcall⟩ := Outcome.bind_eq_done_iff.mp hcall
  refine ⟨r, s₁, hpick, relinked_pickNextLoop hpick, ?_⟩
  simp only at hcall
  split_ifs at hcall with hr hzombie
  · cases hcall
    exact Or.inl ⟨hr, rfl⟩
  · cases hcall
    exact Or.inr ⟨hr, rfl⟩

/-! ## Creation -/

section Creation

variable {name : List UInt8}

theorem taskCreate_cases (hr : Ring A s others l) (hcall : s.taskCreate name = .done (t, s')) :
    s.Created l (fun f ↦ ∃ stack, stack ≠ 0 ∧
      f = Tasking.kernelRecord s.nextId name stack) t s' := by
  obtain ⟨t', s'', l', hcall', -, -, hcreated⟩ := taskCreate_spec hr name
  rw [hcall] at hcall'
  cases hcall'
  exact hcreated

theorem taskCreateUser_cases (hr : Ring A s others l)
    (hcall : s.taskCreateUser name = .done (t, s')) :
    s.Created l (fun f ↦ ∃ kstack ustack, kstack ≠ 0 ∧ ustack ≠ 0 ∧
      f = Tasking.userRecord s.nextId name kstack ustack) t s' := by
  obtain ⟨t', s'', l', hcall', -, -, -, hcreated⟩ := taskCreateUser_spec hr name
  rw [hcall] at hcall'
  cases hcall'
  exact hcreated

end Creation

end MyOS.Sched
