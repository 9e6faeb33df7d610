import Mathlib.Tactic

/-!
# Walks along a successor function

`Walk next a l z` says that following `next` from `a` passes the nodes of `l` in order and
arrives at `z`, which is not in the list.  Linked lists in memory, chains in an allocation
table and rings are walks; what they have in common is proved here.
-/

universe u

variable {α : Type u}

def Walk (next : α → α) : α → List α → α → Prop
  | a, [], z => a = z
  | a, x :: l, z => x = a ∧ Walk next (next a) l z

namespace Walk

variable {next next' : α → α} {a x y z z' : α} {l l' m : List α}

@[simp] theorem nil_iff : Walk next a [] z ↔ a = z := Iff.rfl

@[simp] theorem cons_iff : Walk next a (x :: l) z ↔ x = a ∧ Walk next (next a) l z := Iff.rfl

theorem append_iff :
    Walk next a (l ++ m) z ↔ ∃ y, Walk next a l y ∧ Walk next y m z := by
  induction l generalizing a with
  | nil => simp
  | cons x l ih => simp [ih, and_assoc]

/-- A walk only depends on the successors of the nodes it passes. -/
theorem congr (h : Walk next a l z) (hnext : ∀ x ∈ l, next' x = next x) : Walk next' a l z := by
  induction l generalizing a with
  | nil => exact h
  | cons x l ih =>
      obtain ⟨rfl, hrest⟩ := h
      refine ⟨rfl, ?_⟩
      rw [hnext x List.mem_cons_self]
      exact ih hrest fun y hy ↦ hnext y (List.mem_cons_of_mem x hy)

/-- A walk that stops at the first node with `stop` is determined by its start. -/
theorem unique {stop : α → Prop} (h : Walk next a l z) (hl : ∀ x ∈ l, ¬stop x) (hz : stop z)
    (h' : Walk next a l' z') (hl' : ∀ x ∈ l', ¬stop x) (hz' : stop z') : l = l' := by
  induction l generalizing a l' with
  | nil =>
      cases l' with
      | nil => rfl
      | cons x l' =>
          obtain rfl : a = z := h
          obtain ⟨rfl, -⟩ := h'
          exact absurd hz (hl' x List.mem_cons_self)
  | cons x l ih =>
      obtain ⟨rfl, hrest⟩ := h
      cases l' with
      | nil =>
          obtain rfl : x = z' := h'
          exact absurd hz' (hl x List.mem_cons_self)
      | cons y l' =>
          obtain ⟨rfl, hrest'⟩ := h'
          rw [ih hrest (fun w hw ↦ hl w (List.mem_cons_of_mem y hw)) hrest'
            fun w hw ↦ hl' w (List.mem_cons_of_mem y hw)]

/-- The successor of a node on the walk is on the walk or is its end. -/
theorem next_mem_or_eq (h : Walk next a l z) (hx : x ∈ l) : next x ∈ l ∨ next x = z := by
  induction l generalizing a with
  | nil => simp at hx
  | cons y l ih =>
      obtain ⟨rfl, hrest⟩ := h
      rcases List.mem_cons.mp hx with rfl | hx
      · cases l with
        | nil => exact Or.inr hrest
        | cons w l =>
            obtain ⟨rfl, -⟩ := hrest
            simp
      · rcases ih hrest hx with hmem | hend
        · exact Or.inl (List.mem_cons_of_mem y hmem)
        · exact Or.inr hend

theorem start_mem (h : Walk next a l z) (hl : l ≠ []) : a ∈ l := by
  cases l with
  | nil => exact absurd rfl hl
  | cons x l =>
      obtain ⟨rfl, -⟩ := h
      exact List.mem_cons_self

theorem start_eq (h : Walk next a l z) : a = l.headD z := by
  cases l with
  | nil => exact h
  | cons x l => exact h.1.symm

/-- The successor of a node inside a walk. -/
theorem next_eq (h : Walk next a (l ++ x :: m) z) : next x = m.headD z := by
  obtain ⟨y, -, rfl, hrest⟩ := append_iff.mp h
  exact hrest.start_eq

/-- The nodes of a cycle are determined by where it starts. -/
theorem cycle_unique (h : Walk next a l a) (hne : l ≠ []) (hl : l.Nodup) (h' : Walk next a l' a)
    (hne' : l' ≠ []) (hl' : l'.Nodup) : l = l' := by
  cases l with
  | nil => exact absurd rfl hne
  | cons x l =>
      cases l' with
      | nil => exact absurd rfl hne'
      | cons y l' =>
          obtain ⟨rfl, hrest⟩ := h
          obtain ⟨rfl, hrest'⟩ := h'
          have hl₁ : ∀ w ∈ l, ¬w = y := fun w hw ↦
            ne_of_mem_of_not_mem hw (List.nodup_cons.mp hl).1
          have hl₂ : ∀ w ∈ l', ¬w = y := fun w hw ↦
            ne_of_mem_of_not_mem hw (List.nodup_cons.mp hl').1
          rw [hrest.unique hl₁ rfl hrest' hl₂ rfl]

end Walk
