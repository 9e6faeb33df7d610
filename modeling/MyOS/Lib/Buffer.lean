import MyOS.Lib.Outcome

/-!
# Local arrays

A local array of C is a vector, indexed by an `int`.  A load or a store outside the array stops
the run, so a run that returns has made none.  A pointer into the array is the list of what
stands from there to the array's end.
-/

namespace Buffer

variable {α : Type} {size i : ℕ} {buf : Vector α size} {c : α} {rest : List α}

/-- The pointer `buf + i`. -/
def pointer (buf : Vector α size) (i : ℤ) : List α :=
  if 0 ≤ i then buf.toList.drop i.toNat else []

def load (buf : Vector α size) (i : ℤ) : Outcome α :=
  match pointer buf i with
  | [] => .halt "load outside an array"
  | c :: _ => .done c

def store (buf : Vector α size) (i : ℤ) (c : α) : Outcome (Vector α size) :=
  if 0 ≤ i ∧ i < size then .done (buf.setIfInBounds i.toNat c) else .halt "store outside an array"

theorem pointer_natCast (buf : Vector α size) (i : ℕ) : pointer buf i = buf.toList.drop i :=
  if_pos (Int.natCast_nonneg i)

theorem pointer_succ (h : pointer buf i = c :: rest) : pointer buf (i + 1 : ℕ) = rest := by
  rw [pointer_natCast] at h
  rw [pointer_natCast, ← List.drop_drop, h]
  rfl

theorem load_eq {i : ℤ} (h : pointer buf i = c :: rest) : load buf i = .done c := by
  rw [load, h]

/-- A store puts a value before what stands behind it. -/
theorem store_eq (buf : Vector α size) (c : α) (hi : i < size) :
    ∃ buf', store buf i c = .done buf' ∧ pointer buf' i = c :: pointer buf (i + 1 : ℕ) := by
  have hlen : i < buf.toList.length := by rwa [Vector.length_toList]
  refine ⟨buf.setIfInBounds i c, if_pos ⟨Int.natCast_nonneg i, Int.ofNat_lt.mpr hi⟩, ?_⟩
  rw [pointer_natCast, pointer_natCast, Vector.toList_setIfInBounds, List.drop_set,
    if_neg (lt_irrefl i), Nat.sub_self, List.drop_eq_getElem_cons hlen]
  rfl

end Buffer
