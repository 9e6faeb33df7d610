import MyOS.Heap.Invariant

/-!
# What a session leaves behind

A session is a sequence of calls that frees only what it allocated itself.  Once it has freed
all of it, in whatever order, the list of blocks is the one it started from: a packed tiling is
determined by its used blocks, and the session has given back exactly those that it took.
-/

namespace MyOS.Heap

open Tiling

variable {A : Arena} {h h₀ h' : Kheap} {s : Usage} {b : Block} {l l₀ : List Block} {prev p : ℕ}

/-! ## The list in memory -/

/-- The blocks from `b` on along `next`. -/
def blockLoop (h : Kheap) : ℕ → ℕ → List Block
  | 0, _ => []
  | fuel + 1, b =>
      if b = 0 then []
      else ⟨b, h.size b, decide (h.used b ≠ 0)⟩ :: blockLoop h fuel (h.next b)

/-- Start, size and state of every block on the list of the heap. -/
def blockList (h : Kheap) : List Block := blockLoop h walkFuel h.head

theorem blockLoop_of_linked {fuel : ℕ} (hl : Linked h.mem prev l 0) (hpos : ∀ b ∈ l, 0 < b.start)
    (hfuel : l.length < fuel) : blockLoop h fuel (headOr 0 l) = l := by
  induction l generalizing prev fuel with
  | nil =>
      obtain ⟨k, rfl⟩ : ∃ k, fuel = k + 1 := ⟨fuel - 1, by simp at hfuel; omega⟩
      rw [headOr, blockLoop, if_pos rfl]
  | cons b l ih =>
      obtain ⟨k, rfl⟩ : ∃ k, fuel = k + 1 := ⟨fuel - 1, by omega⟩
      obtain ⟨hb, hl⟩ := hl
      have hsize : h.size b.start = b.size := hb.size
      have hused : h.used b.start = b.used.toNat := hb.used
      have hnext : h.next b.start = headOr 0 l := hb.next
      have hstate : decide (b.used.toNat ≠ 0) = b.used := by cases b.used <;> rfl
      have hrest : blockLoop h k (headOr 0 l) = l :=
        ih hl (fun c hc ↦ hpos c (List.mem_cons_of_mem b hc)) (by simpa using hfuel)
      rw [headOr, blockLoop, if_neg (hpos b List.mem_cons_self).ne', hsize, hused, hnext, hstate,
        hrest]

/-- The loop reads three words of each header. -/
theorem blockLoop_congr {fuel a : ℕ} (hfields : ∀ b ∈ blockLoop h fuel a,
      h'.size b.start = h.size b.start ∧ h'.used b.start = h.used b.start ∧
        h'.next b.start = h.next b.start) :
    blockLoop h' fuel a = blockLoop h fuel a := by
  induction fuel generalizing a with
  | zero => rfl
  | succ fuel ih =>
      rw [blockLoop] at hfields ⊢
      rw [blockLoop]
      split_ifs at hfields ⊢
      · rfl
      · obtain ⟨⟨hsize, hused, hnext⟩, hrest⟩ := List.forall_mem_cons.mp hfields
        rw [hsize, hused, hnext, ih hrest]

theorem Represents.blockList (hr : Represents A h l) : Heap.blockList h = l := by
  rw [Heap.blockList, hr.head_eq_headOr]
  exact blockLoop_of_linked hr.linked (fun b hb ↦ hr.start_pos hb) hr.length_lt

/-! ## Sessions -/

/-- What can be reached from `h₀` by calls of `kmalloc`, calls of `kfree` for pointers that
these calls returned, and stores that miss the headers; `live` are the pointers still held. -/
inductive Session (h₀ : Kheap) : Usage → Prop where
  | start : Session h₀ ⟨h₀, []⟩
  | malloc {s : Usage} {h' : Kheap} {p size : ℕ} (hs : Session h₀ s) (hsize : size < 2 ^ 32)
      (hcall : kmalloc s.heap size = .done (p, h')) :
      Session h₀ ⟨h', if p = 0 then s.live else p :: s.live⟩
  | free {s : Usage} {h' : Kheap} {p : ℕ} (hs : Session h₀ s) (hp : p ∈ s.live)
      (hcall : kfree s.heap p = .done h') : Session h₀ ⟨h', s.live.erase p⟩
  | store {s : Usage} {a : ℕ} (v : UInt8) (hs : Session h₀ s)
      (ha : ∀ b, OnList s.heap b → a < b ∨ b + hdrSize ≤ a) :
      Session h₀ ⟨{ s.heap with mem := Function.update s.heap.mem a v }, s.live⟩

/-- During a session the blocks in use are those of the start and those of the session. -/
def Borrowed (A : Arena) (l₀ : List Block) (s : Usage) : Prop :=
  ∃ l own, Represents A s.heap l ∧ s.live.Perm (own.map (Block.payload hdrSize)) ∧
    (inUse l).Perm (own ++ inUse l₀)

theorem Borrowed.malloc {size : ℕ} (h : Borrowed A l₀ s)
    (hcall : kmalloc s.heap size = .done (p, h')) :
    Borrowed A l₀ ⟨h', if p = 0 then s.live else p :: s.live⟩ := by
  obtain ⟨l, own, hr, hlive, hused⟩ := h
  by_cases hsize : size = 0
  · rw [kmalloc, if_pos hsize] at hcall
    cases hcall
    exact ⟨l, own, hr, hlive, hused⟩
  · have hfirst := kmalloc_of_represents hr hsize
    cases hfit : firstFit hdrSize kheapAlign (alignUp size kheapAlign) l with
    | none =>
        rw [hfit, hcall] at hfirst
        cases hfirst
        exact ⟨l, own, hr, hlive, hused⟩
    | some r =>
        rw [hfit] at hfirst
        obtain ⟨h'', hcall', hr'⟩ := hfirst
        rw [hcall'] at hcall
        cases hcall
        obtain ⟨b, hb, hnew⟩ := inUse_firstFit hfit
        have hmem : b ∈ r.2 := (List.mem_filter.mp (hnew.mem_iff.mpr List.mem_cons_self)).1
        have hne : r.1 ≠ 0 := by
          have hpos := hr'.start_pos hmem
          rw [← hb, Block.payload]
          omega
        refine ⟨r.2, b :: own, hr', ?_, hnew.trans (hused.cons b)⟩
        rw [if_neg hne, List.map_cons, hb]
        exact hlive.cons _

theorem Borrowed.free (h : Borrowed A l₀ s) (hp : p ∈ s.live) :
    ∃ h', kfree s.heap p = .done h' ∧ Borrowed A l₀ ⟨h', s.live.erase p⟩ := by
  obtain ⟨l, own, hr, hlive, hused⟩ := h
  obtain ⟨b, hb, rfl⟩ := List.mem_map.mp (hlive.mem_iff.mp hp)
  have hbused : b ∈ inUse l := hused.mem_iff.mpr (List.mem_append_left _ hb)
  obtain ⟨hbl, hbstate⟩ := List.mem_filter.mp hbused
  obtain ⟨h', hcall, hr'⟩ := kfree_of_represents hr hbl hbstate
  have hrelease := hr.tiles.inUse_release (by norm_num [hdrSize]) hbused
  have hown : own.Perm (b :: own.erase b) := List.perm_cons_erase hb
  refine ⟨h', hcall, _, own.erase b, hr', ?_, ?_⟩
  · have hptrs := (List.perm_cons_erase hp).symm.trans (hlive.trans (hown.map _))
    exact hptrs.cons_inv
  · have hrest := hrelease.symm.trans (hused.trans (hown.append_right _))
    exact hrest.cons_inv

theorem Session.borrowed (hs : Session h₀ s) (hr : Represents A h₀ l₀) : Borrowed A l₀ s := by
  induction hs with
  | start => exact ⟨l₀, [], hr, List.Perm.refl _, List.Perm.refl _⟩
  | malloc hs hsize hcall ih => exact ih.malloc hcall
  | free hs hp hcall ih =>
      obtain ⟨h'', hcall', hborrowed⟩ := ih.free hp
      rw [hcall] at hcall'
      cases hcall'
      exact hborrowed
  | @store s a v hs ha ih =>
      obtain ⟨l, own, hr', hlive, hused⟩ := ih
      refine ⟨l, own, hr'.congr fun b hb i hlo hhi ↦ ?_, hlive, hused⟩
      have hmiss := ha b.start (hr'.onList_iff.mpr ⟨b, hb, rfl⟩)
      have hne : i ≠ a := by omega
      exact Function.update_of_ne hne v s.heap.mem

/-- When nothing is borrowed any more the list is the old one. -/
theorem Borrowed.blockList_eq (h : Borrowed A l₀ s) (hr₀ : Represents A h₀ l₀)
    (hlive : s.live = []) : Heap.blockList s.heap = Heap.blockList h₀ := by
  obtain ⟨l, own, hr, hptrs, hused⟩ := h
  have hown : own = [] := by
    rw [hlive] at hptrs
    exact List.map_eq_nil_iff.mp hptrs.nil_eq.symm
  rw [hown, List.nil_append] at hused
  have heq := hr.tiles.eq_of_inUse_perm (by norm_num [hdrSize]) hr.packed hr₀.tiles hr₀.packed hused
  rw [hr.blockList, hr₀.blockList, heq]

/-! ## Freeing everything -/

/-- All used blocks of a reachable heap are borrowed from the initial one. -/
theorem HeapInv.borrowed (hs : HeapInv A s) :
    Borrowed A [⟨A.base, storageSize - hdrSize, false⟩] s := by
  obtain ⟨l, hr, hlive⟩ := hs
  refine ⟨l, inUse l, hr, hlive, ?_⟩
  rw [inUse_cons_of_free rfl]
  exact List.Perm.of_eq (List.append_nil _).symm

theorem Borrowed.foldlM_free {ps : List ℕ} (h : Borrowed A l₀ s) (hps : ps.Perm s.live) :
    ∃ h', ps.foldlM kfree s.heap = .done h' ∧ Borrowed A l₀ ⟨h', []⟩ := by
  induction ps generalizing s with
  | nil =>
      obtain ⟨heap, live⟩ := s
      obtain rfl : live = [] := hps.nil_eq.symm
      exact ⟨heap, rfl, h⟩
  | cons p ps ih =>
      have hp : p ∈ s.live := hps.mem_iff.mp List.mem_cons_self
      obtain ⟨h₁, hcall, hborrowed⟩ := h.free hp
      have hrest : ps.Perm (s.live.erase p) :=
        (hps.trans (List.perm_cons_erase hp)).cons_inv
      obtain ⟨h', hloop, hend⟩ := ih hborrowed hrest
      refine ⟨h', ?_, hend⟩
      rw [List.foldlM_cons, hcall, Outcome.done_bind]
      exact hloop

/-- A session that has freed all that it allocated leaves the list of blocks as it was, and
freeing every live block, in any order, leaves the one free block of `kheap_init`. -/
theorem sessions_leave_no_trace (hs : Reachable A s) :
    (∀ h', Session s.heap ⟨h', []⟩ → blockList h' = blockList s.heap) ∧
      ∀ ps : List ℕ, ps.Perm s.live → ∃ h', ps.foldlM kfree s.heap = .done h' ∧
        blockList h' = [⟨A.base, storageSize - hdrSize, false⟩] := by
  refine ⟨fun h' hsession ↦ ?_, fun ps hps ↦ ?_⟩
  · obtain ⟨l, hr, -⟩ := hs.inv
    exact (hsession.borrowed hr).blockList_eq hr rfl
  · obtain ⟨h', hcall, hborrowed⟩ := hs.inv.borrowed.foldlM_free hps
    have hr₀ := represents_kheapInit A s.heap.mem
    refine ⟨h', hcall, ?_⟩
    rw [hborrowed.blockList_eq hr₀ rfl, hr₀.blockList]

/-- A session that uses the hole, and the two blocks around it freed in the order of their
addresses. -/
theorem sessions_leave_no_trace_holed :
    Session holedHeap ⟨afterKfree (afterKmalloc holedHeap 8) 0x20038, []⟩ ∧
      blockList (afterKfree (afterKmalloc holedHeap 8) 0x20038) = blockList holedHeap ∧
      ∃ h', [0x20014, 0x2005C].foldlM kfree holedHeap = .done h' ∧
        blockList h' = [⟨lowArena.base, storageSize - hdrSize, false⟩] := by
  have hsession : Session holedHeap ⟨afterKfree (afterKmalloc holedHeap 8) 0x20038, []⟩ := by
    have hstart : Session holedHeap ⟨holedHeap, []⟩ := .start
    have hmalloc := hstart.malloc (p := 0x20038)
      (show 8 < 2 ^ 32 by norm_num) (kmalloc_eq_after (by decide +kernel))
    exact hmalloc.free (p := 0x20038) (by decide) (kfree_eq_after (by decide +kernel))
  obtain ⟨hrestored, hall⟩ := sessions_leave_no_trace holedHeap_reachable
  exact ⟨hsession, hrestored _ hsession, hall [0x20014, 0x2005C] (by decide)⟩

end MyOS.Heap
