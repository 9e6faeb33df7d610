import MyOS.Elf.Images

/-!
# Frames below 4 MB

The kernel clears page tables and segment pages through their physical addresses, which are
mapped only below 4 MB.  `pmm_alloc` hands out the lowest free page, so what it returns is
below 4 MB as long as free pages are left there, or no other page is free.
-/

namespace MyOS.Elf

open Mm

variable {T : Tables} {m m' : Mm} {pmm : Pmm} {s s' : Sys} {F : File} {ph : Phdr} {v p k n i : ℕ}
  {img : UserImage}

/-- The free pages below 4 MB. -/
def lowPages (pmm : Pmm) : Finset ℕ := pmm.freePages.filter (· < 1024)

/-- There are `k` free pages below 4 MB, or no free pages elsewhere. -/
def Budget (pmm : Pmm) (k : ℕ) : Prop :=
  k ≤ (lowPages pmm).card ∨ ∀ p ∈ pmm.freePages, p < 1024

theorem Budget.mono (h : Budget pmm n) (hk : k ≤ n) : Budget pmm k :=
  h.imp_left hk.trans

/-- One page taken from the budget is below 4 MB. -/
theorem Budget.alloc (h : Budget pmm (k + 1)) :
    pmm.pmmAlloc.1 < 0x400000 ∧ Budget pmm.pmmAlloc.2 k := by
  rcases pmm.pmmAlloc_spec with ⟨hempty, hnone⟩ | ⟨p, hp, hlowest, hsome⟩
  · rw [hnone]
    refine ⟨by norm_num, Or.inr fun q hq ↦ ?_⟩
    rw [hempty] at hq
    exact absurd hq (Finset.notMem_empty q)
  · have hlow : p < 1024 := by
      rcases h with hcard | hall
      · obtain ⟨q, hq⟩ := Finset.card_pos.mp (show 0 < (lowPages pmm).card by omega)
        obtain ⟨hfree, hlt⟩ := Finset.mem_filter.mp hq
        exact (hlowest q hfree).trans_lt hlt
      · exact hall p hp
    rw [hsome, pageSize]
    refine ⟨by omega, ?_⟩
    rcases h with hcard | hall
    · left
      have herase : lowPages (pmm.take p) = (lowPages pmm).erase p := by
        rw [lowPages, Pmm.freePages_take, Finset.filter_erase]
        rfl
      have hmem : p ∈ lowPages pmm := Finset.mem_filter.mpr ⟨hp, hlow⟩
      rw [herase, Finset.card_erase_of_mem hmem]
      omega
    · right
      intro q hq
      rw [Pmm.freePages_take] at hq
      exact hall q (Finset.mem_of_mem_erase hq)

/-- A page below 4 MB that is given back keeps the budget. -/
theorem Budget.free (h : Budget pmm k) {addr : ℕ} (haddr : addr < 0x400000) :
    Budget (pmm.pmmFree addr) k := by
  have hpages := pmm.freePages_pmmFree (show addr < 2 ^ 32 by omega)
  rcases h with hcard | hall
  · left
    refine hcard.trans (Finset.card_le_card ?_)
    rw [lowPages, lowPages, hpages]
    exact Finset.filter_subset_filter _ (Finset.subset_insert _ _)
  · right
    intro q hq
    rw [hpages] at hq
    rcases Finset.mem_insert.mp hq with rfl | hq
    · rw [pageSize]
      omega
    · exact hall q hq

/-- All cleared frames are below 4 MB. -/
def ClearedLow (m : Mm) : Prop := ∀ a ∈ m.cleared, a < 0x400000

/-- And there is a budget for more. -/
structure Funded (m : Mm) (k : ℕ) : Prop where
  cleared : ClearedLow m
  budget : Budget m.pmm k

theorem Funded.vmmMap (h : Funded m (k + 1)) (virt phys flags : ℕ) :
    Funded (m.vmmMap T virt phys flags).2 k := by
  obtain ⟨hlow, hbudget⟩ := h.budget.alloc
  have hsame : Funded m k := ⟨h.cleared, h.budget.mono (Nat.le_succ k)⟩
  have hget : Funded (m.getPt T virt true).2 k := by
    simp only [getPt]
    split_ifs
    · exact hsame
    · exact hsame
    · exact ⟨h.cleared, hbudget⟩
    · exact ⟨List.forall_mem_cons.mpr ⟨hlow, h.cleared⟩, hbudget⟩
  simp only [Mm.vmmMap]
  split_ifs
  · exact hsame
  · exact hget
  · exact ⟨hget.cleared, hget.budget⟩

/-- A page takes two frames at most, one for itself and one for a table. -/
theorem Funded.loadPage (h : Funded s.mm (k + 2)) (F : File) (ph : Phdr) (v : ℕ) :
    Funded (loadPage T F ph v s).2.mm k := by
  obtain ⟨hlow, hbudget⟩ := h.budget.alloc
  have hmap := Funded.vmmMap (T := T) (m := { s.mm with pmm := s.mm.pmm.pmmAlloc.2 })
    ⟨h.cleared, hbudget⟩ v s.mm.pmm.pmmAlloc.1 (pageRw ||| pageUser)
  rw [Elf.loadPage]
  simp only
  split_ifs
  · exact ⟨h.cleared, hbudget.mono (Nat.le_succ k)⟩
  · exact ⟨hmap.cleared, hmap.budget.free hlow⟩
  · obtain ⟨hpmm, hcleared, -⟩ := fillPage_keeps F ph v s.mm.pmm.pmmAlloc.1
      { s with mm := (Mm.vmmMap T { s.mm with pmm := s.mm.pmm.pmmAlloc.2 } v s.mm.pmm.pmmAlloc.1
        (pageRw ||| pageUser)).2 }
    refine ⟨?_, by rw [hpmm]; exact hmap.budget⟩
    rw [ClearedLow, hcleared]
    exact List.forall_mem_cons.mpr ⟨hlow, hmap.cleared⟩

theorem Funded.loadPages (h : Funded s.mm (k + 2 * n)) (F : File) (ph : Phdr) (vstart i : ℕ) :
    Funded (loadPages T F ph vstart n i s).2.2.mm k := by
  induction n generalizing i s with
  | zero => exact h
  | succ n ih =>
      rw [Elf.loadPages]
      have hpage := Funded.loadPage (T := T) (s := s) (k := k + 2 * n) h F ph
        (Word.add vstart (Word.mul i 0x1000))
      split_ifs
      · exact ⟨hpage.cleared, hpage.budget.mono (Nat.le_add_right k _)⟩
      · exact ih hpage (i + 1)

theorem Funded.loadSegment (h : Funded s.mm (k + 2 * ph.pageList.length)) (F : File) (off : ℕ)
    (img : UserImage) : Funded (loadSegment T F off ph img s).2.2.mm k := by
  have hmono : Funded s.mm k := ⟨h.cleared, h.budget.mono (Nat.le_add_right k _)⟩
  have hlength : ph.pageList.length = (ph.vend - ph.vstart) / 0x1000 := List.length_range' ..
  rw [hlength] at h
  rw [Elf.loadSegment]
  split_ifs
  · exact hmono
  · exact hmono
  · exact Funded.loadPages (s := (s.read (off + 8) 4).read (off + 20) 4) h F ph ph.vstart 0

theorem unloadPage_cleared (m : Mm) (va : ℕ) : (unloadPage T m va).cleared = m.cleared := by
  rw [unloadPage]
  split_ifs
  · exact vmmUnmap_cleared
  · exact vmmUnmap_cleared

theorem unloadPages_cleared (v n i : ℕ) (m : Mm) :
    (unloadPages T v n i m).cleared = m.cleared := by
  induction n generalizing i m with
  | zero => rfl
  | succ n ih => rw [unloadPages, ih, unloadPage_cleared]

theorem unloadSegs_cleared (segs : List UserSeg) (m : Mm) :
    (unloadSegs T segs m).cleared = m.cleared := by
  induction segs generalizing m with
  | nil => rfl
  | cons seg segs ih => exact (ih _).trans (unloadPages_cleared seg.vaddr seg.pages 0 m)

theorem elfUnload_cleared (hrun : elfUnload T s img = .done s') :
    s'.mm.cleared = s.mm.cleared := by
  rw [elfUnload] at hrun
  split_ifs at hrun
  · cases hrun
    rfl
  · obtain ⟨heap, -, hdone⟩ := Outcome.bind_eq_done_iff.mp hrun
    cases hdone
    exact unloadSegs_cleared img.segs s.mm

theorem Funded.loadHeaders (h : Funded s.mm (2 * (F.pagesFrom i n).length)) {r : ℤ}
    {img' : UserImage} (hrun : loadHeaders T F n i img s = .done (r, img', s')) :
    ClearedLow s'.mm := by
  induction n generalizing i img s with
  | zero =>
      cases hrun
      exact h.cleared
  | succ n ih =>
      rw [F.pagesFrom_succ, List.length_append, Nat.mul_add] at h
      by_cases hload : F.Loads i
      · rw [if_pos hload, Nat.add_comm] at h
        have hseg := Funded.loadSegment (T := T) (s := s.readPhdr F i) h F (F.phdrOffset i) img
        rcases loadHeaders_load hload hrun with ⟨-, -, hunload⟩ | ⟨-, q, img₁, s₁, hcall, hnext⟩
        · rw [ClearedLow, elfUnload_cleared hunload]
          exact h.cleared
        rw [hcall] at hseg
        rcases hnext with ⟨-, -, hunload⟩ | ⟨-, hrun⟩
        · rw [ClearedLow, elfUnload_cleared hunload]
          exact hseg.cleared
        · exact ih hseg hrun
      · obtain ⟨s₁, hmm, hrun⟩ := loadHeaders_skip hload hrun
        refine ih ?_ hrun
        rw [hmm]
        exact ⟨h.cleared, h.budget.mono (Nat.le_add_left _ _)⟩

theorem Funded.elfLoad (h : Funded s.mm (2 * F.pageList.length)) {r : ℤ} {outImage : ℕ}
    {out : Option UserImage} (hrun : elfLoad T s F outImage = .done (r, out, s')) :
    ClearedLow s'.mm := by
  have h' : Funded (s.readEhdr F).mm (2 * F.pageList.length) := by rwa [s.readEhdr_mm]
  rcases elfLoad_cases hrun with ⟨-, -, hmm, -⟩ | ⟨p, heap, img, -, -, -, hheaders⟩
  · rw [ClearedLow, hmm]
    exact h.cleared
  · exact Funded.loadHeaders (s := { s.readEhdr F with heap := heap }) h' hheaders

/-! ## Runs -/

/-- The calls that take, give back, map or clear frames. -/
inductive MemCall where
  | alloc
  | free (addr : ℕ)
  | map (virt phys flags : ℕ)
  | unmap (virt : ℕ)
  | load (F : File) (outImage : ℕ)
  | unload (img : UserImage)

def MemCall.run (T : Tables) (s : Sys) : MemCall → Outcome Sys
  | alloc => .done { s with mm := { s.mm with pmm := s.mm.pmm.pmmAlloc.2 } }
  | free addr => .done { s with mm := { s.mm with pmm := s.mm.pmm.pmmFree addr } }
  | map virt phys flags => .done { s with mm := (s.mm.vmmMap T virt phys flags).2 }
  | unmap virt => .done { s with mm := s.mm.vmmUnmap T virt }
  | load F outImage => do
      let r ← elfLoad T s F outImage
      .done r.2.2
  | unload img => elfUnload T s img

/-- The frames that a call may take to clear them. -/
def MemCall.demand : MemCall → ℕ
  | map _ _ _ => 1
  | load F _ => 2 * F.pageList.length
  | _ => 0

/-- One call that returns, made in a state where `C` holds. -/
def MemStep (T : Tables) (C : Sys → MemCall → Prop) (s s' : Sys) : Prop :=
  ∃ c : MemCall, C s c ∧ c.run T s = .done s'

theorem MemStep.clearedLow (h : MemStep T (fun s c ↦ Budget s.mm.pmm c.demand) s s')
    (hs : ClearedLow s.mm) : ClearedLow s'.mm := by
  obtain ⟨c, hbudget, hrun⟩ := h
  cases c with
  | alloc =>
      cases hrun
      exact hs
  | free addr =>
      cases hrun
      exact hs
  | map virt phys flags =>
      cases hrun
      exact (Funded.vmmMap (k := 0) ⟨hs, hbudget⟩ virt phys flags).cleared
  | unmap virt =>
      cases hrun
      rw [ClearedLow, vmmUnmap_cleared]
      exact hs
  | load F outImage =>
      obtain ⟨⟨r, out, s₁⟩, hload, hdone⟩ := Outcome.bind_eq_done_iff.mp hrun
      cases hdone
      exact Funded.elfLoad ⟨hs, hbudget⟩ hload
  | unload img =>
      rw [ClearedLow, elfUnload_cleared hrun]
      exact hs

theorem boot_cleared (T : Tables) (m₀ : Pmm) (table : List E820Entry) (mem : Bytes) :
    (Mm.boot T m₀ table mem).cleared = [] := by
  rw [Mm.boot, pagingInit]

/-- In every run in which each call finds the frames it may take below 4 MB, or no free frame
elsewhere, every frame that the kernel clears is below 4 MB. -/
theorem cleared_low {m₀ : Pmm} {table : List E820Entry} {mem : Bytes} {heap : Heap.Kheap}
    (h : Relation.ReflTransGen (MemStep T fun s c ↦ Budget s.mm.pmm c.demand)
      ⟨Mm.boot T m₀ table mem, heap, []⟩ s) : ∀ a ∈ s.mm.cleared, a < 0x400000 := by
  induction h with
  | refl =>
      rw [boot_cleared]
      exact fun a ha ↦ absurd ha List.not_mem_nil
  | tail _ hstep ih => exact hstep.clearedLow ih

theorem budget_twoPages : Budget (Pmm.unset.pmmInit Pmm.twoPages) 1 := by
  left
  have hfree : 256 ∈ lowPages (Pmm.unset.pmmInit Pmm.twoPages) :=
    Finset.mem_filter.mpr ⟨Pmm.mem_freePages.mpr (by decide +kernel), by norm_num⟩
  exact Finset.card_pos.mpr ⟨256, hfree⟩

theorem cleared_low_map : ∃ s, MemStep lowTables (fun s c ↦ Budget s.mm.pmm c.demand)
    ⟨Mm.boot lowTables Pmm.unset Pmm.twoPages fun _ ↦ 0,
      Heap.kheapInit Heap.lowArena fun _ ↦ 0, []⟩ s ∧ ∀ a ∈ s.mm.cleared, a < 0x400000 := by
  have hbudget : Budget (Mm.boot lowTables Pmm.unset Pmm.twoPages fun _ ↦ 0).pmm 1 := by
    rw [Mm.boot_pmm]
    exact budget_twoPages
  have hstep : ∃ s, MemStep lowTables (fun s c ↦ Budget s.mm.pmm c.demand)
      ⟨Mm.boot lowTables Pmm.unset Pmm.twoPages fun _ ↦ 0,
        Heap.kheapInit Heap.lowArena fun _ ↦ 0, []⟩ s :=
    ⟨_, .map 0x800000 0x5000 0, hbudget, rfl⟩
  obtain ⟨s, hstep⟩ := hstep
  exact ⟨s, hstep, cleared_low (.single hstep)⟩

/-- The usable memory begins at 4 MB: so does the page table. -/
theorem table_above : ∃ s, Relation.ReflTransGen (MemStep lowTables fun _ _ ↦ True)
    ⟨Mm.boot lowTables Pmm.unset [⟨0x400000, 0x2000, 1⟩] fun _ ↦ 0,
      Heap.kheapInit Heap.lowArena fun _ ↦ 0, []⟩ s ∧ 0x400000 ∈ s.mm.cleared := by
  refine ⟨_, .single ⟨.map 0x800000 0x5000 0, trivial, rfl⟩, ?_⟩
  decide +kernel

end MyOS.Elf
