import MyOS.Heap.Invariant

/-!
# What an allocation promises

A non-null result of `kmalloc` should be the start of as many bytes as were asked for,
inside `heap_storage` and away from every header and every other allocation.  `align_up`
computes modulo `2 ^ 32`, and so does the product of `kcalloc`; the promise is kept exactly
when neither wraps or the call returns `NULL` anyway.
-/

namespace MyOS.Heap

open Bytes Tiling

variable {A : Arena} {s : Usage} {h h' : Kheap} {b c : Block} {l : List Block} {size p n : ℕ}

/-- The `n` bytes at `p` lie in `heap_storage`, and no header and no other allocation meets them. -/
structure Serves (A : Arena) (h : Kheap) (others : List ℕ) (p n : ℕ) : Prop where
  lower : A.base ≤ p
  upper : p + n ≤ A.base + storageSize
  headers : ∀ b, OnList h b → b + hdrSize ≤ p ∨ p + n ≤ b
  others : ∀ q ∈ others, q + h.size (q - hdrSize) ≤ p ∨ p + n ≤ q

def KmallocContract (A : Arena) (s : Usage) (size : ℕ) : Prop :=
  ∀ p h', kmalloc s.heap size = .done (p, h') → p ≠ 0 → Serves A h' s.live p size

def KcallocContract (A : Arena) (s : Usage) (n size : ℕ) : Prop :=
  ∀ p h', kcalloc s.heap n size = .done (p, h') → p ≠ 0 →
    Serves A h' s.live p (n * size) ∧ ∀ i < n * size, h'.mem (p + i) = 0

/-- A free block on the list that can hold `n` bytes. -/
def HasRoom (h : Kheap) (n : ℕ) : Prop := ∃ b, OnList h b ∧ h.used b = 0 ∧ n ≤ h.size b

theorem Represents.hasRoom_iff (hr : Represents A h l) :
    HasRoom h n ↔ ∃ b ∈ l, b.used = false ∧ n ≤ b.size := by
  have hfields : ∀ b ∈ l, h.used b.start = b.used.toNat ∧ h.size b.start = b.size := by
    intro b hb
    obtain ⟨pre, post, rfl⟩ := List.append_of_mem hb
    obtain ⟨-, hhead, -⟩ := linked_middle.mp hr.linked
    exact ⟨hhead.used, hhead.size⟩
  constructor
  · rintro ⟨a, ha, hfree, hn⟩
    obtain ⟨b, hb, rfl⟩ := hr.onList_iff.mp ha
    obtain ⟨hused, hsize⟩ := hfields b hb
    refine ⟨b, hb, ?_, hsize ▸ hn⟩
    rw [hused] at hfree
    simpa using hfree
  · rintro ⟨b, hb, hfree, hn⟩
    obtain ⟨hused, hsize⟩ := hfields b hb
    exact ⟨b.start, hr.onList_iff.mpr ⟨b, hb, rfl⟩, by simp [hused, hfree], hsize.symm ▸ hn⟩

/-- Without room, or for no bytes at all, `kmalloc` returns `NULL`. -/
theorem Represents.kmalloc_null (hr : Represents A h l)
    (hroom : size = 0 ∨ ¬ HasRoom h (alignUp size kheapAlign)) :
    kmalloc h size = .done (0, h) := by
  by_cases hsize : size = 0
  · simp [kmalloc, hsize]
  · have hnone : firstFit hdrSize kheapAlign (alignUp size kheapAlign) l = none := by
      rw [firstFit_eq_none_iff]
      intro b hb hfree
      by_contra hle
      exact hroom.resolve_left hsize
        (hr.hasRoom_iff.mpr ⟨b, hb, hfree, Nat.le_of_not_lt hle⟩)
    have hcall := kmalloc_of_represents hr hsize
    rwa [hnone] at hcall

/-- With room, `kmalloc` returns the payload of a block that was not in use. -/
theorem Represents.kmalloc_some (hr : Represents A h l) (hsize : size ≠ 0)
    (hroom : HasRoom h (alignUp size kheapAlign)) :
    ∃ h' l' b, kmalloc h size = .done (b.payload hdrSize, h') ∧ Represents A h' l' ∧
      (held hdrSize l').Perm (b.payload hdrSize :: held hdrSize l) ∧ b ∈ l' ∧
      alignUp size kheapAlign ≤ b.size := by
  have hcall := kmalloc_of_represents hr hsize
  cases hfit : firstFit hdrSize kheapAlign (alignUp size kheapAlign) l with
  | none =>
      obtain ⟨b, hb, hfree, hn⟩ := hr.hasRoom_iff.mp hroom
      exact absurd (firstFit_eq_none_iff.mp hfit b hb hfree) (Nat.not_lt.mpr hn)
  | some r =>
      rw [hfit] at hcall
      obtain ⟨h', hcall, hr'⟩ := hcall
      obtain ⟨pre, b, post, rfl, hfree, hn, -, rfl⟩ := firstFit_eq_some hfit
      obtain ⟨c, hc, hcstart, hcsize⟩ : ∃ c ∈ split hdrSize kheapAlign (alignUp size kheapAlign) b,
          c.start = b.start ∧ alignUp size kheapAlign ≤ c.size := by
        unfold split
        split
        · exact ⟨_, List.mem_cons_self, rfl, le_refl _⟩
        · exact ⟨_, List.mem_cons_self, rfl, hn⟩
      have hpayload : c.payload hdrSize = b.payload hdrSize := by
        rw [Block.payload, Block.payload, hcstart]
      have hheld := held_firstFit hfit
      rw [← hpayload] at hcall hheld
      exact ⟨h', _, c, hcall, hr', hheld,
        List.mem_append_right pre (List.mem_append_left post hc), hcsize⟩

/-- `kmalloc` fails for want of room only. -/
theorem HeapInv.kmalloc_eq_zero_iff {s : Usage} {h' : Kheap} {p : ℕ} (hinv : HeapInv A s)
    (hsize : size ≠ 0) (hcall : kmalloc s.heap size = .done (p, h')) :
    p = 0 ↔ ¬HasRoom s.heap (alignUp size kheapAlign) := by
  obtain ⟨l, hr, -⟩ := hinv
  constructor
  · rintro rfl hroom
    obtain ⟨h₁, l₁, b, hsome, hr₁, -, hb, -⟩ := hr.kmalloc_some hsize hroom
    rw [hcall] at hsome
    have hstart := (hr₁.tiles.bounds hb).1
    simp only [Outcome.done.injEq, Prod.mk.injEq, Block.payload, hdrSize] at hsome
    omega
  · intro hroom
    have hnull := hr.kmalloc_null (Or.inr hroom)
    rw [hcall] at hnull
    cases hnull
    rfl

theorem Represents.serves {others : List ℕ} (hr : Represents A h l) (hb : b ∈ l) (hn : n ≤ b.size)
    (hothers : ∀ q ∈ others, q ∈ held hdrSize l ∧ q ≠ b.payload hdrSize) :
    Serves A h others (b.payload hdrSize) n := by
  have hhdr : hdrSize = 20 := rfl
  obtain ⟨hlo, hhi⟩ := hr.tiles.bounds hb
  unfold Block.stop at hhi
  -- every other block lies on one side of `b`
  have haway : ∀ c ∈ l, c.start ≠ b.start →
      c.stop hdrSize ≤ b.start ∨ b.stop hdrSize ≤ c.start := by
    intro c hc hne
    exact hr.tiles.separate hc hb fun heq ↦ hne (congrArg Block.start heq)
  constructor
  · unfold Block.payload
    omega
  · unfold Block.payload
    omega
  · intro a ha
    obtain ⟨c, hc, rfl⟩ := hr.onList_iff.mp ha
    unfold Block.payload
    by_cases heq : c.start = b.start
    · omega
    · have hside := haway c hc heq
      unfold Block.stop at hside
      omega
  · intro q hq
    obtain ⟨hheld, hne⟩ := hothers q hq
    obtain ⟨c, hc, -, rfl⟩ := mem_held.mp hheld
    have hsize : h.size (c.payload hdrSize - hdrSize) = c.size := by
      obtain ⟨pre, post, rfl⟩ := List.append_of_mem hc
      obtain ⟨-, hhead, -⟩ := linked_middle.mp hr.linked
      rw [Block.payload, Nat.add_sub_cancel]
      exact hhead.size
    rw [hsize]
    unfold Block.payload at hne ⊢
    have hside := haway c hc (by omega)
    unfold Block.stop at hside
    omega

/-- The payload handed out is none of those in use before. -/
theorem live_ne_of_perm {l' : List Block} (hr : Represents A h l')
    (hlive : s.live.Perm (held hdrSize l)) (hheld : (held hdrSize l').Perm (p :: held hdrSize l)) :
    ∀ q ∈ s.live, q ∈ held hdrSize l' ∧ q ≠ p := by
  intro q hq
  have hqheld := hlive.mem_iff.mp hq
  have hnodup := hheld.nodup_iff.mp (hr.tiles.held_nodup (by norm_num [hdrSize]))
  refine ⟨hheld.mem_iff.mpr (List.mem_cons_of_mem p hqheld), ?_⟩
  rintro rfl
  exact (List.nodup_cons.mp hnodup).1 hqheld

theorem size_le_alignUp (hsize : size ≤ 0xFFFFFFF8) : size ≤ alignUp size kheapAlign := by
  rw [alignUp_of_le (by omega)]
  omega

/-- A block of a length that does not wrap is inside `heap_storage` and meets no header. -/
theorem HeapInv.kmalloc_serves (hs : HeapInv A s) (hsize : size ≤ 0xFFFFFFF8)
    (hcall : kmalloc s.heap size = .done (p, h')) (hp : p ≠ 0) : Serves A h' [] p size := by
  obtain ⟨l, hr, -⟩ := hs
  by_cases hnone : size = 0 ∨ ¬ HasRoom s.heap (alignUp size kheapAlign)
  · rw [hr.kmalloc_null hnone] at hcall
    cases hcall
    exact absurd rfl hp
  · obtain ⟨hne, hroom⟩ := not_or.mp hnone
    obtain ⟨h'', l', b, hcall', hr', -, hb, hle⟩ := hr.kmalloc_some hne (not_not.mp hroom)
    rw [hcall'] at hcall
    cases hcall
    exact hr'.serves hb ((size_le_alignUp hsize).trans hle) (by simp)

/-- What is stored in such a block does not reach the headers. -/
theorem HeapInv.blit {others live : List ℕ} (hs : HeapInv A ⟨h, live⟩)
    (hserves : Serves A h others p size) (hn : n ≤ size) (src : Bytes) :
    HeapInv A ⟨{ h with mem := h.mem.blit p n src }, live⟩ := by
  obtain ⟨l, hr, hlive⟩ := hs
  refine ⟨l, hr.congr fun b hb i hlo hhi ↦ ?_, hlive⟩
  have hmiss := hserves.headers b.start (hr.onList_iff.mpr ⟨b, hb, rfl⟩)
  exact blit_apply_of_notMem (by omega)

theorem kmallocContract_iff (hs : Reachable A s) (hsize : size < 2 ^ 32) :
    KmallocContract A s size ↔ size ≤ 0xFFFFFFF8 ∨ ¬ HasRoom s.heap 0 := by
  obtain ⟨l, hr, hlive⟩ := hs.inv
  constructor
  · intro hcontract
    by_contra hbad
    simp only [not_or, not_le, not_not] at hbad
    obtain ⟨hbig, hroom⟩ := hbad
    have hwrap : alignUp size kheapAlign = 0 := alignUp_of_wrap hsize (by omega)
    obtain ⟨h', l', b, hcall, hr', -, hb, -⟩ :=
      hr.kmalloc_some (show size ≠ 0 by omega) (hwrap ▸ hroom)
    have hpos := hr'.start_pos hb
    have hserves := hcontract _ _ hcall (by unfold Block.payload; omega)
    have hupper := hserves.upper
    have hfits := A.fits
    unfold Block.payload hdrSize at hupper
    omega
  · intro hcond p h' hcall hp
    by_cases hroom : size = 0 ∨ ¬ HasRoom s.heap (alignUp size kheapAlign)
    · rw [hr.kmalloc_null hroom, Outcome.done.injEq, Prod.mk.injEq] at hcall
      exact (hp hcall.1.symm).elim
    · simp only [not_or, not_not] at hroom
      obtain ⟨h'', l', b, hcall', hr', hheld, hb, hfit⟩ := hr.kmalloc_some hroom.1 hroom.2
      rw [hcall, Outcome.done.injEq, Prod.mk.injEq] at hcall'
      obtain ⟨rfl, rfl⟩ := hcall'
      have hsmall : size ≤ 0xFFFFFFF8 := by
        rcases hcond with hsmall | hnone
        · exact hsmall
        · -- a block with room for the rounded size has room for nothing
          obtain ⟨a, ha, hfree, -⟩ := hroom.2
          exact (hnone ⟨a, ha, hfree, Nat.zero_le _⟩).elim
      exact hr'.serves hb ((size_le_alignUp hsmall).trans hfit) (live_ne_of_perm hr' hlive hheld)

theorem kcallocContract_iff (hs : Reachable A s) :
    KcallocContract A s n size ↔ n * size ≤ 0xFFFFFFF8 ∨ Word.mul n size = 0 ∨
      ¬ HasRoom s.heap (alignUp (Word.mul n size) kheapAlign) := by
  obtain ⟨l, hr, hlive⟩ := hs.inv
  constructor
  · intro hcontract
    by_contra hbad
    simp only [not_or, not_le, not_not] at hbad
    obtain ⟨hbig, hzero, hroom⟩ := hbad
    obtain ⟨h', l', b, hcall, hr', -, hb, -⟩ := hr.kmalloc_some hzero hroom
    have hpos := hr'.start_pos hb
    have hne : b.payload hdrSize ≠ 0 := by
      unfold Block.payload
      omega
    have hcalloc : kcalloc s.heap n size = .done (b.payload hdrSize,
        { h' with mem := h'.mem.blit (b.payload hdrSize) (Word.mul n size) fun _ ↦ 0 }) := by
      simp only [kcalloc, hcall, Outcome.done_bind, if_neg hne]
    have hupper := (hcontract _ _ hcalloc hne).1.upper
    have hfits := A.fits
    unfold Block.payload hdrSize at hupper
    omega
  · intro hcond p h' hcall hp
    by_cases hroom : Word.mul n size = 0 ∨ ¬ HasRoom s.heap (alignUp (Word.mul n size) kheapAlign)
    · simp only [kcalloc, hr.kmalloc_null hroom, Outcome.done_bind, if_true, Outcome.done.injEq,
        Prod.mk.injEq] at hcall
      exact (hp hcall.1.symm).elim
    · have hsmall := hcond.resolve_right hroom
      have htotal : Word.mul n size = n * size := Word.mul_eq (by omega)
      simp only [not_or, not_not] at hroom
      obtain ⟨h'', l', b, hcall', hr', hheld, hb, hfit⟩ := hr.kmalloc_some hroom.1 hroom.2
      have hpos := hr'.start_pos hb
      simp only [kcalloc, hcall', Outcome.done_bind] at hcall
      rw [if_neg (by unfold Block.payload; omega), Outcome.done.injEq, Prod.mk.injEq] at hcall
      obtain ⟨rfl, rfl⟩ := hcall
      rw [htotal] at hfit ⊢
      have hle : n * size ≤ b.size := (size_le_alignUp hsmall).trans hfit
      -- clearing stays inside the payload of the new block
      have hclear : Represents A
          { h'' with mem := h''.mem.blit (b.payload hdrSize) (n * size) fun _ ↦ 0 } l' := by
        refine hr'.congr fun c hc i hlo hhi ↦ blit_apply_of_notMem ?_
        have hserves := (hr'.serves hb hle (live_ne_of_perm hr' hlive hheld)).headers c.start
          (hr'.onList_iff.mpr ⟨c, hc, rfl⟩)
        omega
      refine ⟨hclear.serves hb hle (live_ne_of_perm hclear hlive hheld), fun i hi ↦ ?_⟩
      change h''.mem.blit (b.payload hdrSize) (n * size) (fun _ ↦ 0) (b.payload hdrSize + i) = 0
      rw [blit_apply_add hi]

/-- On every reachable heap, `kmalloc` keeps its promise exactly when rounding up does not wrap
or no block is free, and `kcalloc` exactly when neither the product nor rounding it up wraps or
the wrapped request is refused. -/
theorem allocation_contract_iff (hs : Reachable A s) :
    (∀ size, size < 2 ^ 32 →
      (KmallocContract A s size ↔ size ≤ 0xFFFFFFF8 ∨ ¬ HasRoom s.heap 0)) ∧
      ∀ n size, n < 2 ^ 32 → size < 2 ^ 32 →
        (KcallocContract A s n size ↔ n * size ≤ 0xFFFFFFF8 ∨ Word.mul n size = 0 ∨
          ¬ HasRoom s.heap (alignUp (Word.mul n size) kheapAlign)) :=
  ⟨fun _ hsize ↦ kmallocContract_iff hs hsize, fun _ _ _ _ ↦ kcallocContract_iff hs⟩

theorem allocation_contract_iff_fresh :
    (∀ size, size < 2 ^ 32 →
      (KmallocContract lowArena ⟨kheapInit lowArena fun _ ↦ 0, []⟩ size ↔
        size ≤ 0xFFFFFFF8 ∨ ¬ HasRoom (kheapInit lowArena fun _ ↦ 0) 0)) ∧
      ∀ n size, n < 2 ^ 32 → size < 2 ^ 32 →
        (KcallocContract lowArena ⟨kheapInit lowArena fun _ ↦ 0, []⟩ n size ↔
          n * size ≤ 0xFFFFFFF8 ∨ Word.mul n size = 0 ∨
            ¬ HasRoom (kheapInit lowArena fun _ ↦ 0) (alignUp (Word.mul n size) kheapAlign)) :=
  allocation_contract_iff (Reachable.init fun _ ↦ 0)

/-- On a fresh heap `kmalloc(0xFFFFFFFF)` hands out a block without payload, and
`kcalloc(0x10000, 0x10001)` clears 64 KB where 4 GB were asked for. -/
theorem allocation_contract_broken :
    ¬ KmallocContract lowArena ⟨kheapInit lowArena fun _ ↦ 0, []⟩ 0xFFFFFFFF ∧
      ¬ KcallocContract lowArena ⟨kheapInit lowArena fun _ ↦ 0, []⟩ 0x10000 0x10001 := by
  have hs := Reachable.init (A := lowArena) fun _ ↦ 0
  have hr := represents_kheapInit lowArena fun _ ↦ 0
  have hroom : ∀ n, n ≤ storageSize - hdrSize → HasRoom (kheapInit lowArena fun _ ↦ 0) n :=
    fun n hn ↦ hr.hasRoom_iff.mpr ⟨_, List.mem_cons_self, rfl, hn⟩
  have htotal : Word.mul 0x10000 0x10001 = 0x10000 := by norm_num [Word.mul]
  constructor
  · rw [kmallocContract_iff hs (by norm_num)]
    simp [hroom 0 (Nat.zero_le _)]
  · have hround : alignUp 0x10000 kheapAlign = 0x10000 := alignUp_of_le (by norm_num)
    rw [kcallocContract_iff hs, htotal, hround]
    simp [hroom 0x10000 (by norm_num [storageSize, hdrSize])]

end MyOS.Heap
