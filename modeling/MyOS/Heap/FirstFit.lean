import MyOS.Heap.Sessions

/-!
# First fit

`kmalloc` takes the free block with the lowest address that can hold the request, and it finds
one exactly if the largest free block of the statistics is large enough.  Where the block
starts follows from the blocks in front of it: a header has 20 bytes, so of two blocks in a row
only one can have a payload at a multiple of eight.
-/

namespace MyOS.Heap

open Tiling

variable {A : Arena} {s : Usage} {h h' : Kheap} {b : Block} {l : List Block} {size n p : ℕ}

/-- `b` is the first block of the list that can hold `n` bytes. -/
structure Fits (l : List Block) (n : ℕ) (pre : List Block) (b : Block) (post : List Block) :
    Prop where
  split : l = pre ++ b :: post
  free : b.used = false
  room : n ≤ b.size
  first : ∀ c ∈ pre, c.used = false → c.size < n

/-- A call of `kmalloc` for some bytes: it fails and changes nothing, or it takes the first block
that fits. -/
theorem Represents.kmalloc_cases (hr : Represents A h l) (size : ℕ) (hsize : size ≠ 0) :
    (kmalloc h size = .done (0, h) ∧
        ∀ b ∈ l, b.used = false → b.size < alignUp size kheapAlign) ∨
      ∃ pre b post, Fits l (alignUp size kheapAlign) pre b post ∧
        kmalloc h size =
          .done (b.payload hdrSize, Heap.takeBlock h b.start (alignUp size kheapAlign)) ∧
        Represents A (Heap.takeBlock h b.start (alignUp size kheapAlign))
          (pre ++ (split hdrSize kheapAlign (alignUp size kheapAlign) b ++ post)) := by
  cases hfit : firstFit hdrSize kheapAlign (alignUp size kheapAlign) l with
  | none =>
      have hcall := kmalloc_of_represents hr hsize
      rw [hfit] at hcall
      exact Or.inl ⟨hcall, firstFit_eq_none_iff.mp hfit⟩
  | some r =>
      obtain ⟨pre, b, post, rfl, hfree, hn, hpre, -⟩ := firstFit_eq_some hfit
      exact Or.inr ⟨pre, b, post, ⟨rfl, hfree, hn, hpre⟩, hr.kmalloc_hit hsize hfree hn hpre,
        hr.takeBlock hfree hn⟩

/-- What a call of `kmalloc` that returned has done. -/
theorem Represents.kmalloc_returns (hr : Represents A h l)
    (hcall : kmalloc h size = .done (p, h')) :
    p = 0 ∧ h' = h ∨
      ∃ pre b post, Fits l (alignUp size kheapAlign) pre b post ∧ p = b.payload hdrSize ∧
        h' = Heap.takeBlock h b.start (alignUp size kheapAlign) ∧
        Represents A h'
          (pre ++ (split hdrSize kheapAlign (alignUp size kheapAlign) b ++ post)) := by
  by_cases hsize : size = 0
  · simp only [kmalloc, hsize, if_true, Outcome.done.injEq, Prod.mk.injEq] at hcall
    exact Or.inl ⟨hcall.1.symm, hcall.2.symm⟩
  · rcases hr.kmalloc_cases size hsize with ⟨hcall', -⟩ | ⟨pre, b, post, hfits, hcall', hr'⟩
    · rw [hcall'] at hcall
      cases hcall
      exact Or.inl ⟨rfl, rfl⟩
    · rw [hcall'] at hcall
      cases hcall
      exact Or.inr ⟨pre, b, post, hfits, rfl, rfl, hr'⟩

theorem Represents.payload_ne_zero (hr : Represents A h l) (hb : b ∈ l) :
    b.payload hdrSize ≠ 0 := by
  have hpos := hr.start_pos hb
  unfold Block.payload
  omega

/-! ## The largest free block -/

theorem le_largestFree (l : List Block) (t : KheapStats) :
    n ≤ (l.foldl KheapStats.enter t).largestFree ↔
      n ≤ t.largestFree ∨ ∃ b ∈ l, b.used = false ∧ n ≤ b.size := by
  induction l generalizing t with
  | nil => simp
  | cons b l ih =>
      rw [List.foldl_cons, ih, List.exists_mem_cons_iff]
      cases hb : b.used with
      | true => simp [KheapStats.enter, hb]
      | false => simp [KheapStats.enter, hb, or_assoc]

/-- In every reachable state `kmalloc` succeeds exactly if the largest free block is large enough.
It then uses the lowest free block that is, and leaves the other blocks alone; if it fails it
leaves the heap alone. -/
theorem kmalloc_complete_first_fit (hs : Reachable A s) (size : ℕ) (hlo : 1 ≤ size)
    (hhi : size ≤ 0xFFFFFFF8) :
    ∃ st p h', kheapGetStats s.heap = .done st ∧ kmalloc s.heap size = .done (p, h') ∧
      (p ≠ 0 ↔ (size + 7) / 8 * 8 ≤ st.largestFree) ∧
      (p = 0 → h' = s.heap) ∧
      (p ≠ 0 → ∃ pre b post, blockList s.heap = pre ++ b :: post ∧ p = b.start + hdrSize ∧
        b.used = false ∧ (size + 7) / 8 * 8 ≤ b.size ∧
        (∀ c ∈ blockList s.heap, c.used = false → (size + 7) / 8 * 8 ≤ c.size →
          b.start ≤ c.start) ∧
        blockList h' = pre ++ (split hdrSize kheapAlign ((size + 7) / 8 * 8) b ++ post)) := by
  obtain ⟨l, hr, -⟩ := hs.inv
  have hround : alignUp size kheapAlign = (size + 7) / 8 * 8 := alignUp_of_le (by omega)
  have hlargest := le_largestFree (n := (size + 7) / 8 * 8) l ⟨storageSize, 0, 0, 0, 0, 0, 0⟩
  have hcases := hr.kmalloc_cases size (by omega)
  rw [hround] at hcases
  rcases hcases with ⟨hcall, hnone⟩ | ⟨pre, b, post, hfits, hcall, hr'⟩
  · refine ⟨_, 0, s.heap, hr.kheapGetStats, hcall, ?_, fun _ ↦ rfl, fun hp ↦ absurd rfl hp⟩
    rw [hlargest]
    refine iff_of_false (fun hp ↦ hp rfl) ?_
    rintro (hzero | ⟨b, hb, hfree, hle⟩)
    · simp only at hzero
      omega
    · exact absurd (hnone b hb hfree) (Nat.not_lt.mpr hle)
  · have hmem : b ∈ l := by simp [hfits.split]
    have hne := hr.payload_ne_zero hmem
    refine ⟨_, _, _, hr.kheapGetStats, hcall, ?_, fun hp ↦ absurd hp hne, fun _ ↦ ?_⟩
    · rw [hlargest]
      exact iff_of_true hne (Or.inr ⟨b, hmem, hfits.free, hfits.room⟩)
    · rw [hr.blockList]
      refine ⟨pre, b, post, hfits.split, rfl, hfits.free, hfits.room, fun c hc hfree hle ↦ ?_,
        hr'.blockList⟩
      -- a block that fits is not in front of `b`
      rw [hfits.split] at hc
      rcases List.mem_append.mp hc with hc | hc
      · exact absurd (hfits.first c hc hfree) (Nat.not_lt.mpr hle)
      · rcases List.mem_cons.mp hc with rfl | hc
        · exact le_refl _
        · have hpair := hr.tiles.pairwise
          rw [hfits.split, List.pairwise_append, List.pairwise_cons] at hpair
          have hstop := hpair.2.1.1 c hc
          unfold Block.stop at hstop
          omega

/-- The hole at `0x20024` is too small for 24 bytes: they go to the block behind the others. -/
theorem kmalloc_complete_first_fit_holed :
    ⟨0x20024, 16, false⟩ ∈ blockList holedHeap ∧ ∃ st h' pre b post,
      kheapGetStats holedHeap = .done st ∧ 24 ≤ st.largestFree ∧
      kmalloc holedHeap 24 = .done (0x20080, h') ∧ blockList holedHeap = pre ++ b :: post ∧
      0x20080 = b.start + hdrSize ∧ b.used = false ∧ 24 ≤ b.size ∧
      (∀ c ∈ blockList holedHeap, c.used = false → 24 ≤ c.size → b.start ≤ c.start) ∧
      blockList h' = pre ++ (split hdrSize kheapAlign 24 b ++ post) := by
  obtain ⟨st, p, h', hstats, hcall, hiff, -, hplace⟩ :=
    kmalloc_complete_first_fit holedHeap_reachable 24 (by norm_num) (by norm_num)
  have hcode : kmalloc holedHeap 24 = .done (0x20080, afterKmalloc holedHeap 24) :=
    kmalloc_eq_after (by decide +kernel)
  rw [hcode] at hcall
  cases hcall
  obtain ⟨pre, b, post, hplace⟩ := hplace (by norm_num)
  exact ⟨by decide +kernel, st, _, pre, b, post, hstats, hiff.mp (by norm_num), hcode, hplace⟩

/-! ## Alignment -/

theorem dvd_alignUp (hsize : size < 2 ^ 32) : 4 ∣ alignUp size kheapAlign := by
  by_cases hwrap : size + 7 < 2 ^ 32
  · rw [alignUp_of_le hwrap]
    exact Dvd.dvd.mul_left (by norm_num) _
  · rw [alignUp_of_wrap hsize (by omega)]
    exact dvd_zero 4

theorem Represents.kmalloc_aligned (hr : Represents A h l) (hl : Aligned 4 l)
    (hsize : size < 2 ^ 32) (hcall : kmalloc h size = .done (p, h')) :
    ∃ l', Represents A h' l' ∧ Aligned 4 l' := by
  rcases hr.kmalloc_returns hcall with ⟨-, rfl⟩ | ⟨pre, b, post, hfits, -, -, hr'⟩
  · exact ⟨l, hr, hl⟩
  · exact ⟨_, hr', Aligned.split (by norm_num [hdrSize]) (hfits.split ▸ hl) (dvd_alignUp hsize)⟩

theorem Reachable.aligned (hs : Reachable A s) : Aligned 4 (blockList s.heap) := by
  induction hs with
  | init mem =>
      rw [(represents_kheapInit A mem).blockList]
      have hbase : 4 ∣ A.base := Dvd.dvd.trans (by norm_num) A.aligned
      simpa [Aligned, storageSize, hdrSize] using hbase
  | @malloc s h' p size hs hsize hcall ih =>
      obtain ⟨l, hr, -⟩ := hs.inv
      rw [hr.blockList] at ih
      obtain ⟨l', hr', hl'⟩ := hr.kmalloc_aligned ih hsize hcall
      rwa [hr'.blockList]
  | @free s h' p hs hp hcall ih =>
      obtain ⟨l, hr, hlive⟩ := hs.inv
      rw [hr.blockList] at ih
      obtain ⟨b, hb, hused, rfl⟩ := mem_held.mp (hlive.mem_iff.mp hp)
      obtain ⟨h'', hcall', hr'⟩ := kfree_of_represents hr hb hused
      rw [hcall] at hcall'
      cases hcall'
      rw [hr'.blockList]
      exact Aligned.release (by norm_num [hdrSize]) ih
  | @store s a v hs ha ih =>
      obtain ⟨l, hr, -⟩ := hs.inv
      rw [hr.blockList] at ih
      have hr' := hr.congr (m := Function.update s.heap.mem a v) fun b hb i hlo hhi ↦ by
        have hmiss := ha b.start (hr.onList_iff.mpr ⟨b, hb, rfl⟩)
        have hne : i ≠ a := by omega
        exact Function.update_of_ne hne v s.heap.mem
      rwa [hr'.blockList]

/-- A pointer that `kmalloc` returns is a multiple of four.  It is one of eight exactly if the
headers and payloads in front of it add up to one. -/
theorem kmalloc_aligned_iff (hs : Reachable A s)
    (hcall : kmalloc s.heap size = .done (p, h')) (hp : p ≠ 0) :
    4 ∣ p ∧ ∃ pre b post, Fits (blockList s.heap) (alignUp size kheapAlign) pre b post ∧
      (8 ∣ p ↔ 8 ∣ (pre.map Block.size).sum + hdrSize * pre.length + hdrSize) := by
  obtain ⟨l, hr, -⟩ := hs.inv
  have hl := hs.aligned
  rw [hr.blockList] at hl ⊢
  rcases hr.kmalloc_returns hcall with ⟨rfl, -⟩ | ⟨pre, b, post, hfits, rfl, -, -⟩
  · exact absurd rfl hp
  · have hstart : 4 ∣ b.start := (hl b (by simp [hfits.split])).1
    obtain ⟨mid, htpre, rfl, -⟩ := tiles_append.mp (hfits.split ▸ hr.tiles)
    have hsum := htpre.sum_eq
    have hbase := A.aligned
    unfold Block.payload
    refine ⟨hstart.add (by norm_num [hdrSize]), pre, b, post, hfits, ?_⟩
    rw [← hsum, add_assoc A.base, add_assoc A.base, Nat.dvd_add_right hbase]

/-- The only block of a fresh heap is the one that is taken. -/
theorem kmalloc_fresh :
    ∃ h', kmalloc (kheapInit lowArena fun _ ↦ 0) 8 = .done (0x20014, h') := by
  have hr := represents_kheapInit lowArena fun _ ↦ 0
  have hround : alignUp 8 kheapAlign = 8 := alignUp_of_le (by norm_num)
  rcases hr.kmalloc_cases 8 (by norm_num) with ⟨-, hsmall⟩ | ⟨pre, b, post, hfits, hcall, -⟩
  · have hlt := hsmall _ List.mem_cons_self rfl
    rw [hround] at hlt
    norm_num [storageSize, hdrSize] at hlt
  · have hb := List.append_eq_singleton_iff.mp hfits.split.symm
    obtain ⟨-, rfl, -⟩ : pre = [] ∧ b = ⟨lowArena.base, storageSize - hdrSize, false⟩ ∧
        post = [] := by simpa using hb
    exact ⟨_, hcall⟩

theorem kmalloc_aligned_iff_fresh :
    ∃ p h', kmalloc (kheapInit lowArena fun _ ↦ 0) 8 = .done (p, h') ∧ 4 ∣ p ∧
      ∃ pre b post,
        Fits (blockList (kheapInit lowArena fun _ ↦ 0)) (alignUp 8 kheapAlign) pre b post ∧
        (8 ∣ p ↔ 8 ∣ (pre.map Block.size).sum + hdrSize * pre.length + hdrSize) := by
  obtain ⟨h', hcall⟩ := kmalloc_fresh
  exact ⟨0x20014, h', hcall,
    kmalloc_aligned_iff (Reachable.init fun _ ↦ 0) hcall (by norm_num)⟩

/-- The heap of an arena at a multiple of eight hands out `base + 20` first. -/
theorem kmalloc_misaligned :
    Reachable lowArena ⟨kheapInit lowArena fun _ ↦ 0, []⟩ ∧ 8 ∣ lowArena.base ∧
      ∃ p h', kmalloc (kheapInit lowArena fun _ ↦ 0) 8 = .done (p, h') ∧ p ≠ 0 ∧ ¬ 8 ∣ p := by
  obtain ⟨h', hcall⟩ := kmalloc_fresh
  exact ⟨.init _, lowArena.aligned, 0x20014, h', hcall, by norm_num, by norm_num⟩

end MyOS.Heap
