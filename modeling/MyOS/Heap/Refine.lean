import MyOS.Heap.Model
import MyOS.Lib.Tiling

/-!
# The heap memory represents a list of blocks

`Represents A h l` says that the blocks reached from `head` along `next` are those of
`l`, that they tile `heap_storage`, and that no two neighbours are free.  On such a heap
`kmalloc` is first fit and `kfree` is release-and-merge on the list.
-/

namespace MyOS.Heap

open Bytes Tiling

variable {A : Arena} {h : Kheap} {m m' : Bytes} {b c : Block} {l l₁ l₂ pre post : List Block}
  {prev next size : ℕ}

/-- The header of `b` stands in memory, linked to `prev` and `next`. -/
structure HeaderAt (m : Bytes) (b : Block) (prev next : ℕ) : Prop where
  magic : m.read32 b.start = kheapMagic
  size : m.read32 (b.start + 4) = b.size
  used : m.read32 (b.start + 8) = b.used.toNat
  prev : m.read32 (b.start + 12) = prev
  next : m.read32 (b.start + 16) = next

theorem HeaderAt.congr (hb : HeaderAt m b prev next)
    (hm : ∀ i, b.start ≤ i → i < b.start + hdrSize → m' i = m i) : HeaderAt m' b prev next := by
  have hword : ∀ k, k + 4 ≤ hdrSize → m'.read32 (b.start + k) = m.read32 (b.start + k) := by
    intro k hk
    apply readLE_congr
    intro i hlo hhi
    exact hm i (by omega) (by omega)
  unfold hdrSize at hword
  exact ⟨(hword 0 (by norm_num)).trans hb.magic, (hword 4 (by norm_num)).trans hb.size,
    (hword 8 (by norm_num)).trans hb.used, (hword 12 (by norm_num)).trans hb.prev,
    (hword 16 (by norm_num)).trans hb.next⟩

section HeaderWrites

variable (hb : HeaderAt m b prev next) {v : ℕ} (hv : v < 2 ^ 32)
include hb

theorem HeaderAt.write_prev (hv : v < 2 ^ 32) :
    HeaderAt (m.write32 (b.start + 12) v) b v next where
  magic := (readLE_writeLE_of_disjoint (by omega)).trans hb.magic
  size := (readLE_writeLE_of_disjoint (by omega)).trans hb.size
  used := (readLE_writeLE_of_disjoint (by omega)).trans hb.used
  prev := read32_write32 hv
  next := (readLE_writeLE_of_disjoint (by omega)).trans hb.next

theorem HeaderAt.write_next (hv : v < 2 ^ 32) :
    HeaderAt (m.write32 (b.start + 16) v) b prev v where
  magic := (readLE_writeLE_of_disjoint (by omega)).trans hb.magic
  size := (readLE_writeLE_of_disjoint (by omega)).trans hb.size
  used := (readLE_writeLE_of_disjoint (by omega)).trans hb.used
  prev := (readLE_writeLE_of_disjoint (by omega)).trans hb.prev
  next := read32_write32 hv

theorem HeaderAt.write_size (hv : v < 2 ^ 32) :
    HeaderAt (m.write32 (b.start + 4) v) ⟨b.start, v, b.used⟩ prev next where
  magic := (readLE_writeLE_of_disjoint (by simp)).trans hb.magic
  size := read32_write32 hv
  used := (readLE_writeLE_of_disjoint (by simp)).trans hb.used
  prev := (readLE_writeLE_of_disjoint (by simp)).trans hb.prev
  next := (readLE_writeLE_of_disjoint (by simp)).trans hb.next

theorem HeaderAt.write_used (u : Bool) :
    HeaderAt (m.write32 (b.start + 8) u.toNat) ⟨b.start, b.size, u⟩ prev next where
  magic := (readLE_writeLE_of_disjoint (by simp)).trans hb.magic
  size := (readLE_writeLE_of_disjoint (by simp)).trans hb.size
  used := read32_write32 (by cases u <;> norm_num)
  prev := (readLE_writeLE_of_disjoint (by simp)).trans hb.prev
  next := (readLE_writeLE_of_disjoint (by simp)).trans hb.next

end HeaderWrites

/-- All five header words of `b` written in the order of the source. -/
def writeHeader (m : Bytes) (b : Block) (prev next : ℕ) : Bytes :=
  ((((m.write32 b.start kheapMagic).write32 (b.start + 4) b.size).write32 (b.start + 8)
    b.used.toNat).write32 (b.start + 12) prev).write32 (b.start + 16) next

theorem headerAt_writeHeader (hsize : b.size < 2 ^ 32) (hprev : prev < 2 ^ 32)
    (hnext : next < 2 ^ 32) : HeaderAt (writeHeader m b prev next) b prev next := by
  have hused : b.used.toNat < 2 ^ 32 := by cases b.used <;> norm_num
  constructor
  · simp (disch := omega) only [writeHeader, readLE_writeLE_of_disjoint]
    exact read32_write32 (by norm_num [kheapMagic])
  · simp (disch := omega) only [writeHeader, readLE_writeLE_of_disjoint]
    exact read32_write32 hsize
  · simp (disch := omega) only [writeHeader, readLE_writeLE_of_disjoint]
    exact read32_write32 hused
  · simp (disch := omega) only [writeHeader, readLE_writeLE_of_disjoint]
    exact read32_write32 hprev
  · exact read32_write32 hnext

theorem writeHeader_apply_of_notMem {i : ℕ} (hi : i < b.start ∨ b.start + hdrSize ≤ i) :
    writeHeader m b prev next i = m i := by
  unfold hdrSize at hi
  simp (disch := omega) only [writeHeader, writeLE_apply_of_notMem]

/-- The pointer to the first block of a list, or to what follows when the list is empty. -/
def headOr (next : ℕ) : List Block → ℕ
  | [] => next
  | b :: _ => b.start

/-- The pointer to the last block of a list, or to what precedes when the list is empty. -/
def lastOr (prev : ℕ) : List Block → ℕ
  | [] => prev
  | b :: l => lastOr b.start l

def Linked (m : Bytes) : ℕ → List Block → ℕ → Prop
  | _, [], _ => True
  | prev, b :: l, next => HeaderAt m b prev (headOr next l) ∧ Linked m b.start l next

@[simp] theorem linked_nil : Linked m prev [] next := trivial

@[simp] theorem linked_cons : Linked m prev (b :: l) next ↔
    HeaderAt m b prev (headOr next l) ∧ Linked m b.start l next := Iff.rfl

theorem headOr_append : headOr next (l₁ ++ l₂) = headOr (headOr next l₂) l₁ := by
  cases l₁ <;> rfl

theorem lastOr_append : lastOr prev (l₁ ++ l₂) = lastOr (lastOr prev l₁) l₂ := by
  induction l₁ generalizing prev with
  | nil => rfl
  | cons b l₁ ih => exact ih

theorem linked_append : Linked m prev (l₁ ++ l₂) next ↔
    Linked m prev l₁ (headOr next l₂) ∧ Linked m (lastOr prev l₁) l₂ next := by
  induction l₁ generalizing prev with
  | nil => simp [lastOr]
  | cons b l₁ ih =>
      simp only [List.cons_append, linked_cons, headOr_append, lastOr, ih, and_assoc]

theorem Linked.congr (hl : Linked m prev l next)
    (hm : ∀ b ∈ l, ∀ i, b.start ≤ i → i < b.start + hdrSize → m' i = m i) :
    Linked m' prev l next := by
  induction l generalizing prev with
  | nil => trivial
  | cons b l ih =>
      obtain ⟨hb, hl⟩ := hl
      exact ⟨hb.congr (hm b List.mem_cons_self),
        ih hl fun c hc ↦ hm c (List.mem_cons_of_mem b hc)⟩

theorem headOr_le {lo hi : ℕ} (ht : Tiles hdrSize lo hi l) : headOr 0 l ≤ hi := by
  cases l with
  | nil => exact Nat.zero_le hi
  | cons b l =>
      have hstop := (ht.bounds List.mem_cons_self).2
      unfold Block.stop at hstop
      rw [headOr]
      omega

theorem Linked.congr_of_tiles {lo hi : ℕ} (hl : Linked m prev l next)
    (ht : Tiles hdrSize lo hi l) (hm : ∀ i, lo ≤ i → i < hi → m' i = m i) :
    Linked m' prev l next := by
  apply hl.congr
  intro b hb i hlo hhi
  obtain ⟨hstart, hstop⟩ := ht.bounds hb
  unfold Block.stop at hstop
  exact hm i (by omega) (by omega)

structure Represents (A : Arena) (h : Kheap) (l : List Block) : Prop where
  head_eq : h.head = A.base
  linked : Linked h.mem 0 l 0
  tiles : Tiles hdrSize A.base (A.base + storageSize) l
  packed : Packed l

/-! ## Allocation -/

theorem alignUp_of_le (hsize : size + 7 < 2 ^ 32) :
    alignUp size kheapAlign = (size + 7) / 8 * 8 := by
  have hround := Word.and_highMask (x := size + 7) (k := 3) hsize (by norm_num)
  rw [alignUp, kheapAlign, Word.add_eq hsize]
  exact hround

theorem alignUp_of_wrap (hsize : size < 2 ^ 32) (hwrap : 2 ^ 32 ≤ size + 7) :
    alignUp size kheapAlign = 0 := by
  have hsum : Word.add size 7 = size + 7 - 2 ^ 32 := by
    unfold Word.add
    omega
  have hround := Word.and_highMask (x := size + 7 - 2 ^ 32) (k := 3) (by omega) (by norm_num)
  rw [alignUp, kheapAlign]
  show Word.add size 7 &&& _ = 0
  rw [hsum, show (2 : ℕ) ^ 32 - 8 = 2 ^ 32 - 2 ^ 3 by norm_num, hround]
  omega

/-- Searching from `head` passes over the blocks that cannot serve the request. -/
theorem kmallocLoop_skip (fuel : ℕ) (hl : Linked h.mem prev (pre ++ post) 0)
    (hpos : ∀ b ∈ pre, 0 < b.start)
    (hpre : ∀ b ∈ pre, b.used = false → b.size < size) :
    kmallocLoop h size (fuel + pre.length) (headOr 0 (pre ++ post)) =
      kmallocLoop h size fuel (headOr 0 post) := by
  induction pre generalizing prev with
  | nil => rfl
  | cons b pre ih =>
      rw [List.cons_append, linked_cons] at hl
      obtain ⟨hb, hl⟩ := hl
      have hstart : b.start ≠ 0 := (hpos b List.mem_cons_self).ne'
      have hrest := ih hl (fun c hc ↦ hpos c (List.mem_cons_of_mem b hc))
        fun c hc ↦ hpre c (List.mem_cons_of_mem b hc)
      have hmagic : h.magic b.start = kheapMagic := hb.magic
      have hnext : h.next b.start = headOr 0 (pre ++ post) := hb.next
      have hused : h.used b.start = b.used.toNat := hb.used
      rw [← hrest, ← hnext]
      change kmallocLoop h size (fuel + pre.length + 1) b.start = _
      rw [kmallocLoop, if_neg hstart, if_neg (not_not.mpr hmagic)]
      cases hb' : b.used with
      | true => simp [hused, hb']
      | false =>
          have hsmall : h.size b.start < size :=
            hb.size.trans_lt (hpre b List.mem_cons_self hb')
          simp [hused, hb', hsmall]

/-- A block that can serve the request ends the search. -/
theorem kmallocLoop_hit {fuel : ℕ} (hb : HeaderAt h.mem b prev next) (hpos : 0 < b.start)
    (hfree : b.used = false) (hsize : size ≤ b.size) :
    kmallocLoop h size (fuel + 1) b.start =
      .done (Word.add b.start hdrSize, takeBlock h b.start size) := by
  have hmagic : h.magic b.start = kheapMagic := hb.magic
  have hused : h.used b.start = 0 := by simpa [Kheap.used, hfree] using hb.used
  have hlarge : ¬ h.size b.start < size := by
    rw [show h.size b.start = b.size from hb.size]
    exact Nat.not_lt.mpr hsize
  rw [kmallocLoop, if_neg hpos.ne', if_neg (not_not.mpr hmagic), if_neg (not_not.mpr hused),
    if_neg hlarge]

/-- A block with its neighbours: the headers in front, its own, and those behind. -/
theorem linked_middle : Linked m prev (pre ++ b :: post) next ↔
    Linked m prev pre b.start ∧ HeaderAt m b (lastOr prev pre) (headOr next post) ∧
      Linked m b.start post next := by
  rw [linked_append, linked_cons]
  rfl

/-- `if (n) n->prev = q;` on memory. -/
def relink (m : Bytes) (n q : ℕ) : Bytes := if n ≠ 0 then m.write32 (n + 12) q else m

theorem relink_apply {lo hi q i : ℕ} (ht : Tiles hdrSize lo hi l) (hi : i < lo) :
    relink m (headOr 0 l) q i = m i := by
  cases l with
  | nil => rfl
  | cons c l =>
      obtain ⟨rfl, -⟩ := ht
      rw [headOr, relink]
      split
      · exact writeLE_apply_of_notMem (by omega)
      · rfl

/-- Relinking the first block of a list changes nothing else of the list. -/
theorem Linked.relink {lo hi q : ℕ} (hl : Linked m prev l 0) (ht : Tiles hdrSize lo hi l)
    (hlo : 0 < lo) (hq : q < 2 ^ 32) : Linked (relink m (headOr 0 l) q) q l 0 := by
  cases l with
  | nil => trivial
  | cons c l =>
      obtain ⟨hc, hl⟩ := hl
      obtain ⟨rfl, ht⟩ := ht
      rw [headOr, Heap.relink, if_pos hlo.ne']
      refine ⟨hc.write_prev hq, hl.congr_of_tiles ht ?_⟩
      intro i hi _
      unfold Block.stop hdrSize at hi
      exact writeLE_apply_of_notMem (by omega)

/-- The memory after the block at `a` has been split behind `size` payload bytes. -/
theorem splitBlock_mem {a : ℕ} (size leftover : ℕ) (hnext : h.next a = next)
    (hend : a + hdrSize + size < 2 ^ 32) (hleft : hdrSize ≤ leftover) (hleft' : leftover < 2 ^ 32) :
    (splitBlock h a size leftover).mem =
      ((relink (writeHeader h.mem ⟨a + hdrSize + size, leftover - hdrSize, false⟩ a next)
        next (a + hdrSize + size)).write32 (a + 16) (a + hdrSize + size)).write32 (a + 4) size := by
  have hn : Word.add (Word.add a hdrSize) size = a + hdrSize + size := by
    rw [Word.add_eq (a := a) (by omega), Word.add_eq (by omega)]
  have hnext' : h.mem.read32 (a + 16) = next := hnext
  simp only [splitBlock, hn, Kheap.setMagic, Kheap.setSize, Kheap.setUsed, Kheap.setPrev,
    Kheap.setNext, Kheap.next, Word.sub_eq hleft hleft', relink, writeHeader]
  unfold hdrSize at *
  simp (disch := omega) only [readLE_writeLE_of_disjoint, hnext']
  split <;> rfl

theorem linked_splitBlock {lo hi leftover : ℕ} (hl : Linked h.mem 0 (pre ++ b :: post) 0)
    (ht : Tiles hdrSize lo hi (pre ++ b :: post)) (hlo : 0 < lo) (hhi : hi < 2 ^ 32)
    (hfree : b.used = false) (hsize : size + leftover ≤ b.size)
    (hleft : hdrSize + kheapAlign ≤ leftover) :
    Linked ((splitBlock h b.start size leftover).setUsed b.start 1).mem 0
      (pre ++ ⟨b.start, size, true⟩ ::
        ⟨b.start + hdrSize + size, leftover - hdrSize, false⟩ :: post) 0 := by
  obtain ⟨hpre, hhead, hpost⟩ := linked_middle.mp hl
  obtain ⟨mid, htpre, rfl, htpost⟩ := tiles_append.mp ht
  have hend := htpost.le
  have hstart := htpre.le
  have hstop : b.stop hdrSize = b.start + hdrSize + b.size := rfl
  have hhdr : hdrSize = 20 := rfl
  have hmem := splitBlock_mem size leftover hhead.next (by omega) (by omega) (by omega)
  have hb : HeaderAt h.mem ⟨b.start, b.size, false⟩ (lastOr 0 pre) (headOr 0 post) := hfree ▸ hhead
  simp only [Kheap.setUsed, hmem]
  set n : Block := ⟨b.start + hdrSize + size, leftover - hdrSize, false⟩ with hn
  have hnstart : n.start = b.start + hdrSize + size := rfl
  set m₁ := writeHeader h.mem n b.start (headOr 0 post) with hm₁
  have h₁ : ∀ i, i < n.start ∨ n.start + hdrSize ≤ i → m₁ i = h.mem i :=
    fun i hi ↦ writeHeader_apply_of_notMem hi
  set m₂ := relink m₁ (headOr 0 post) n.start with hm₂
  have h₂ : ∀ i, i < b.stop hdrSize → m₂ i = m₁ i := fun i hi ↦ relink_apply htpost hi
  -- the last three writes stay inside the header of `b`
  have h₃ : ∀ i, i < b.start ∨ b.start + hdrSize ≤ i →
      (((m₂.write32 (b.start + 16) n.start).write32 (b.start + 4) size).write32 (b.start + 8) 1) i =
        m₂ i := by
    intro i hi
    simp (disch := omega) only [writeLE_apply_of_notMem]
  have hpre₃ : Linked m₂ 0 pre b.start := hpre.congr_of_tiles htpre fun i _ hi ↦ by
    rw [h₂ i (by omega), h₁ i (by omega)]
  have hb₃ := ((((hb.congr fun i _ hi ↦ h₁ i (by simp only at hi; omega)).congr fun i _ hi ↦
    h₂ i (by simp only at hi; omega)).write_next (v := n.start) (by omega)).write_size
      (v := size) (by omega)).write_used true
  have hn₃ : HeaderAt m₂ n b.start (headOr 0 post) := by
    have hnext := headOr_le htpost
    have hnsize : n.size = leftover - hdrSize := rfl
    exact (headerAt_writeHeader (by omega) (by omega) (by omega)).congr fun i _ hi ↦
      h₂ i (by omega)
  have hpost₂ := (hpost.congr_of_tiles htpost fun i hi _ ↦ h₁ i (by omega)).relink htpost
    (q := n.start) (by omega) (by omega)
  exact linked_middle.mpr ⟨hpre₃.congr_of_tiles htpre fun i _ hi ↦ h₃ i (by omega), hb₃,
    hn₃.congr fun i hi _ ↦ h₃ i (by omega),
    hpost₂.congr_of_tiles htpost fun i hi _ ↦ h₃ i (by omega)⟩

theorem takeBlock_head (h : Kheap) (b size : ℕ) : (takeBlock h b size).head = h.head := by
  simp [takeBlock, splitBlock, apply_ite Kheap.head]

theorem Represents.takeBlock (hr : Represents A h (pre ++ b :: post)) (hb : b.used = false)
    (hsize : size ≤ b.size) :
    Represents A (takeBlock h b.start size) (pre ++ (split hdrSize kheapAlign size b ++ post)) := by
  have hfits := A.fits
  obtain ⟨hpre, hhead, hpost⟩ := linked_middle.mp hr.linked
  have hleft : Word.sub (h.size b.start) size = b.size - size := by
    have hstop := (hr.tiles.bounds (List.mem_append_right pre List.mem_cons_self)).2
    unfold Block.stop at hstop
    rw [show h.size b.start = b.size from hhead.size]
    exact Word.sub_eq hsize (by omega)
  refine ⟨(takeBlock_head h b.start size).trans hr.head_eq, ?_, hr.tiles.split hsize,
    hr.packed.split hb⟩
  unfold Heap.takeBlock Tiling.split
  simp only [hleft]
  split
  · rename_i hlarge
    exact linked_splitBlock hr.linked hr.tiles A.base_pos A.fits hb (by omega) hlarge
  · -- the rest is too small for a block of its own and stays with `b`
    obtain ⟨mid, htpre, rfl, htpost⟩ := tiles_append.mp hr.tiles
    refine linked_middle.mpr ⟨hpre.congr_of_tiles htpre fun i _ hi ↦ ?_, hhead.write_used true,
      hpost.congr_of_tiles htpost fun i hi _ ↦ ?_⟩
    · exact writeLE_apply_of_notMem (by omega)
    · unfold Block.stop hdrSize at hi
      exact writeLE_apply_of_notMem (by omega)

theorem Represents.length_lt (hr : Represents A h l) : l.length < walkFuel := by
  have hsum := hr.tiles.sum_eq
  have hfits := A.fits
  unfold hdrSize at hsum
  unfold walkFuel
  omega

theorem Represents.start_pos (hr : Represents A h l) (hb : b ∈ l) : 0 < b.start :=
  A.base_pos.trans_le (hr.tiles.bounds hb).1

theorem Represents.head_eq_headOr (hr : Represents A h l) : h.head = headOr 0 l := by
  rw [hr.head_eq]
  cases l with
  | nil =>
      have hempty : A.base = A.base + storageSize := hr.tiles
      norm_num [storageSize] at hempty
  | cons b l => exact hr.tiles.1.symm

/-- `kmalloc` takes a block that can serve the request and comes after none that could. -/
theorem Represents.kmalloc_hit (hr : Represents A h (pre ++ b :: post)) (hsize : size ≠ 0)
    (hfree : b.used = false) (hfit : alignUp size kheapAlign ≤ b.size)
    (hpre : ∀ c ∈ pre, c.used = false → c.size < alignUp size kheapAlign) :
    kmalloc h size =
      .done (b.payload hdrSize, Heap.takeBlock h b.start (alignUp size kheapAlign)) := by
  have hlen := hr.length_lt
  obtain ⟨-, hhead, -⟩ := linked_middle.mp hr.linked
  have hmem : b ∈ pre ++ b :: post := List.mem_append_right pre List.mem_cons_self
  have hskip := kmallocLoop_skip (walkFuel - pre.length) hr.linked
    (fun c hc ↦ hr.start_pos (List.mem_append_left _ hc)) hpre
  rw [List.length_append, List.length_cons] at hlen
  rw [Nat.sub_add_cancel (by omega)] at hskip
  have hstop := (hr.tiles.bounds hmem).2
  have hfits := A.fits
  unfold Block.stop at hstop
  rw [kmalloc, if_neg hsize, hr.head_eq_headOr, hskip, headOr,
    show walkFuel - pre.length = (walkFuel - pre.length - 1) + 1 by omega,
    kmallocLoop_hit hhead (hr.start_pos hmem) hfree hfit, Word.add_eq (by omega)]
  rfl

/-- `kmalloc` is first fit on the block list. -/
theorem kmalloc_of_represents (hr : Represents A h l) (hsize : size ≠ 0) :
    match firstFit hdrSize kheapAlign (alignUp size kheapAlign) l with
    | none => kmalloc h size = .done (0, h)
    | some r => ∃ h', kmalloc h size = .done (r.1, h') ∧ Represents A h' r.2 := by
  split
  · rename_i hnone
    have hlen := hr.length_lt
    have hl : Linked h.mem 0 (l ++ []) 0 := by simpa using hr.linked
    have hskip := kmallocLoop_skip (walkFuel - l.length) hl (fun b hb ↦ hr.start_pos hb)
      (firstFit_eq_none_iff.mp hnone)
    rw [List.append_nil, Nat.sub_add_cancel hlen.le] at hskip
    obtain ⟨k, hk⟩ := Nat.exists_eq_add_of_lt (Nat.sub_pos_of_lt hlen)
    rw [kmalloc, if_neg hsize, hr.head_eq_headOr, hskip,
      show walkFuel - l.length = k + 1 by omega, headOr, kmallocLoop, if_pos rfl]
  · rename_i r hsome
    obtain ⟨pre, b, post, rfl, hfree, hfit, hpre, rfl⟩ := firstFit_eq_some hsome
    exact ⟨_, hr.kmalloc_hit hsize hfree hfit hpre, hr.takeBlock hfree hfit⟩

/-! ## Release -/

theorem absorb_mem {p n : Block} {nprev nnext : ℕ} (hp : HeaderAt h.mem p prev next)
    (hn : HeaderAt h.mem n nprev nnext) (hpn : p.stop hdrSize = n.start)
    (hend : n.stop hdrSize < 2 ^ 32) :
    (absorb h p.start n.start).mem =
      (relink ((h.mem.write32 (p.start + 4) (p.size + (hdrSize + n.size))).write32
        (p.start + 16) nnext) nnext p.start).write32 n.start 0 := by
  unfold Block.stop at hpn hend
  have hpsize : h.mem.read32 (p.start + 4) = p.size := hp.size
  have hnsize : h.mem.read32 (n.start + 4) = n.size := hn.size
  have hnnext : h.mem.read32 (n.start + 16) = nnext := hn.next
  have hsum : Word.add p.size (Word.add hdrSize n.size) = p.size + (hdrSize + n.size) := by
    rw [Word.add_eq (a := hdrSize) (by omega), Word.add_eq (by omega)]
  unfold hdrSize at *
  simp only [absorb, Kheap.setMagic, Kheap.setSize, Kheap.setPrev, Kheap.setNext, Kheap.next,
    Kheap.size, hpsize, hnsize, hdrSize, hsum, relink]
  simp (disch := omega) only [readLE_writeLE_of_disjoint, hnnext]
  split <;> rfl

theorem linked_absorb {lo hi : ℕ} {p n : Block} (hl : Linked h.mem 0 (pre ++ p :: n :: post) 0)
    (ht : Tiles hdrSize lo hi (pre ++ p :: n :: post)) (hlo : 0 < lo) (hhi : hi < 2 ^ 32) :
    Linked (absorb h p.start n.start).mem 0
      (pre ++ ⟨p.start, p.size + (hdrSize + n.size), p.used⟩ :: post) 0 := by
  obtain ⟨hpre, hp, hn, hpost⟩ := linked_middle.mp hl
  obtain ⟨mid, htpre, rfl, hpn, htpost⟩ := tiles_append.mp ht
  have hend := htpost.le
  have hstart := htpre.le
  have hnext := headOr_le htpost
  have hpstop : p.stop hdrSize = p.start + hdrSize + p.size := rfl
  have hnstop : n.stop hdrSize = n.start + hdrSize + n.size := rfl
  have hhdr : hdrSize = 20 := rfl
  rw [absorb_mem hp hn hpn.symm (by omega)]
  set m₁ := (h.mem.write32 (p.start + 4) (p.size + (hdrSize + n.size))).write32 (p.start + 16)
    (headOr 0 post) with hm₁
  have h₁ : ∀ i, i < p.start ∨ p.start + hdrSize ≤ i → m₁ i = h.mem i := by
    intro i hi
    simp (disch := omega) only [hm₁, writeLE_apply_of_notMem]
  set m₂ := relink m₁ (headOr 0 post) p.start with hm₂
  have h₂ : ∀ i, i < n.stop hdrSize → m₂ i = m₁ i := fun i hi ↦ relink_apply htpost hi
  have h₃ : ∀ i, i < n.start ∨ n.start + hdrSize ≤ i → m₂.write32 n.start 0 i = m₂ i :=
    fun i hi ↦ writeLE_apply_of_notMem (by omega)
  have hp₁ : HeaderAt m₁ ⟨p.start, p.size + (hdrSize + n.size), p.used⟩ (lastOr 0 pre)
      (headOr 0 post) := (hp.write_size (by omega)).write_next (by omega)
  have hpost₂ := (hpost.congr_of_tiles htpost fun i hi _ ↦ h₁ i (by omega)).relink htpost
    (q := p.start) (by omega) (by omega)
  refine linked_middle.mpr ⟨hpre.congr_of_tiles htpre fun i _ hi ↦ ?_, hp₁.congr fun i _ hi ↦ ?_,
    hpost₂.congr_of_tiles htpost fun i hi _ ↦ h₃ i (by omega)⟩
  · rw [h₃ i (by omega), h₂ i (by omega), h₁ i (by omega)]
  · simp only at hi
    rw [h₃ i (by omega), h₂ i (by omega)]

/-! A property that every absorption keeps is kept by the two merges of `kfree`. -/

section Merges

variable {Q : Bytes → List Block → Prop} {lo hi : ℕ}

def AbsorbKeeps (Q : Bytes → List Block → Prop) (lo hi : ℕ) : Prop :=
  ∀ (h : Kheap) (pre : List Block) (p n : Block) (post : List Block),
    Linked h.mem 0 (pre ++ p :: n :: post) 0 → Tiles hdrSize lo hi (pre ++ p :: n :: post) →
      Q h.mem (pre ++ p :: n :: post) →
        Q (absorb h p.start n.start).mem
          (pre ++ ⟨p.start, p.size + (hdrSize + n.size), p.used⟩ :: post)

theorem absorbKeeps_linked (hlo : 0 < lo) (hhi : hi < 2 ^ 32) :
    AbsorbKeeps (fun m l ↦ Linked m 0 l 0) lo hi :=
  fun _ _ _ _ _ hl ht _ ↦ linked_absorb hl ht hlo hhi

theorem AbsorbKeeps.mergeNext (hQ : AbsorbKeeps Q lo hi) (hlo : 0 < lo)
    (hl : Linked h.mem 0 (pre ++ b :: post) 0) (ht : Tiles hdrSize lo hi (pre ++ b :: post))
    (hfree : b.used = false) (h₀ : Q h.mem (pre ++ b :: post)) :
    Q (mergeNext h b.start).mem (pre ++ join hdrSize b post) := by
  obtain ⟨-, hb, hpost⟩ := linked_middle.mp hl
  have hnext : h.next b.start = headOr 0 post := hb.next
  rw [Heap.mergeNext, hnext]
  cases post with
  | nil => simpa [headOr, join] using h₀
  | cons n post =>
      obtain ⟨hn, -⟩ := hpost
      have hpos := (ht.bounds (show n ∈ pre ++ b :: n :: post by simp)).1
      have hused : h.used n.start = n.used.toNat := hn.used
      rw [headOr, hused, join]
      by_cases hnfree : n.used = false
      · rw [if_pos ⟨by omega, by simp [hnfree]⟩, if_pos ⟨hfree, hnfree⟩]
        simpa only [hfree] using hQ h pre b n post hl ht h₀
      · rw [if_neg (by simpa using fun _ ↦ hnfree), if_neg (by simp [hnfree])]
        exact h₀

theorem AbsorbKeeps.mergePrev {q : Block} (hQ : AbsorbKeeps Q lo hi) (hlo : 0 < lo)
    (hl : Linked h.mem 0 (pre ++ q :: b :: post) 0)
    (ht : Tiles hdrSize lo hi (pre ++ q :: b :: post)) (hfree : b.used = false)
    (h₀ : Q h.mem (pre ++ q :: b :: post)) :
    Q (mergePrev h b.start).mem (pre ++ join hdrSize q (b :: post)) := by
  obtain ⟨-, hq, hb, -⟩ := linked_middle.mp hl
  have hprev : h.prev b.start = q.start := hb.prev
  have hused : h.used q.start = q.used.toNat := hq.used
  have hpos := (ht.bounds (show q ∈ pre ++ q :: b :: post by simp)).1
  rw [Heap.mergePrev, hprev, hused, join]
  by_cases hqfree : q.used = false
  · rw [if_pos ⟨by omega, by simp [hqfree]⟩, if_pos ⟨hqfree, hfree⟩]
    simpa only [hqfree] using hQ h pre q b post hl ht h₀
  · rw [if_neg (by simpa using fun _ ↦ hqfree), if_neg (by simp [hqfree])]
    exact h₀

theorem linked_mergeNext (hl : Linked h.mem 0 (pre ++ b :: post) 0)
    (ht : Tiles hdrSize lo hi (pre ++ b :: post)) (hlo : 0 < lo) (hhi : hi < 2 ^ 32)
    (hfree : b.used = false) :
    Linked (mergeNext h b.start).mem 0 (pre ++ join hdrSize b post) 0 :=
  (absorbKeeps_linked hlo hhi).mergeNext hlo hl ht hfree hl

end Merges

theorem absorb_head (h : Kheap) (p n : ℕ) : (absorb h p n).head = h.head := by
  simp [absorb, apply_ite Kheap.head]

theorem merge_head (h : Kheap) (b c : ℕ) : (mergePrev (mergeNext h b) c).head = h.head := by
  rw [mergePrev, mergeNext, apply_ite Kheap.head, absorb_head, ite_self, apply_ite Kheap.head,
    absorb_head, ite_self]

theorem linked_setUsed {lo hi : ℕ} (hl : Linked h.mem 0 (pre ++ b :: post) 0)
    (ht : Tiles hdrSize lo hi (pre ++ b :: post)) :
    Linked (h.setUsed b.start 0).mem 0 (pre ++ ⟨b.start, b.size, false⟩ :: post) 0 := by
  obtain ⟨hpre, hb, hpost⟩ := linked_middle.mp hl
  obtain ⟨mid, htpre, rfl, htpost⟩ := tiles_append.mp ht
  refine linked_middle.mpr ⟨hpre.congr_of_tiles htpre fun i _ hi ↦ ?_, hb.write_used false,
    hpost.congr_of_tiles htpost fun i hi _ ↦ ?_⟩
  · exact writeLE_apply_of_notMem (by omega)
  · unfold Block.stop hdrSize at hi
    exact writeLE_apply_of_notMem (by omega)

/-- The pointer work of `kfree` keeps what absorptions keep; the list it leaves is the released
one. -/
theorem AbsorbKeeps.kfree {Q : Bytes → List Block → Prop} {lo hi : ℕ} (hQ : AbsorbKeeps Q lo hi)
    (hl : Linked h.mem 0 (pre ++ b :: post) 0)
    (ht : Tiles hdrSize lo hi (pre ++ b :: post)) (hp : Packed (pre ++ b :: post))
    (hlo : 0 < lo) (hhi : hi < 2 ^ 32)
    (h₀ : Q (h.setUsed b.start 0).mem (pre ++ ⟨b.start, b.size, false⟩ :: post)) :
    Q (Heap.mergePrev (Heap.mergeNext (h.setUsed b.start 0) b.start) b.start).mem
      (release hdrSize (b.payload hdrSize) (pre ++ b :: post)) := by
  set b₀ : Block := ⟨b.start, b.size, false⟩ with hb₀
  have ht₀ : Tiles hdrSize lo hi (pre ++ b₀ :: post) := by
    obtain ⟨mid, htpre, htb, htpost⟩ := tiles_append.mp ht
    exact tiles_append.mpr ⟨mid, htpre, htb, htpost⟩
  have ht₁ : Tiles hdrSize lo hi (pre ++ join hdrSize b₀ post) := by
    obtain ⟨mid, htpre, rfl, htpost⟩ := tiles_append.mp ht
    exact tiles_append.mpr ⟨b.start, htpre, Tiles.join (b := b₀) htpost⟩
  have hl₀ := linked_setUsed hl ht
  have hl₁ := linked_mergeNext (b := b₀) hl₀ ht₀ hlo hhi rfl
  have h₁ := hQ.mergeNext (b := b₀) hlo hl₀ ht₀ rfl h₀
  obtain ⟨c, rest, hc, hcstart, hcused⟩ := join_eq_cons hdrSize b₀ post
  have hcb : c.start = b.start := hcstart
  rw [hc] at hl₁ ht₁ h₁
  rcases List.eq_nil_or_concat pre with rfl | ⟨pre, q, rfl⟩
  · -- the first block has no predecessor to merge with
    have hprev : (Heap.mergeNext (h.setUsed b.start 0) b.start).prev b.start = 0 := by
      have hhead := (linked_cons.mp hl₁).1.prev
      rwa [hcb] at hhead
    rw [List.nil_append, release, if_pos rfl, ← hb₀, hc, Heap.mergePrev, if_neg (by simp [hprev])]
    exact h₁
  · rw [List.concat_eq_append] at *
    have hdist : ∀ a ∈ pre ++ [q], a.payload hdrSize ≠ b.payload hdrSize := by
      intro a ha heq
      have hlt := (List.pairwise_append.mp ht.pairwise).2.2 a ha b List.mem_cons_self
      unfold Block.stop hdrSize at hlt
      unfold Block.payload at heq
      omega
    rw [List.append_assoc, List.singleton_append] at hl₁ ht₁ h₁ ⊢
    rw [release_middle hdist hp.left_of_append, ← hb₀, hc, ← hcb]
    exact hQ.mergePrev hlo (hcb ▸ hl₁) ht₁ hcused (hcb ▸ h₁)

/-- `kfree` of an allocated pointer passes its checks. -/
theorem Represents.kfree_eq (hr : Represents A h l) (hb : b ∈ l) (hused : b.used = true) :
    kfree h (b.payload hdrSize) =
      .done (mergePrev (mergeNext (h.setUsed b.start 0) b.start) b.start) := by
  obtain ⟨pre, post, rfl⟩ := List.append_of_mem hb
  obtain ⟨-, hhead, -⟩ := linked_middle.mp hr.linked
  have hpos := hr.start_pos hb
  have hfits := A.fits
  have hstop := (hr.tiles.bounds hb).2
  unfold Block.stop at hstop
  have hptr : Word.sub (b.payload hdrSize) hdrSize = b.start := by
    unfold Block.payload
    rw [Word.sub_eq (by omega) (by omega), Nat.add_sub_cancel]
  have hmagic : h.magic b.start = kheapMagic := hhead.magic
  have hused' : h.used b.start ≠ 0 := by
    simp [Kheap.used, hhead.used, hused]
  rw [kfree, if_neg (by unfold Block.payload; omega), hptr]
  simp only [hmagic, ne_eq, not_true_eq_false, if_false, if_neg hused']

/-- `kfree` of an allocated pointer returns and releases the block on the list. -/
theorem kfree_of_represents (hr : Represents A h l) (hb : b ∈ l) (hused : b.used = true) :
    ∃ h', kfree h (b.payload hdrSize) = .done h' ∧
      Represents A h' (release hdrSize (b.payload hdrSize) l) := by
  refine ⟨_, hr.kfree_eq hb hused, ?_⟩
  obtain ⟨pre, post, rfl⟩ := List.append_of_mem hb
  exact ⟨(merge_head _ _ _).trans hr.head_eq,
    (absorbKeeps_linked A.base_pos A.fits).kfree hr.linked hr.tiles hr.packed A.base_pos A.fits
      (linked_setUsed hr.linked hr.tiles), hr.tiles.release, hr.packed.release⟩

end MyOS.Heap
