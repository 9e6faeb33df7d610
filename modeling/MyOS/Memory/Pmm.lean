import MyOS.Lib.Bitmap
import MyOS.Lib.Word

/-!
# The physical page allocator

`pmm.c` keeps one bit for each 4 KB page of the 32-bit address space, set while the page is
in use, and two counters beside the bitmap.  The functions are followed word by word; what
they do is said in terms of the set of free pages.
-/

namespace MyOS

def pageSize : ℕ := 4096

/-- `TOTAL_PAGES`: 4 GB of pages. -/
def totalPages : ℕ := 2 ^ 20

def bitmapWords : ℕ := totalPages / 32

/-- An entry of the e820 table that the boot loader leaves at 0x502. -/
structure E820Entry where
  base : UInt64
  length : UInt64
  type : UInt32

def e820Usable : UInt32 := 1

structure Pmm where
  bitmap : ℕ → BitVec 32
  freeCount : ℕ
  totalCount : ℕ

namespace Pmm

variable (m : Pmm)

def pageSetUsed (p : ℕ) : Pmm :=
  { m with bitmap :=
      Function.update m.bitmap (p >>> 5) (m.bitmap (p >>> 5) ||| 1#32 <<< (p &&& 31)) }

def pageSetFree (p : ℕ) : Pmm :=
  { m with bitmap :=
      Function.update m.bitmap (p >>> 5) (m.bitmap (p >>> 5) &&& ~~~(1#32 <<< (p &&& 31))) }

def pageIsFree (p : ℕ) : Prop := m.bitmap (p >>> 5) &&& 1#32 <<< (p &&& 31) = 0#32

instance (p : ℕ) : Decidable (m.pageIsFree p) := inferInstanceAs (Decidable (_ = _))

/-- The pages `p, p + 1, …` of `region_free`, `n` of them. -/
def regionFreeLoop : ℕ → ℕ → Pmm → Pmm
  | 0, _, m => m
  | n + 1, p, m =>
      regionFreeLoop n (p + 1)
        (if ¬m.pageIsFree p then
          { m.pageSetFree p with
            freeCount := Word.add m.freeCount 1
            totalCount := Word.add m.totalCount 1 }
        else m)

def regionFree (base len : UInt64) : Pmm :=
  let first := base.toNat / pageSize % 2 ^ 32
  let last := (base + len).toNat / pageSize % 2 ^ 32
  let last := if last > totalPages then totalPages else last
  regionFreeLoop (last - first) first m

def regionReserveLoop : ℕ → ℕ → Pmm → Pmm
  | 0, _, m => m
  | n + 1, p, m =>
      regionReserveLoop n (p + 1)
        (if m.pageIsFree p then
          { m.pageSetUsed p with freeCount := Word.sub m.freeCount 1 }
        else m)

def regionReserve (base len : UInt64) : Pmm :=
  let first := base.toNat / pageSize % 2 ^ 32
  let last := (base + len + 4096 - 1).toNat / pageSize % 2 ^ 32
  let last := if last > totalPages then totalPages else last
  regionReserveLoop (last - first) first m

/-- `pmm_init`, with the entries of the e820 table given as a list. -/
def pmmInit (table : List E820Entry) : Pmm :=
  let m : Pmm :=
    { bitmap := fun i ↦ if i < bitmapWords then 0xFFFFFFFF#32 else m.bitmap i
      freeCount := 0
      totalCount := 0 }
  let m := table.foldl (fun m e ↦ if e.type = e820Usable then m.regionFree e.base e.length else m) m
  m.regionReserve 0 0x100000

/-- The bits `b, b + 1, …` of word `w`, `n` of them. -/
def allocBits (w : ℕ) : ℕ → ℕ → Option (ℕ × Pmm)
  | 0, _ => none
  | n + 1, b =>
      let p := Word.add (Word.mul w 32) b
      if m.pageIsFree p then
        some (Word.mul p pageSize, { m.pageSetUsed p with freeCount := Word.sub m.freeCount 1 })
      else allocBits w n (b + 1)

/-- The words `w, w + 1, …`, `n` of them. -/
def allocWords : ℕ → ℕ → ℕ × Pmm
  | 0, _ => (0, m)
  | n + 1, w =>
      if m.bitmap w = 0xFFFFFFFF#32 then allocWords n (w + 1)
      else
        match m.allocBits w 32 0 with
        | some r => r
        | none => allocWords n (w + 1)

/-- `pmm_alloc` returns the address of a page, `0` for `NULL`. -/
def pmmAlloc : ℕ × Pmm := m.allocWords bitmapWords 0

def pmmFree (addr : ℕ) : Pmm :=
  let p := addr / pageSize
  if totalPages ≤ p ∨ m.pageIsFree p then m
  else { m.pageSetFree p with freeCount := Word.add m.freeCount 1 }

end Pmm

/-! ## The set of free pages -/

namespace Pmm

variable {m : Pmm} {p q : ℕ}

@[irreducible]
def freePages (m : Pmm) : Finset ℕ := (Finset.range totalPages).filter fun p ↦ m.pageIsFree p

theorem shift_mask (p : ℕ) : p >>> 5 = p / 32 ∧ p &&& 31 = p % 32 :=
  ⟨Nat.shiftRight_eq_div_pow p 5, Nat.and_two_pow_sub_one_eq_mod p 5⟩

theorem pageIsFree_iff : m.pageIsFree p ↔ Bitmap.test m.bitmap p = false := by
  rw [pageIsFree, (shift_mask p).1, (shift_mask p).2]
  exact Bitmap.and_mask_eq_zero_iff (by norm_num)

theorem pageSetUsed_bitmap : (m.pageSetUsed p).bitmap = Bitmap.set m.bitmap p := by
  rw [pageSetUsed, (shift_mask p).1, (shift_mask p).2]
  rfl

theorem pageSetFree_bitmap : (m.pageSetFree p).bitmap = Bitmap.clear m.bitmap p := by
  rw [pageSetFree, (shift_mask p).1, (shift_mask p).2]
  rfl

theorem pageIsFree_setUsed : (m.pageSetUsed p).pageIsFree q ↔ m.pageIsFree q ∧ q ≠ p := by
  rw [pageIsFree_iff, pageIsFree_iff, pageSetUsed_bitmap, Bitmap.test_set (by norm_num)]
  simp

theorem pageIsFree_setFree : (m.pageSetFree p).pageIsFree q ↔ m.pageIsFree q ∨ q = p := by
  rw [pageIsFree_iff, pageIsFree_iff, pageSetFree_bitmap, Bitmap.test_clear (by norm_num)]
  by_cases hq : q = p
  · simp [hq]
  · simp [hq]

theorem mem_freePages : p ∈ m.freePages ↔ p < totalPages ∧ m.pageIsFree p := by
  rw [freePages, Finset.mem_filter, Finset.mem_range]

theorem freePages_congr {m' : Pmm} (h : m'.bitmap = m.bitmap) : m'.freePages = m.freePages := by
  ext p
  rw [mem_freePages, mem_freePages, pageIsFree, pageIsFree, h]

theorem freePages_setUsed (m : Pmm) (p : ℕ) :
    (m.pageSetUsed p).freePages = m.freePages.erase p := by
  ext q
  rw [mem_freePages, pageIsFree_setUsed, Finset.mem_erase, mem_freePages]
  tauto

theorem freePages_setFree (hp : p < totalPages) :
    (m.pageSetFree p).freePages = insert p m.freePages := by
  ext q
  rw [mem_freePages, pageIsFree_setFree, Finset.mem_insert, mem_freePages]
  constructor
  · rintro ⟨hq, hfree | rfl⟩
    · exact Or.inr ⟨hq, hfree⟩
    · exact Or.inl rfl
  · rintro (rfl | ⟨hq, hfree⟩)
    · exact ⟨hp, Or.inr rfl⟩
    · exact ⟨hq, Or.inl hfree⟩

theorem card_freePages_le (m : Pmm) : m.freePages.card ≤ totalPages := by
  rw [freePages]
  exact (Finset.card_filter_le _ _).trans_eq (Finset.card_range totalPages)

/-- The counter is the number of clear bits. -/
def Counted (m : Pmm) : Prop := m.freeCount = m.freePages.card

/-- `m` with page `p` taken. -/
def take (m : Pmm) (p : ℕ) : Pmm :=
  { m.pageSetUsed p with freeCount := Word.sub m.freeCount 1 }

/-- `m` with page `p` given back. -/
def give (m : Pmm) (p : ℕ) : Pmm :=
  { m.pageSetFree p with freeCount := Word.add m.freeCount 1 }

theorem freePages_take (m : Pmm) (p : ℕ) : (m.take p).freePages = m.freePages.erase p := by
  rw [← freePages_setUsed]
  exact freePages_congr rfl

theorem freePages_give (hp : p < totalPages) : (m.give p).freePages = insert p m.freePages := by
  rw [← freePages_setFree hp]
  exact freePages_congr rfl

theorem Counted.take (h : m.Counted) (hp : p ∈ m.freePages) : (m.take p).Counted := by
  have hcard := card_freePages_le m
  have hpos : 0 < m.freePages.card := Finset.card_pos.mpr ⟨p, hp⟩
  rw [totalPages] at hcard
  have hcount : (m.take p).freeCount = Word.sub m.freeCount 1 := rfl
  rw [Counted] at h ⊢
  rw [hcount, freePages_take, Finset.card_erase_of_mem hp, h, Word.sub_eq (by omega) (by omega)]

theorem Counted.give (h : m.Counted) (hp : p < totalPages) (hused : ¬m.pageIsFree p) :
    (m.give p).Counted := by
  have hcard := card_freePages_le m
  rw [totalPages] at hcard
  have hnot : p ∉ m.freePages := fun hmem ↦ hused (mem_freePages.mp hmem).2
  have hcount : (m.give p).freeCount = Word.add m.freeCount 1 := rfl
  rw [Counted] at h ⊢
  rw [hcount, freePages_give hp, Finset.card_insert_of_notMem hnot, h, Word.add_eq (by omega)]

/-! ## Allocation -/

theorem word_full (h : m.bitmap (p / 32) = 0xFFFFFFFF#32) : ¬m.pageIsFree p := by
  rw [pageIsFree_iff, Bitmap.test_of_allOnes (i := p) (k := p / 32) h rfl (by norm_num)]
  simp

theorem allocBits_spec (w n b : ℕ) (hw : w < bitmapWords) (hb : b + n = 32)
    (hused : ∀ p, w * 32 ≤ p → p < w * 32 + b → ¬m.pageIsFree p) :
    m.allocBits w n b = none ∧ (∀ p, w * 32 ≤ p → p < w * 32 + 32 → ¬m.pageIsFree p) ∨
      ∃ p, w * 32 ≤ p ∧ p < w * 32 + 32 ∧ m.pageIsFree p ∧
        (∀ q, w * 32 ≤ q → q < p → ¬m.pageIsFree q) ∧
        m.allocBits w n b = some (p * pageSize, m.take p) := by
  induction n generalizing b with
  | zero =>
      obtain rfl : b = 32 := by omega
      exact Or.inl ⟨rfl, hused⟩
  | succ n ih =>
      rw [bitmapWords, totalPages] at hw
      have hp : Word.add (Word.mul w 32) b = w * 32 + b := by
        rw [Word.mul_eq (by omega), Word.add_eq (by omega)]
      rw [allocBits, hp]
      by_cases hfree : m.pageIsFree (w * 32 + b)
      · refine Or.inr ⟨w * 32 + b, by omega, by omega, hfree, fun q hlo hhi ↦ hused q hlo hhi, ?_⟩
        rw [if_pos hfree, pageSize, Word.mul_eq (by omega)]
        rfl
      · rw [if_neg hfree]
        refine ih (b + 1) (by omega) fun p hlo hhi ↦ ?_
        rcases Nat.lt_succ_iff_lt_or_eq.mp (show p < w * 32 + b + 1 by omega) with hlt | rfl
        · exact hused p hlo hlt
        · exact hfree

theorem allocWords_spec (n w : ℕ) (hn : w + n = bitmapWords)
    (hused : ∀ p < w * 32, ¬m.pageIsFree p) :
    m.freePages = ∅ ∧ m.allocWords n w = (0, m) ∨
      ∃ p ∈ m.freePages, (∀ q ∈ m.freePages, p ≤ q) ∧
        m.allocWords n w = (p * pageSize, m.take p) := by
  induction n generalizing w with
  | zero =>
      obtain rfl : w = bitmapWords := by omega
      refine Or.inl ⟨?_, rfl⟩
      apply Finset.eq_empty_of_forall_notMem
      intro p hp
      obtain ⟨hlt, hfree⟩ := mem_freePages.mp hp
      refine hused p ?_ hfree
      rw [bitmapWords]
      rw [totalPages] at hlt ⊢
      omega
  | succ n ih =>
      have hw : w < bitmapWords := by omega
      have hnext : (∀ p, w * 32 ≤ p → p < w * 32 + 32 → ¬m.pageIsFree p) →
          ∀ p < (w + 1) * 32, ¬m.pageIsFree p := by
        intro hword p hp
        by_cases hlo : p < w * 32
        · exact hused p hlo
        · exact hword p (by omega) (by omega)
      rw [allocWords]
      by_cases hfull : m.bitmap w = 0xFFFFFFFF#32
      · rw [if_pos hfull]
        refine ih (w + 1) (by omega) (hnext fun p hlo hhi ↦ ?_)
        have hdiv : p / 32 = w := by omega
        exact word_full (by rwa [hdiv])
      · rw [if_neg hfull]
        rcases allocBits_spec w 32 0 hw rfl (fun p hlo hhi ↦ by omega) with
          ⟨hnone, hword⟩ | ⟨p, hlo, hhi, hfree, hfirst, hsome⟩
        · rw [hnone]
          exact ih (w + 1) (by omega) (hnext hword)
        · rw [hsome]
          rw [bitmapWords, totalPages] at hw
          refine Or.inr ⟨p, mem_freePages.mpr ⟨?_, hfree⟩, fun q hq ↦ ?_, rfl⟩
          · rw [totalPages]
            omega
          · by_contra hlt
            obtain ⟨-, hqfree⟩ := mem_freePages.mp hq
            by_cases hqlo : q < w * 32
            · exact hused q hqlo hqfree
            · exact hfirst q (by omega) (by omega) hqfree

/-- `pmm_alloc` takes the lowest free page. -/
theorem pmmAlloc_spec (m : Pmm) :
    m.freePages = ∅ ∧ m.pmmAlloc = (0, m) ∨
      ∃ p ∈ m.freePages, (∀ q ∈ m.freePages, p ≤ q) ∧ m.pmmAlloc = (p * pageSize, m.take p) :=
  allocWords_spec bitmapWords 0 (Nat.zero_add _) fun p hp ↦ by omega

/-- When `pmm_alloc` returns `NULL`, no page is left, or page 0 is lost. -/
theorem freePages_pmmAlloc_null (m : Pmm) (hnull : m.pmmAlloc.1 = 0) :
    m.pmmAlloc.2.freePages = m.freePages.erase 0 := by
  rcases m.pmmAlloc_spec with ⟨hempty, hnone⟩ | ⟨p, -, -, hsome⟩
  · rw [hnone, hempty, Finset.erase_empty]
  · have hzero : p = 0 := by
      rw [hsome, pageSize] at hnull
      omega
    rw [hsome, hzero, freePages_take]

theorem freePages_eq_empty (m : Pmm) (hzero : 0 ∉ m.freePages) (hnull : m.pmmAlloc.1 = 0) :
    m.freePages = ∅ := by
  rcases m.pmmAlloc_spec with ⟨hempty, -⟩ | ⟨p, hp, -, hsome⟩
  · exact hempty
  · rw [hsome, pageSize] at hnull
    obtain rfl : p = 0 := by omega
    exact absurd hp hzero

/-- `pmm_free` gives a page back that is in use, and does nothing to a free one. -/
theorem pmmFree_spec (m : Pmm) {addr : ℕ} (haddr : addr < 2 ^ 32) :
    addr / pageSize < totalPages ∧
      (m.pageIsFree (addr / pageSize) ∧ m.pmmFree addr = m ∨
        ¬m.pageIsFree (addr / pageSize) ∧ m.pmmFree addr = m.give (addr / pageSize)) := by
  have hlt : addr / pageSize < totalPages := by
    rw [pageSize, totalPages]
    omega
  refine ⟨hlt, ?_⟩
  rw [pmmFree]
  by_cases hfree : m.pageIsFree (addr / pageSize)
  · exact Or.inl ⟨hfree, if_pos (Or.inr hfree)⟩
  · refine Or.inr ⟨hfree, if_neg ?_⟩
    rintro (hge | h)
    · omega
    · exact hfree h

/-- Either way the page is free afterwards, and no other page has changed. -/
theorem freePages_pmmFree (m : Pmm) {addr : ℕ} (haddr : addr < 2 ^ 32) :
    (m.pmmFree addr).freePages = insert (addr / pageSize) m.freePages := by
  obtain ⟨hlt, ⟨hfree, hsame⟩ | ⟨-, hgive⟩⟩ := m.pmmFree_spec haddr
  · rw [hsame, Finset.insert_eq_of_mem (mem_freePages.mpr ⟨hlt, hfree⟩)]
  · rw [hgive, freePages_give hlt]

theorem Counted.pmmFree (h : m.Counted) {addr : ℕ} (haddr : addr < 2 ^ 32) :
    (m.pmmFree addr).Counted := by
  obtain ⟨hlt, ⟨-, hsame⟩ | ⟨hused, hgive⟩⟩ := m.pmmFree_spec haddr
  · rwa [hsame]
  · rw [hgive]
    exact h.give hlt hused

theorem pmmFree_totalCount (m : Pmm) (addr : ℕ) : (m.pmmFree addr).totalCount = m.totalCount := by
  rw [Pmm.pmmFree]
  split <;> rfl

end Pmm

end MyOS
