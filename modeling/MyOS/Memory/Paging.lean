import MyOS.Lib.Bytes
import MyOS.Memory.Frames

/-!
# Page tables

`paging.c` keeps one page directory and creates page tables as they are needed, each in a
frame of the page allocator.  Tables are words in memory, reached by their physical
addresses, as they are while the pages of the directory and of the tables are mapped to
themselves.  Read through both levels they are one map from pages to frames, and
`vmm_map` and `vmm_unmap` change that map at one page.
-/

namespace MyOS

open Bytes

def pagePresent : ℕ := 0x001
def pageRw : ℕ := 0x002
def pageUser : ℕ := 0x004

def pageDirIndex (v : ℕ) : ℕ := v >>> 22 &&& 0x3FF
def pageTblIndex (v : ℕ) : ℕ := v >>> 12 &&& 0x3FF
def pageOffset (v : ℕ) : ℕ := v &&& 0xFFF

/-- Where the two static tables `page_directory` and `first_page_table` are: 4 KB aligned
symbols of the kernel's BSS, which lies below 1 MB. -/
structure Tables where
  pageDirectory : ℕ
  firstPageTable : ℕ
  directory_aligned : 4096 ∣ pageDirectory
  table_aligned : 4096 ∣ firstPageTable
  directory_low : pageDirectory < 0x100000
  table_low : firstPageTable < 0x100000
  table_pos : firstPageTable ≠ 0
  distinct : firstPageTable ≠ pageDirectory

/-- Physical memory and the page allocator.  `cleared` is no state of the kernel: it records
the frames that the kernel has zeroed through their physical addresses. -/
structure Mm where
  mem : Bytes
  pmm : Pmm
  cleared : List ℕ

namespace Mm

variable (T : Tables) (s : Mm)

/-- `get_pt` returns the address of a page table, `0` for `NULL`. -/
def getPt (virt : ℕ) (create : Bool) : ℕ × Mm :=
  let pdi := pageDirIndex virt
  let pde := s.mem.read32 (T.pageDirectory + 4 * pdi)
  if pde &&& pagePresent ≠ 0 then (pde &&& 0xFFFFF000, s)
  else if create = false then (0, s)
  else
    let r := s.pmm.pmmAlloc
    let pt := r.1
    if pt = 0 then (0, { s with pmm := r.2 })
    else
      let mem := s.mem.fillWords pt (fun _ ↦ 0) 1024
      let mem := mem.write32 (T.pageDirectory + 4 * pdi)
        (pt ||| pagePresent ||| pageRw ||| pageUser)
      (pt, { mem := mem, pmm := r.2, cleared := pt :: s.cleared })

def vmmMap (virt phys flags : ℕ) : ℤ × Mm :=
  if (virt ||| phys) &&& 0xFFF ≠ 0 then (-1, s)
  else
    let r := s.getPt T virt true
    let pt := r.1
    let s := r.2
    if pt = 0 then (-1, s)
    else
      let pte := phys &&& 0xFFFFF000 ||| flags &&& 0xFFF ||| pagePresent
      (0, { s with mem := s.mem.write32 (pt + 4 * pageTblIndex virt) pte })

def vmmUnmap (virt : ℕ) : Mm :=
  let pt := (s.getPt T virt false).1
  if pt = 0 then s else { s with mem := s.mem.write32 (pt + 4 * pageTblIndex virt) 0 }

def vmmGetPhys (virt : ℕ) : ℕ :=
  let pt := (s.getPt T virt false).1
  if pt = 0 then 0xFFFFFFFF
  else
    let pte := s.mem.read32 (pt + 4 * pageTblIndex virt)
    if pte &&& pagePresent = 0 then 0xFFFFFFFF else pte &&& 0xFFFFF000 ||| pageOffset virt

/-- `paging_init`, without the registers of the processor and the fault handler. -/
def pagingInit : Mm :=
  let mem := s.mem.fillWords T.pageDirectory (fun _ ↦ 0) 1024
  let mem := mem.fillWords T.firstPageTable
    (fun i ↦ Word.mul i 0x1000 ||| pageRw ||| pageUser ||| pagePresent) 1024
  let mem := mem.write32 T.pageDirectory (T.firstPageTable ||| pageRw ||| pageUser ||| pagePresent)
  { s with mem := mem }

end Mm

/-! ## Words of the tables -/

variable {T : Tables} {s s' : Mm} {a e f i j k t v virt phys flags : ℕ}

theorem pageDirIndex_eq (h : virt < 2 ^ 32) : pageDirIndex virt = virt / 4096 / 1024 := by
  have hshift : virt >>> 22 = virt / 2 ^ 22 := Nat.shiftRight_eq_div_pow virt 22
  have hmask : virt / 2 ^ 22 &&& 0x3FF = virt / 2 ^ 22 % 2 ^ 10 :=
    Nat.and_two_pow_sub_one_eq_mod _ 10
  rw [pageDirIndex, hshift, hmask]
  omega

theorem pageTblIndex_eq (virt : ℕ) : pageTblIndex virt = virt / 4096 % 1024 := by
  have hshift : virt >>> 12 = virt / 2 ^ 12 := Nat.shiftRight_eq_div_pow virt 12
  have hmask : virt / 2 ^ 12 &&& 0x3FF = virt / 2 ^ 12 % 2 ^ 10 :=
    Nat.and_two_pow_sub_one_eq_mod _ 10
  rw [pageTblIndex, hshift, hmask]
  norm_num

theorem pageOffset_eq (virt : ℕ) : pageOffset virt = virt % 4096 :=
  Nat.and_two_pow_sub_one_eq_mod virt 12

theorem present_ne_zero : e &&& pagePresent ≠ 0 ↔ e % 2 = 1 := by
  rw [pagePresent, Nat.and_one_is_mod]
  omega

theorem frame_mask (h : e < 2 ^ 32) : e &&& 0xFFFFF000 = e / 4096 * 4096 :=
  Word.and_highMask (k := 12) h (by norm_num)

theorem aligned_iff : (virt ||| phys) &&& 0xFFF = 0 ↔ 4096 ∣ virt ∧ 4096 ∣ phys := by
  rw [Nat.and_or_distrib_right, Nat.or_eq_zero_iff, Nat.and_two_pow_sub_one_eq_mod virt 12,
    Nat.and_two_pow_sub_one_eq_mod phys 12, Nat.dvd_iff_mod_eq_zero, Nat.dvd_iff_mod_eq_zero]

theorem table_word (ht : 4096 ∣ t) : t ||| pagePresent ||| pageRw ||| pageUser = t + 7 := by
  rw [Nat.or_assoc, Nat.or_assoc]
  exact Word.or_eq_add (k := 12) ht (by decide)

theorem static_word (ht : 4096 ∣ t) : t ||| pageRw ||| pageUser ||| pagePresent = t + 7 := by
  rw [Nat.or_assoc, Nat.or_assoc]
  exact Word.or_eq_add (k := 12) ht (by decide)

/-- The frame that a table word names. -/
def frameOf (e : ℕ) : Option ℕ := if e % 2 = 1 then some (e / 4096) else none

theorem frameOf_eq_some : frameOf e = some f ↔ e % 2 = 1 ∧ e / 4096 = f := by
  rw [frameOf]
  split <;> simp_all

@[simp] theorem frameOf_zero : frameOf 0 = none := rfl

theorem frameOf_add_seven (ht : 4096 ∣ t) : frameOf (t + 7) = some (t / 4096) := by
  rw [frameOf_eq_some]
  omega

theorem mapped_word (hphys : phys < 2 ^ 32) (haligned : 4096 ∣ phys) (flags : ℕ) :
    (phys &&& 0xFFFFF000 ||| flags &&& 0xFFF ||| pagePresent) < 2 ^ 32 ∧
      frameOf (phys &&& 0xFFFFF000 ||| flags &&& 0xFFF ||| pagePresent) = some (phys / 4096) := by
  have hlow : flags &&& 0xFFF < 2 ^ 12 := by
    rw [Nat.and_two_pow_sub_one_eq_mod flags 12]
    exact Nat.mod_lt _ (by norm_num)
  have hlow' : (flags &&& 0xFFF ||| pagePresent) < 2 ^ 12 :=
    Nat.or_lt_two_pow hlow (by norm_num [pagePresent])
  have hodd : (flags &&& 0xFFF ||| pagePresent) % 2 = 1 :=
    Nat.or_mod_two_eq_one.mpr (Or.inr rfl)
  rw [Nat.or_assoc, frame_mask hphys, Nat.div_mul_cancel haligned,
    Word.or_eq_add (k := 12) haligned hlow', frameOf_eq_some]
  omega

/-- Words of different pages do not overlap. -/
theorem words_apart (ht : 4096 ∣ t) (ha : 4096 ∣ a) (hne : t ≠ a) (hj : j < 1024)
    (hk : k < 1024) : t + 4 * j + 4 ≤ a + 4 * k ∨ a + 4 * k + 4 ≤ t + 4 * j := by
  omega

/-! ## Both levels as one map -/

namespace Mm

/-- The table that slot `i` of the directory holds. -/
def table (T : Tables) (s : Mm) (i : ℕ) : Option ℕ :=
  (frameOf (s.mem.read32 (T.pageDirectory + 4 * i))).map (· * 4096)

/-- The word for page `v`, `0` where there is no table. -/
def entry (T : Tables) (s : Mm) (v : ℕ) : ℕ :=
  match s.table T (v / 1024) with
  | some t => s.mem.read32 (t + 4 * (v % 1024))
  | none => 0

/-- The frame of page `v`. -/
def mapping (T : Tables) (s : Mm) (v : ℕ) : Option ℕ := frameOf (s.entry T v)

/-- Page `p` holds the directory or one of the tables. -/
def TablePage (T : Tables) (s : Mm) (p : ℕ) : Prop :=
  p = T.pageDirectory / 4096 ∨ ∃ i < 1024, ∃ t, s.table T i = some t ∧ p = t / 4096

/-- The directory and its tables are in pages of their own that are not free. -/
structure Ok (T : Tables) (s : Mm) : Prop where
  used : ∀ p, s.TablePage T p → p ∉ s.pmm.freePages
  pos : ∀ i < 1024, ∀ t, s.table T i = some t → t ≠ 0
  apart : ∀ i < 1024, ∀ t, s.table T i = some t → t ≠ T.pageDirectory
  distinct : ∀ i < 1024, ∀ j < 1024, ∀ t, s.table T i = some t → s.table T j = some t → i = j

theorem table_aligned (h : s.table T i = some t) : 4096 ∣ t := by
  obtain ⟨f, -, rfl⟩ := Option.map_eq_some_iff.mp h
  exact Nat.dvd_mul_left _ _

theorem table_of_word (h : s.mem.read32 (T.pageDirectory + 4 * i) = e) :
    s.table T i = (frameOf e).map (· * 4096) := by
  rw [table, h]

theorem entry_of_table (h : s.table T (v / 1024) = some t) :
    s.entry T v = s.mem.read32 (t + 4 * (v % 1024)) := by
  rw [entry, h]

theorem entry_of_none (h : s.table T (v / 1024) = none) : s.entry T v = 0 := by
  rw [entry, h]

theorem table_congr (h : ∀ a, T.pageDirectory ≤ a → a < T.pageDirectory + 4096 →
    s'.mem a = s.mem a) (hi : i < 1024) : s'.table T i = s.table T i := by
  rw [table, table]
  congr 2
  apply readLE_congr
  intro a hlo hhi
  exact h a (by omega) (by omega)

/-- Memory outside the directory and its tables does not matter. -/
theorem tables_congr (h : ∀ a, s.TablePage T (a / 4096) → s'.mem a = s.mem a) :
    (∀ i < 1024, s'.table T i = s.table T i) ∧ ∀ v < 2 ^ 20, s'.entry T v = s.entry T v := by
  have haligned := T.directory_aligned
  have htable : ∀ i < 1024, s'.table T i = s.table T i := by
    intro i hi
    refine table_congr (fun a hlo hhi ↦ h a (Or.inl ?_)) hi
    omega
  refine ⟨htable, fun v hv ↦ ?_⟩
  have hslot : v / 1024 < 1024 := by omega
  rcases hold : s.table T (v / 1024) with - | t
  · rw [entry_of_none hold, entry_of_none ((htable _ hslot).trans hold)]
  · rw [entry_of_table hold, entry_of_table ((htable _ hslot).trans hold)]
    apply readLE_congr
    intro a hlo hhi
    have ht := table_aligned hold
    exact h a (Or.inr ⟨_, hslot, t, hold, by omega⟩)

theorem tablePage_congr (htable : ∀ i < 1024, s'.table T i = s.table T i) (p : ℕ) :
    s'.TablePage T p ↔ s.TablePage T p := by
  refine or_congr_right (exists_congr fun i ↦ and_congr_right fun hi ↦ ?_)
  rw [htable i hi]

theorem Ok.congr (h : s.Ok T) (htable : ∀ i < 1024, s'.table T i = s.table T i)
    (hused : ∀ p, s.TablePage T p → p ∉ s'.pmm.freePages) : s'.Ok T where
  used := fun p hp ↦ hused p ((tablePage_congr htable p).mp hp)
  pos := by
    intro i hi t ht
    rw [htable i hi] at ht
    exact h.pos i hi t ht
  apart := by
    intro i hi t ht
    rw [htable i hi] at ht
    exact h.apart i hi t ht
  distinct := by
    intro i hi j hj t hti htj
    rw [htable i hi] at hti
    rw [htable j hj] at htj
    exact h.distinct i hi j hj t hti htj

theorem Ok.take (h : s.Ok T) (p : ℕ) : ({ s with pmm := s.pmm.take p } : Mm).Ok T := by
  refine h.congr (fun i _ ↦ rfl) fun q hq hfree ↦ h.used q hq ?_
  rw [Pmm.freePages_take] at hfree
  exact Finset.mem_of_mem_erase hfree

/-! ## Page tables found and created -/

theorem slot_lt (h : virt < 2 ^ 32) : virt / 4096 / 1024 < 1024 := by omega

/-- The table of an address, as `get_pt` reads it from the directory. -/
theorem getPt_of_table (hvirt : virt < 2 ^ 32) (create : Bool)
    (h : s.table T (virt / 4096 / 1024) = some t) : s.getPt T virt create = (t, s) := by
  obtain ⟨f, hf, rfl⟩ := Option.map_eq_some_iff.mp h
  obtain ⟨hodd, rfl⟩ := frameOf_eq_some.mp hf
  have hword := frame_mask (read32_lt s.mem (T.pageDirectory + 4 * (virt / 4096 / 1024)))
  rw [getPt, pageDirIndex_eq hvirt, if_pos (present_ne_zero.mpr hodd), hword]

theorem not_present_of_table (h : s.table T i = none) :
    ¬s.mem.read32 (T.pageDirectory + 4 * i) &&& pagePresent ≠ 0 := by
  rw [present_ne_zero]
  intro hodd
  rw [table, frameOf, if_pos hodd] at h
  cases h

theorem getPt_of_none (hvirt : virt < 2 ^ 32) (h : s.table T (virt / 4096 / 1024) = none) :
    s.getPt T virt false = (0, s) := by
  rw [getPt, pageDirIndex_eq hvirt, if_neg (not_present_of_table h), if_pos rfl]

/-- What a new table changes: one empty slot of the directory holds it, and it has no
entries. -/
structure NewTable (T : Tables) (s s' : Mm) (i t : ℕ) : Prop where
  ok : s'.Ok T
  table : s'.table T i = some t
  other : ∀ k < 1024, k ≠ i → s'.table T k = s.table T k
  entry : ∀ v < 2 ^ 20, s'.entry T v = s.entry T v
  pos : t ≠ 0
  page : t / 4096 ∈ s.pmm.freePages
  lowest : ∀ q ∈ s.pmm.freePages, t / 4096 ≤ q
  pmm : s'.pmm = s.pmm.take (t / 4096)
  cleared : s'.cleared = t :: s.cleared
  pages : ∀ p, s'.TablePage T p ↔ s.TablePage T p ∨ p = t / 4096
  mem : ∀ a, ¬s.TablePage T (a / 4096) → a / 4096 ≠ t / 4096 → s'.mem a = s.mem a

/-- The directory of `s'` is that of `s` with table `t` in slot `i`. -/
structure Installed (T : Tables) (s s' : Mm) (i t : ℕ) : Prop where
  slot : s'.table T i = some t
  other : ∀ k < 1024, k ≠ i → s'.table T k = s.table T k

theorem Installed.cases {k u : ℕ} (h : Installed T s s' i t) (hk : k < 1024)
    (hu : s'.table T k = some u) : k = i ∧ u = t ∨ k ≠ i ∧ s.table T k = some u := by
  by_cases hki : k = i
  · subst hki
    rw [h.slot] at hu
    exact Or.inl ⟨rfl, (Option.some.inj hu).symm⟩
  · rw [h.other k hk hki] at hu
    exact Or.inr ⟨hki, hu⟩

theorem Installed.tablePage_iff (h : Installed T s s' i t) (hi : i < 1024)
    (hnone : s.table T i = none) (p : ℕ) :
    s'.TablePage T p ↔ s.TablePage T p ∨ p = t / 4096 := by
  constructor
  · rintro (rfl | ⟨k, hk, u, hu, rfl⟩)
    · exact Or.inl (Or.inl rfl)
    · rcases h.cases hk hu with ⟨-, rfl⟩ | ⟨-, hold⟩
      · exact Or.inr rfl
      · exact Or.inl (Or.inr ⟨k, hk, u, hold, rfl⟩)
  · rintro ((rfl | ⟨k, hk, u, hu, rfl⟩) | rfl)
    · exact Or.inl rfl
    · have hki : k ≠ i := by
        rintro rfl
        rw [hnone] at hu
        cases hu
      exact Or.inr ⟨k, hk, u, (h.other k hk hki).trans hu, rfl⟩
    · exact Or.inr ⟨i, hi, t, h.slot, rfl⟩

/-- A free page is neither the directory nor a table. -/
theorem Ok.fresh (h : s.Ok T) (hpage : t / 4096 ∈ s.pmm.freePages) :
    t ≠ T.pageDirectory ∧ ∀ k < 1024, ∀ u, s.table T k = some u → t ≠ u := by
  constructor
  · rintro rfl
    exact h.used _ (Or.inl rfl) hpage
  · rintro k hk u hu rfl
    exact h.used _ (Or.inr ⟨k, hk, t, hu, rfl⟩) hpage

theorem Ok.install (h : s.Ok T) (hin : Installed T s s' i t) (hi : i < 1024)
    (hnone : s.table T i = none) (hpos : t ≠ 0) (hpage : t / 4096 ∈ s.pmm.freePages)
    (hpmm : s'.pmm = s.pmm.take (t / 4096)) : s'.Ok T := by
  obtain ⟨hdir, hfresh⟩ := h.fresh hpage
  refine ⟨?_, ?_, ?_, ?_⟩
  · intro p hp
    rw [hpmm, Pmm.freePages_take, Finset.mem_erase, not_and_or, not_not]
    rcases (hin.tablePage_iff hi hnone p).mp hp with hold | hnew
    · exact Or.inr (h.used p hold)
    · exact Or.inl hnew
  · intro k hk u hu
    rcases hin.cases hk hu with ⟨-, rfl⟩ | ⟨-, hold⟩
    · exact hpos
    · exact h.pos k hk u hold
  · intro k hk u hu
    rcases hin.cases hk hu with ⟨-, rfl⟩ | ⟨-, hold⟩
    · exact hdir
    · exact h.apart k hk u hold
  · intro k hk j hj u hku hju
    rcases hin.cases hk hku with ⟨rfl, rfl⟩ | ⟨-, hkold⟩
    · rcases hin.cases hj hju with ⟨rfl, -⟩ | ⟨-, hjold⟩
      · rfl
      · exact absurd rfl (hfresh j hj u hjold)
    · rcases hin.cases hj hju with ⟨-, rfl⟩ | ⟨-, hjold⟩
      · exact absurd rfl (hfresh k hk u hkold)
      · exact h.distinct k hk j hj u hkold hjold

/-- The memory after a page has been cleared and installed as a table. -/
def withTable (T : Tables) (mem : Bytes) (i t : ℕ) : Bytes :=
  (mem.fillWords t (fun _ ↦ 0) 1024).write32 (T.pageDirectory + 4 * i) (t + 7)

theorem read32_withTable {k : ℕ} (h : s.Ok T) (ht : 4096 ∣ t)
    (hpage : t / 4096 ∈ s.pmm.freePages) (i : ℕ) (hk : k < 1024) :
    (withTable T s.mem i t).read32 (T.pageDirectory + 4 * k) =
      if k = i then t + 7 else s.mem.read32 (T.pageDirectory + 4 * k) := by
  have haligned := T.directory_aligned
  have hdir := (h.fresh hpage).1
  have hpage' := (Pmm.mem_freePages.mp hpage).1
  rw [totalPages] at hpage'
  rw [withTable]
  by_cases hki : k = i
  · rw [if_pos hki, hki]
    exact read32_write32 (by omega)
  · rw [if_neg hki, read32_write32_of_disjoint (by omega),
      read32_fillWords_of_disjoint (by omega)]

theorem installed_withTable (h : s.Ok T) (hi : i < 1024) (ht : 4096 ∣ t)
    (hpage : t / 4096 ∈ s.pmm.freePages) (hmem : s'.mem = withTable T s.mem i t) :
    Installed T s s' i t := by
  refine ⟨?_, fun k hk hki ↦ ?_⟩
  · have hword := read32_withTable h ht hpage i hi
    rw [if_pos rfl, ← hmem] at hword
    rw [table_of_word hword, frameOf_add_seven ht, Option.map_some, Nat.div_mul_cancel ht]
  · have hword := read32_withTable h ht hpage i hk
    rw [if_neg hki, ← hmem] at hword
    rw [table_of_word hword, table]

/-- The new table is empty, and the other tables are not touched. -/
theorem entry_withTable {v : ℕ} (h : s.Ok T) (hi : i < 1024) (hnone : s.table T i = none)
    (ht : 4096 ∣ t) (hpage : t / 4096 ∈ s.pmm.freePages)
    (hmem : s'.mem = withTable T s.mem i t) (hv : v < 2 ^ 20) :
    s'.entry T v = s.entry T v := by
  have haligned := T.directory_aligned
  obtain ⟨hdir, hfresh⟩ := h.fresh hpage
  have hin := installed_withTable h hi ht hpage hmem
  have hvslot : v / 1024 < 1024 := by omega
  by_cases hvi : v / 1024 = i
  · have hzero : s'.mem.read32 (t + 4 * (v % 1024)) = 0 := by
      have hapart := words_apart (j := v % 1024) (k := i) ht haligned hdir (by omega) hi
      rw [hmem, withTable, read32_write32_of_disjoint hapart]
      exact read32_fillWords (by omega) (by norm_num)
    rw [entry_of_table (hvi ▸ hin.slot), hzero, entry_of_none (hvi ▸ hnone)]
  · rcases hold : s.table T (v / 1024) with - | u
    · rw [entry_of_none ((hin.other _ hvslot hvi).trans hold), entry_of_none hold]
    · have hu := table_aligned hold
      have hne := hfresh _ hvslot u hold
      have hapart := words_apart (j := v % 1024) (k := i) hu haligned
        (h.apart _ hvslot u hold) (by omega) hi
      rw [entry_of_table ((hin.other _ hvslot hvi).trans hold), entry_of_table hold, hmem,
        withTable, read32_write32_of_disjoint hapart, read32_fillWords_of_disjoint (by omega)]

theorem newTable (h : s.Ok T) (hi : i < 1024) (hnone : s.table T i = none)
    (ht : 4096 ∣ t) (hpos : t ≠ 0) (hpage : t / 4096 ∈ s.pmm.freePages)
    (hlowest : ∀ q ∈ s.pmm.freePages, t / 4096 ≤ q) :
    NewTable T s
      { mem := withTable T s.mem i t
        pmm := s.pmm.take (t / 4096)
        cleared := t :: s.cleared } i t := by
  have hin : Installed T s ⟨withTable T s.mem i t, s.pmm.take (t / 4096), t :: s.cleared⟩ i t :=
    installed_withTable h hi ht hpage rfl
  refine ⟨h.install hin hi hnone hpos hpage rfl, hin.slot, hin.other,
    fun v hv ↦ entry_withTable h hi hnone ht hpage rfl hv, hpos, hpage, hlowest, rfl, rfl,
    hin.tablePage_iff hi hnone, ?_⟩
  intro a hnot hne
  have haligned := T.directory_aligned
  have hadir : a / 4096 ≠ T.pageDirectory / 4096 := fun heq ↦ hnot (Or.inl heq)
  dsimp only [withTable]
  rw [write32_apply_of_notMem (by omega), fillWords_apply_of_notMem (by omega)]

/-- `get_pt` with `create` finds the table, or makes one of the lowest free page, or fails:
then there is no page left, or page 0 is lost. -/
theorem getPt_create (h : s.Ok T) (hvirt : virt < 2 ^ 32) :
    (∃ t, s.table T (virt / 4096 / 1024) = some t ∧ s.getPt T virt true = (t, s)) ∨
      s.table T (virt / 4096 / 1024) = none ∧
        ((∃ t s', s.getPt T virt true = (t, s') ∧ NewTable T s s' (virt / 4096 / 1024) t) ∨
          s.getPt T virt true = (0, { s with pmm := s.pmm.pmmAlloc.2 }) ∧
            s.pmm.pmmAlloc.1 = 0) := by
  rcases hold : s.table T (virt / 4096 / 1024) with - | t
  · refine Or.inr ⟨rfl, ?_⟩
    rw [getPt, pageDirIndex_eq hvirt, if_neg (not_present_of_table hold), if_neg (by simp)]
    by_cases hnull : s.pmm.pmmAlloc.1 = 0
    · exact Or.inr ⟨if_pos hnull, hnull⟩
    · refine Or.inl ⟨_, _, if_neg hnull, ?_⟩
      rcases s.pmm.pmmAlloc_spec with ⟨-, hzero⟩ | ⟨p, hp, hlowest, hsome⟩
      · rw [hzero] at hnull
        exact absurd rfl hnull
      · have hdvd : 4096 ∣ p * pageSize := Nat.dvd_mul_left _ _
        have hdiv : p * pageSize / 4096 = p := Pmm.page_mul_div p
        rw [hsome] at hnull ⊢
        have hnew := newTable (t := p * pageSize) h (slot_lt hvirt) hold hdvd hnull
          (by rwa [hdiv]) (by rwa [hdiv])
        rw [table_word hdvd]
        rwa [hdiv] at hnew
  · exact Or.inl ⟨t, rfl, getPt_of_table hvirt true hold⟩

/-! ## One entry written -/

/-- The word at index `j` of the table of slot `i` is the entry of page `1024 * i + j`. -/
theorem entry_write (h : s.Ok T) (hv : v < 2 ^ 20) (ht : s.table T (v / 1024) = some t)
    (he : e < 2 ^ 32) {pmm : Pmm} {cleared : List ℕ}
    (hs' : s' = ⟨s.mem.write32 (t + 4 * (v % 1024)) e, pmm, cleared⟩) :
    (∀ i < 1024, s'.table T i = s.table T i) ∧
      ∀ w < 2 ^ 20, s'.entry T w = if w = v then e else s.entry T w := by
  have hslot : v / 1024 < 1024 := by omega
  have haligned := T.directory_aligned
  have hta := table_aligned ht
  have htd := h.apart _ hslot t ht
  have hmem : s'.mem = s.mem.write32 (t + 4 * (v % 1024)) e := by rw [hs']
  have htable : ∀ i < 1024, s'.table T i = s.table T i := by
    intro i hi
    refine table_congr (fun a hlo hhi ↦ ?_) hi
    rw [hmem, write32_apply_of_notMem]
    omega
  refine ⟨htable, fun w hw ↦ ?_⟩
  have hwslot : w / 1024 < 1024 := by omega
  split
  case isTrue hwv =>
    subst hwv
    rw [entry_of_table ((htable _ hslot).trans ht), hmem]
    exact read32_write32 he
  case isFalse hwv =>
    rcases hold : s.table T (w / 1024) with - | u
    · rw [entry_of_none ((htable _ hwslot).trans hold), entry_of_none hold]
    · rw [entry_of_table ((htable _ hwslot).trans hold), entry_of_table hold, hmem]
      apply read32_write32_of_disjoint
      by_cases hsame : w / 1024 = v / 1024
      · rw [hsame, ht] at hold
        cases hold
        omega
      · have hne : u ≠ t := by
          rintro rfl
          exact hsame (h.distinct _ hwslot _ hslot u hold ht)
        exact words_apart (table_aligned hold) hta hne (by omega) (by omega)

/-- What `vmm_get_phys` reads is the map of both levels. -/
theorem vmmGetPhys_eq (h : s.Ok T) (ha : a < 2 ^ 32) :
    s.vmmGetPhys T a =
      match s.mapping T (a / 4096) with
      | some f => f * 4096 + a % 4096
      | none => 0xFFFFFFFF := by
  rw [vmmGetPhys]
  rcases hold : s.table T (a / 4096 / 1024) with - | t
  · rw [getPt_of_none ha hold, if_pos rfl, mapping, entry_of_none hold]
    rfl
  · have hpos := h.pos _ (slot_lt ha) t hold
    rw [getPt_of_table ha false hold, if_neg hpos, mapping, entry_of_table hold,
      pageTblIndex_eq, pageOffset_eq]
    generalize hpte : s.mem.read32 (t + 4 * (a / 4096 % 1024)) = pte
    have hlt : pte < 2 ^ 32 := hpte ▸ read32_lt _ _
    by_cases hodd : pte % 2 = 1
    · rw [if_neg (present_ne_zero.mpr hodd), frameOf, if_pos hodd, frame_mask hlt]
      exact Word.or_eq_add (k := 12) (Nat.dvd_mul_left _ _) (Nat.mod_lt _ (by norm_num))
    · rw [if_pos (not_not.mp (mt present_ne_zero.mp hodd)), frameOf, if_neg hodd]

/-! ## Mapping and unmapping -/

/-- A failed `vmm_map` takes at most a page that nobody can use: the tables stay as they are. -/
structure Unmapped (T : Tables) (s s' : Mm) : Prop where
  mem : s'.mem = s.mem
  cleared : s'.cleared = s.cleared
  pmm : s'.pmm = s.pmm ∨ s'.pmm = s.pmm.pmmAlloc.2 ∧ s.pmm.pmmAlloc.1 = 0

/-- The frames that `vmm_map` takes for the page `v`: one if there is no table for it. -/
def tableCost (T : Tables) (s : Mm) (v : ℕ) : ℕ := if s.table T (v / 1024) = none then 1 else 0

/-- A `vmm_map` that succeeds: the map has changed at one page, and memory only in a table. -/
structure Mapped (T : Tables) (s s' : Mm) (v f : ℕ) : Prop where
  ok : s'.Ok T
  mapping : ∀ w < 2 ^ 20, s'.mapping T w = if w = v then some f else s.mapping T w
  grown : s'.pmm = s.pmm ∧ s'.cleared = s.cleared ∧ (∀ p, s'.TablePage T p ↔ s.TablePage T p) ∨
    ∃ t, t / 4096 ∈ s.pmm.freePages ∧ (∀ q ∈ s.pmm.freePages, t / 4096 ≤ q) ∧ t ≠ 0 ∧
      s'.pmm = s.pmm.take (t / 4096) ∧ s'.cleared = t :: s.cleared ∧
      ∀ p, s'.TablePage T p ↔ s.TablePage T p ∨ p = t / 4096
  spent : s'.pmm.freePages.card + s.tableCost T v = s.pmm.freePages.card
  slots : ∀ i < 1024, (s'.table T i = none ↔ s.table T i = none ∧ i ≠ v / 1024)
  mem : ∀ a, ¬s'.TablePage T (a / 4096) → s'.mem a = s.mem a

theorem Unmapped.table (h : Unmapped T s s') (i : ℕ) : s'.table T i = s.table T i := by
  rw [Mm.table, Mm.table, h.mem]

theorem Unmapped.mapping (h : Unmapped T s s') (v : ℕ) : s'.mapping T v = s.mapping T v := by
  rw [Mm.mapping, Mm.mapping, entry, entry, h.table, h.mem]

theorem Unmapped.freePages (h : Unmapped T s s') : s'.pmm.freePages ⊆ s.pmm.freePages := by
  rcases h.pmm with hsame | ⟨hsame, -⟩
  · rw [hsame]
  · rw [hsame]
    rcases s.pmm.pmmAlloc_spec with ⟨-, hnone⟩ | ⟨p, -, -, hsome⟩
    · rw [hnone]
    · rw [hsome, Pmm.freePages_take]
      exact Finset.erase_subset _ _

theorem Unmapped.ok (h : Unmapped T s s') (hs : s.Ok T) : s'.Ok T :=
  hs.congr (fun i _ ↦ h.table i) fun p hp hfree ↦ hs.used p hp (h.freePages hfree)

/-- The tables that `vmm_map` creates, at most one. -/
theorem Mapped.new_tables (h : Mapped T s s' v f) :
    ∃ N ⊆ s.pmm.freePages, (∀ q, s'.TablePage T q ↔ s.TablePage T q ∨ q ∈ N) ∧
      s'.pmm.freePages = s.pmm.freePages \ N := by
  rcases h.grown with ⟨hpmm, -, hpages⟩ | ⟨t, hmem, -, -, hpmm, -, hpages⟩
  · refine ⟨∅, Finset.empty_subset _, fun q ↦ ?_, ?_⟩
    · rw [hpages q]
      simp
    · rw [hpmm, Finset.sdiff_empty]
  · refine ⟨{t / 4096}, Finset.singleton_subset_iff.mpr hmem, fun q ↦ ?_, ?_⟩
    · rw [hpages q, Finset.mem_singleton]
    · rw [hpmm, Pmm.freePages_take, Finset.sdiff_singleton_eq_erase]

/-- One entry written into a table that is there. -/
theorem mapped_of_table (h : s.Ok T) (hv : v < 2 ^ 20) (ht : s.table T (v / 1024) = some t)
    (he : e < 2 ^ 32) (hs' : s' = { s with mem := s.mem.write32 (t + 4 * (v % 1024)) e }) :
    s'.Ok T ∧ (∀ w < 2 ^ 20, s'.mapping T w = if w = v then frameOf e else s.mapping T w) ∧
      (∀ i < 1024, s'.table T i = s.table T i) ∧
      ∀ a, ¬s.TablePage T (a / 4096) → s'.mem a = s.mem a := by
  obtain ⟨htable, hentry⟩ := entry_write h hv ht he hs'
  have hslot : v / 1024 < 1024 := by omega
  refine ⟨h.congr htable (by rw [hs']; exact h.used), fun w hw ↦ ?_, htable, fun a ha ↦ ?_⟩
  · rw [mapping, hentry w hw]
    split <;> rfl
  · have hta := table_aligned ht
    have hpage : a / 4096 ≠ t / 4096 := fun heq ↦ ha (Or.inr ⟨_, hslot, t, ht, heq⟩)
    rw [hs']
    exact write32_apply_of_notMem (by omega)

/-- `vmm_map` either changes nothing but the allocator, or sets the frame of its page. -/
theorem vmmMap_spec (h : s.Ok T) (hvirt : virt < 2 ^ 32) (hphys : phys < 2 ^ 32) (flags : ℕ) :
    (s.vmmMap T virt phys flags).1 = -1 ∧ Unmapped T s (s.vmmMap T virt phys flags).2 ∨
      (s.vmmMap T virt phys flags).1 = 0 ∧ 4096 ∣ virt ∧ 4096 ∣ phys ∧
        Mapped T s (s.vmmMap T virt phys flags).2 (virt / 4096) (phys / 4096) := by
  rw [vmmMap]
  by_cases haligned : (virt ||| phys) &&& 0xFFF = 0
  · rw [if_neg (not_not.mpr haligned)]
    obtain ⟨hva, hpa⟩ := aligned_iff.mp haligned
    obtain ⟨hword, hframe⟩ := mapped_word hphys hpa flags
    have hv : virt / 4096 < 2 ^ 20 := by omega
    rw [pageTblIndex_eq]
    rcases getPt_create h hvirt with
      ⟨t, ht, hget⟩ | ⟨hnone, ⟨t, s₁, hget, hnew⟩ | ⟨hget, hnull⟩⟩
    · simp only [hget, if_neg (h.pos _ (slot_lt hvirt) t ht)]
      obtain ⟨hok, hmap, htable, hmem⟩ := mapped_of_table h hv ht hword rfl
      have hpages := tablePage_congr htable
      refine Or.inr ⟨trivial, hva, hpa, hok, fun w hw ↦ ?_, Or.inl ⟨rfl, rfl, hpages⟩, ?_,
        fun i hi ↦ ?_, fun a ha ↦ hmem a (mt (hpages _).mpr ha)⟩
      · rw [hmap w hw, hframe]
      · rw [tableCost, ht, if_neg (by simp)]
        exact Nat.add_zero _
      · rw [htable i hi]
        refine ⟨fun hnone ↦ ⟨hnone, ?_⟩, And.left⟩
        rintro rfl
        rw [ht] at hnone
        cases hnone
    · simp only [hget, if_neg hnew.pos]
      obtain ⟨hok, hmap, htable, hmem⟩ := mapped_of_table hnew.ok hv hnew.table hword rfl
      have hpages := tablePage_congr htable
      refine Or.inr ⟨trivial, hva, hpa, hok, fun w hw ↦ ?_, Or.inr ⟨t, hnew.page, hnew.lowest,
        hnew.pos, hnew.pmm, hnew.cleared, fun p ↦ (hpages p).trans (hnew.pages p)⟩, ?_,
        fun i hi ↦ ?_, ?_⟩
      · rw [hmap w hw, hframe, Mm.mapping, Mm.mapping, hnew.entry w hw]
      · rw [hnew.pmm, Pmm.freePages_take, tableCost, if_pos hnone]
        exact Finset.card_erase_add_one hnew.page
      · rw [htable i hi]
        by_cases hslot : i = virt / 4096 / 1024
        · rw [hslot, hnew.table]
          exact iff_of_false (by simp) fun hand ↦ hand.2 rfl
        · rw [hnew.other i hi hslot]
          exact (and_iff_left hslot).symm
      · intro a ha
        have hold : ¬s₁.TablePage T (a / 4096) := mt (hpages _).mpr ha
        rw [hnew.pages, not_or] at hold
        rw [hmem a (mt (hpages _).mpr ha), hnew.mem a hold.1 hold.2]
    · simp only [hget, if_true]
      exact Or.inl ⟨trivial, rfl, rfl, Or.inr ⟨rfl, hnull⟩⟩
  · rw [if_pos haligned]
    exact Or.inl ⟨rfl, rfl, rfl, Or.inl rfl⟩

/-- With aligned addresses `vmm_map` fails only for want of a frame for the table. -/
theorem card_lt_of_vmmMap (h : s.Ok T) (hzero : 0 ∉ s.pmm.freePages) (hvirt : virt < 2 ^ 32)
    (hva : 4096 ∣ virt) (hpa : 4096 ∣ phys) {flags : ℕ}
    (hcode : (s.vmmMap T virt phys flags).1 = -1) :
    s.pmm.freePages.card < s.tableCost T (virt / 4096) := by
  rw [vmmMap, if_neg (not_not.mpr (aligned_iff.mpr ⟨hva, hpa⟩))] at hcode
  rcases getPt_create h hvirt with
    ⟨t, ht, hget⟩ | ⟨hnone, ⟨t, s₁, hget, hnew⟩ | ⟨-, hnull⟩⟩
  · simp only [hget, if_neg (h.pos _ (slot_lt hvirt) t ht)] at hcode
    cases hcode
  · simp only [hget, if_neg hnew.pos] at hcode
    cases hcode
  · rw [tableCost, if_pos hnone, Nat.lt_one_iff, Finset.card_eq_zero]
    exact s.pmm.freePages_eq_empty hzero hnull

/-- A `vmm_map` for which there is no table succeeds exactly if a frame is left, and takes it. -/
theorem vmmMap_takes (h : s.Ok T) (hzero : 0 ∉ s.pmm.freePages) (hvirt : virt < 2 ^ 32)
    (hphys : phys < 2 ^ 32) (hva : 4096 ∣ virt) (hpa : 4096 ∣ phys) (flags : ℕ)
    (hnone : s.table T (virt / 4096 / 1024) = none) :
    ((s.vmmMap T virt phys flags).1 = 0 ↔ s.pmm.freePages.card ≠ 0) ∧
      ((s.vmmMap T virt phys flags).1 = 0 →
        (s.vmmMap T virt phys flags).2.pmm.freePages.card + 1 = s.pmm.freePages.card ∧
        0 ∉ (s.vmmMap T virt phys flags).2.pmm.freePages ∧
        ∀ i < 1024, ((s.vmmMap T virt phys flags).2.table T i = none ↔
          s.table T i = none ∧ i ≠ virt / 4096 / 1024)) := by
  have hcost : s.tableCost T (virt / 4096) = 1 := if_pos hnone
  rcases vmmMap_spec h hvirt hphys flags with ⟨hcode, -⟩ | ⟨hcode, -, -, hmapped⟩
  · have hlt := card_lt_of_vmmMap h hzero hvirt hva hpa hcode
    rw [hcode]
    refine ⟨iff_of_false (by norm_num) (by omega), fun hne ↦ absurd hne (by norm_num)⟩
  · have hspent := hmapped.spent
    obtain ⟨N, -, -, hpages⟩ := hmapped.new_tables
    refine ⟨iff_of_true hcode (by omega), fun _ ↦ ⟨by omega, fun hmem ↦ ?_, hmapped.slots⟩⟩
    rw [hpages] at hmem
    exact hzero (Finset.mem_sdiff.mp hmem).1

theorem vmmUnmap_spec (h : s.Ok T) (hvirt : virt < 2 ^ 32) :
    (s.vmmUnmap T virt).Ok T ∧
      (∀ w < 2 ^ 20,
        (s.vmmUnmap T virt).mapping T w = if w = virt / 4096 then none else s.mapping T w) ∧
      (∀ i < 1024, (s.vmmUnmap T virt).table T i = s.table T i) ∧
      ∀ a, ¬s.TablePage T (a / 4096) → (s.vmmUnmap T virt).mem a = s.mem a := by
  have hv : virt / 4096 < 2 ^ 20 := by omega
  rw [vmmUnmap]
  rcases hold : s.table T (virt / 4096 / 1024) with - | t
  · rw [getPt_of_none hvirt hold, if_pos rfl]
    refine ⟨h, fun w hw ↦ ?_, fun i _ ↦ rfl, fun a _ ↦ rfl⟩
    split
    case isTrue hwv => rw [hwv, mapping, entry_of_none hold, frameOf_zero]
    case isFalse => rfl
  · rw [getPt_of_table hvirt false hold, if_neg (h.pos _ (slot_lt hvirt) t hold), pageTblIndex_eq]
    exact mapped_of_table h hv hold (by norm_num) rfl

@[simp] theorem vmmUnmap_pmm : (s.vmmUnmap T virt).pmm = s.pmm := by
  rw [vmmUnmap]
  split <;> rfl

@[simp] theorem vmmUnmap_cleared : (s.vmmUnmap T virt).cleared = s.cleared := by
  rw [vmmUnmap]
  split <;> rfl

/-! ## After `paging_init` -/

/-- The words of the directory after `paging_init`. -/
theorem pagingInit_directory (T : Tables) (s : Mm) (hi : i < 1024) :
    (s.pagingInit T).mem.read32 (T.pageDirectory + 4 * i)
      = if i = 0 then T.firstPageTable + 7 else 0 := by
  have haligned := T.directory_aligned
  have htaligned := T.table_aligned
  have hdistinct := T.distinct
  have hlow := T.table_low
  rw [pagingInit, static_word htaligned]
  split
  case isTrue hzero =>
    subst hzero
    exact read32_write32 (by omega)
  case isFalse hzero =>
    rw [read32_write32_of_disjoint (by omega), read32_fillWords_of_disjoint (by omega)]
    exact read32_fillWords hi (by norm_num)

/-- The words of the first table. -/
theorem pagingInit_first (T : Tables) (s : Mm) (hv : v < 1024) :
    (s.pagingInit T).mem.read32 (T.firstPageTable + 4 * v) = v * 4096 + 7 := by
  have haligned := T.directory_aligned
  have htaligned := T.table_aligned
  have hdistinct := T.distinct
  have hword : Word.mul v 0x1000 ||| pageRw ||| pageUser ||| pagePresent = v * 4096 + 7 := by
    rw [static_word (by rw [Word.mul_eq (by omega)]; omega), Word.mul_eq (by omega)]
  rw [pagingInit, read32_write32_of_disjoint (by omega), read32_fillWords hv (by rw [hword]; omega),
    hword]

theorem pagingInit_table (T : Tables) (s : Mm) (hi : i < 1024) :
    (s.pagingInit T).table T i = if i = 0 then some T.firstPageTable else none := by
  rw [table_of_word (pagingInit_directory T s hi)]
  split
  · rw [frameOf_add_seven T.table_aligned, Option.map_some, Nat.div_mul_cancel T.table_aligned]
  · rfl

theorem pagingInit_entry (T : Tables) (s : Mm) (hv : v < 2 ^ 20) :
    (s.pagingInit T).entry T v = if v < 1024 then v * 4096 + 7 else 0 := by
  have hslot := pagingInit_table T s (i := v / 1024) (by omega)
  by_cases hsmall : v < 1024
  · rw [if_pos (by omega)] at hslot
    rw [entry_of_table hslot, Nat.mod_eq_of_lt hsmall, pagingInit_first T s hsmall, if_pos hsmall]
  · rw [if_neg (by omega)] at hslot
    rw [entry_of_none hslot, if_neg hsmall]

theorem pagingInit_spec (T : Tables) (s : Mm) (hdir : T.pageDirectory / 4096 ∉ s.pmm.freePages)
    (hfirst : T.firstPageTable / 4096 ∉ s.pmm.freePages) :
    (s.pagingInit T).Ok T ∧
      ∀ v < 2 ^ 20, (s.pagingInit T).mapping T v = if v < 1024 then some v else none := by
  have honly : ∀ i < 1024, ∀ t, (s.pagingInit T).table T i = some t →
      i = 0 ∧ t = T.firstPageTable := by
    intro i hi t ht
    rw [pagingInit_table T s hi] at ht
    split at ht
    case isTrue hzero => exact ⟨hzero, (Option.some.inj ht).symm⟩
    case isFalse => cases ht
  refine ⟨⟨?_, ?_, ?_, ?_⟩, fun v hv ↦ ?_⟩
  · rintro p (rfl | ⟨i, hi, t, ht, rfl⟩)
    · exact hdir
    · obtain ⟨-, rfl⟩ := honly i hi t ht
      exact hfirst
  · intro i hi t ht
    rw [(honly i hi t ht).2]
    exact T.table_pos
  · intro i hi t ht
    rw [(honly i hi t ht).2]
    exact T.distinct
  · intro i hi j hj t hti htj
    rw [(honly i hi t hti).1, (honly j hj t htj).1]
  · rw [mapping, pagingInit_entry T s hv]
    split
    · rw [frameOf_add_seven (Nat.dvd_mul_left _ _), Nat.mul_div_cancel v (by norm_num)]
    · exact frameOf_zero

end Mm

/-! ## The flat map -/

/-- A map from pages to frames. -/
abbrev Flat := ℕ → Option ℕ

namespace Flat

/-- The first 1024 pages, each on its own frame. -/
def identity : Flat := fun v ↦ if v < 1024 then some v else none

def lookup (φ : Flat) (a : ℕ) : ℕ :=
  match φ (a / 4096) with
  | some f => f * 4096 + a % 4096
  | none => 0xFFFFFFFF

end Flat

/-- The states after `paging_init` under calls of `vmm_map` and `vmm_unmap`, beside the flat map
that each of them should leave.  Between two calls, memory and the allocator may change in any
way that leaves the tables and their pages alone. -/
inductive Paged (T : Tables) : Mm → Flat → Prop
  | init (s : Mm) : T.pageDirectory / 4096 ∉ s.pmm.freePages →
      T.firstPageTable / 4096 ∉ s.pmm.freePages → Paged T (s.pagingInit T) Flat.identity
  | map {s : Mm} {φ : Flat} {virt phys : ℕ} (flags : ℕ) : Paged T s φ → virt < 2 ^ 32 →
      phys < 2 ^ 32 →
      Paged T (s.vmmMap T virt phys flags).2
        (if (s.vmmMap T virt phys flags).1 = 0 then
          Function.update φ (virt / 4096) (some (phys / 4096)) else φ)
  | unmap {s : Mm} {φ : Flat} {virt : ℕ} : Paged T s φ → virt < 2 ^ 32 →
      Paged T (s.vmmUnmap T virt) (Function.update φ (virt / 4096) none)
  | other {s s' : Mm} {φ : Flat} : Paged T s φ →
      (∀ a, s.TablePage T (a / 4096) → s'.mem a = s.mem a) →
      (∀ p, s.TablePage T p → p ∉ s'.pmm.freePages) → Paged T s' φ

variable {φ : Flat}

theorem Paged.refines (h : Paged T s φ) : s.Ok T ∧ ∀ v < 2 ^ 20, s.mapping T v = φ v := by
  induction h with
  | init s hdir hfirst => exact Mm.pagingInit_spec T s hdir hfirst
  | map flags _ hvirt hphys ih =>
      obtain ⟨hok, hmap⟩ := ih
      rcases Mm.vmmMap_spec hok hvirt hphys flags with ⟨hr, hsame⟩ | ⟨hr, -, -, hmapped⟩
      · rw [hr, if_neg (by norm_num)]
        refine ⟨hsame.ok hok, fun v hv ↦ ?_⟩
        rw [hsame.mapping, hmap v hv]
      · rw [hr, if_pos rfl]
        refine ⟨hmapped.ok, fun v hv ↦ ?_⟩
        rw [hmapped.mapping v hv, Function.update_apply, hmap v hv]
  | unmap _ hvirt ih =>
      obtain ⟨hok, hmap⟩ := ih
      obtain ⟨hok', hmap', -⟩ := Mm.vmmUnmap_spec hok hvirt
      refine ⟨hok', fun v hv ↦ ?_⟩
      rw [hmap' v hv, Function.update_apply, hmap v hv]
  | other _ hmem hused ih =>
      obtain ⟨hok, hmap⟩ := ih
      obtain ⟨htable, hentry⟩ := Mm.tables_congr hmem
      refine ⟨hok.congr htable hused, fun v hv ↦ ?_⟩
      rw [Mm.mapping, hentry v hv]
      exact hmap v hv

theorem Mm.vmmGetPhys_congr (hs : s.Ok T) (hs' : s'.Ok T) (ha : a < 2 ^ 32)
    (h : s'.mapping T (a / 4096) = s.mapping T (a / 4096)) :
    s'.vmmGetPhys T a = s.vmmGetPhys T a := by
  rw [vmmGetPhys_eq hs' ha, vmmGetPhys_eq hs ha, h]

/-- The two levels of tables, reached at their physical addresses, are the flat map, and a
`vmm_map` that fails changes no translation. -/
theorem tables_refine_flat (h : Paged T s φ) :
    (∀ a < 2 ^ 32, s.vmmGetPhys T a = φ.lookup a) ∧
      ∀ virt phys flags, virt < 2 ^ 32 → phys < 2 ^ 32 → (s.vmmMap T virt phys flags).1 ≠ 0 →
        (s.vmmMap T virt phys flags).1 = -1 ∧
          ∀ a < 2 ^ 32, (s.vmmMap T virt phys flags).2.vmmGetPhys T a = s.vmmGetPhys T a := by
  obtain ⟨hok, hmap⟩ := h.refines
  refine ⟨fun a ha ↦ ?_, fun virt phys flags hvirt hphys hne ↦ ?_⟩
  · rw [Mm.vmmGetPhys_eq hok ha, hmap (a / 4096) (by omega), Flat.lookup]
  · rcases Mm.vmmMap_spec hok hvirt hphys flags with ⟨hr, hsame⟩ | ⟨hr, -⟩
    · refine ⟨hr, fun a ha ↦ ?_⟩
      exact Mm.vmmGetPhys_congr hok (hsame.ok hok) ha (hsame.mapping _)
    · exact absurd hr hne

/-- After `pmm_init` the pages of the static tables are not free. -/
theorem low_not_free (m : Pmm) (table : List E820Entry) (ha : a < 0x100000) :
    a / 4096 ∉ (m.pmmInit table).freePages := by
  intro hfree
  have hhigh := (m.pmmInit_spec table).2.2 _ hfree
  omega

/-- The start of `kmain`: `pmm_init`, then `paging_init`. -/
def Mm.boot (T : Tables) (m : Pmm) (table : List E820Entry) (mem : Bytes) : Mm :=
  ({ mem := mem, pmm := m.pmmInit table, cleared := [] } : Mm).pagingInit T

theorem Mm.boot_pmm (T : Tables) (m : Pmm) (table : List E820Entry) (mem : Bytes) :
    (Mm.boot T m table mem).pmm = m.pmmInit table := by
  rw [Mm.boot, Mm.pagingInit]

theorem Paged.boot (T : Tables) (m : Pmm) (table : List E820Entry) (mem : Bytes) :
    Paged T (Mm.boot T m table mem) Flat.identity := by
  have hdir := low_not_free m table T.directory_low
  have hfirst := low_not_free m table T.table_low
  rw [Mm.boot]
  generalize m.pmmInit table = pmm at hdir hfirst
  exact .init _ hdir hfirst

/-- The tables at 0x20000 and 0x21000. -/
def lowTables : Tables where
  pageDirectory := 0x20000
  firstPageTable := 0x21000
  directory_aligned := by decide
  table_aligned := by decide
  directory_low := by decide
  table_low := by decide
  table_pos := by decide
  distinct := by decide

/-- Blank memory with two free pages at 1 MB. -/
def twoFrames : Mm := Mm.boot lowTables Pmm.unset Pmm.twoPages fun _ ↦ 0

theorem twoFrames_paged : Paged lowTables twoFrames Flat.identity :=
  Paged.boot lowTables Pmm.unset Pmm.twoPages fun _ ↦ 0

theorem twoFrames_zero : 0 ∉ twoFrames.pmm.freePages := by
  rw [twoFrames, Mm.boot_pmm]
  exact low_not_free Pmm.unset Pmm.twoPages (a := 0) (by norm_num)

theorem twoFrames_card : twoFrames.pmm.freePages.card = 2 := by
  have hcount := (Pmm.unset.pmmInit_spec Pmm.twoPages).1
  rw [Pmm.Counted] at hcount
  rw [twoFrames, Mm.boot_pmm, ← hcount]
  decide +kernel

theorem twoFrames_tables {i : ℕ} (hpos : i ≠ 0) (hi : i < 1024) :
    twoFrames.table lowTables i = none := by
  rw [twoFrames, Mm.boot, Mm.pagingInit_table _ _ hi, if_neg hpos]

/-- A page is mapped, and the first frame becomes its table. -/
def oneFrame : Mm := (twoFrames.vmmMap lowTables 0x800000 0x5000 pageRw).2

theorem oneFrame_spec : (twoFrames.vmmMap lowTables 0x800000 0x5000 pageRw).1 = 0 ∧
    oneFrame.pmm.freePages.card = 1 ∧ 0 ∉ oneFrame.pmm.freePages ∧
    ∀ i < 1024, (oneFrame.table lowTables i = none ↔
      twoFrames.table lowTables i = none ∧ i ≠ 2) := by
  obtain ⟨hiff, htaken⟩ := Mm.vmmMap_takes twoFrames_paged.refines.1 twoFrames_zero
    (show 0x800000 < 2 ^ 32 by norm_num) (show 0x5000 < 2 ^ 32 by norm_num) (by norm_num)
    (by norm_num) pageRw (twoFrames_tables (by norm_num) (by norm_num))
  have hcode := hiff.mpr (by rw [twoFrames_card]; norm_num)
  rw [← oneFrame, twoFrames_card] at htaken
  obtain ⟨hcard, hzero, hslots⟩ := htaken hcode
  have hone : ∀ n, n + 1 = 2 → n = 1 := by omega
  exact ⟨hcode, hone _ hcard, hzero, hslots⟩

/-- A second page takes the other frame. -/
def noFrame : Mm := (oneFrame.vmmMap lowTables 0xC00000 0x6000 pageRw).2

theorem oneFrame_paged :
    Paged lowTables oneFrame (Function.update Flat.identity 0x800 (some 5)) := by
  have hmap := twoFrames_paged.map pageRw (show 0x800000 < 2 ^ 32 by norm_num)
    (show 0x5000 < 2 ^ 32 by norm_num)
  rwa [if_pos oneFrame_spec.1] at hmap

theorem noFrame_spec : (oneFrame.vmmMap lowTables 0xC00000 0x6000 pageRw).1 = 0 ∧
    noFrame.pmm.freePages.card = 0 ∧ 0 ∉ noFrame.pmm.freePages ∧
    noFrame.table lowTables 4 = none := by
  obtain ⟨-, hcard, hzero, hslots⟩ := oneFrame_spec
  have hfree : ∀ i, 2 < i → i < 1024 → oneFrame.table lowTables i = none := fun i hlo hhi ↦
    (hslots i hhi).mpr ⟨twoFrames_tables (by omega) hhi, by omega⟩
  obtain ⟨hiff, htaken⟩ := Mm.vmmMap_takes oneFrame_paged.refines.1 hzero
    (show 0xC00000 < 2 ^ 32 by norm_num) (show 0x6000 < 2 ^ 32 by norm_num) (by norm_num)
    (by norm_num) pageRw (hfree 3 (by norm_num) (by norm_num))
  have hcode := hiff.mpr (by rw [hcard]; norm_num)
  rw [← noFrame, hcard] at htaken
  obtain ⟨hcard', hzero', hslots'⟩ := htaken hcode
  have hnone : ∀ n, n + 1 = 1 → n = 0 := by omega
  exact ⟨hcode, hnone _ hcard', hzero', (hslots' 4 (by norm_num)).mpr
    ⟨hfree 4 (by norm_num) (by norm_num), by norm_num⟩⟩

theorem noFrame_paged : Paged lowTables noFrame
    (Function.update (Function.update Flat.identity 0x800 (some 5)) 0xC00 (some 6)) := by
  have hmap := oneFrame_paged.map pageRw (show 0xC00000 < 2 ^ 32 by norm_num)
    (show 0x6000 < 2 ^ 32 by norm_num)
  rwa [if_pos noFrame_spec.1] at hmap

/-- The first page is unmapped, and no frame is left for the table of a third one. -/
theorem tables_refine_flat_spent :
    (∀ a < 2 ^ 32, (noFrame.vmmUnmap lowTables 0x800000).vmmGetPhys lowTables a =
        Flat.lookup (Function.update (Function.update
          (Function.update Flat.identity 0x800 (some 5)) 0xC00 (some 6)) 0x800 none) a) ∧
      ((noFrame.vmmUnmap lowTables 0x800000).vmmMap lowTables 0x1000000 0x7000 pageRw).1 = -1 ∧
      ∀ a < 2 ^ 32, ((noFrame.vmmUnmap lowTables 0x800000).vmmMap lowTables 0x1000000 0x7000
        pageRw).2.vmmGetPhys lowTables a =
          (noFrame.vmmUnmap lowTables 0x800000).vmmGetPhys lowTables a := by
  have hpaged := noFrame_paged.unmap (show 0x800000 < 2 ^ 32 by norm_num)
  obtain ⟨-, hcard, hzero, hnone⟩ := noFrame_spec
  have htables := (Mm.vmmUnmap_spec noFrame_paged.refines.1
    (show 0x800000 < 2 ^ 32 by norm_num)).2.2.1
  obtain ⟨hiff, -⟩ := Mm.vmmMap_takes hpaged.refines.1 (by rwa [Mm.vmmUnmap_pmm])
    (show 0x1000000 < 2 ^ 32 by norm_num) (show 0x7000 < 2 ^ 32 by norm_num) (by norm_num)
    (by norm_num) pageRw ((htables 4 (by norm_num)).trans hnone)
  obtain ⟨hlookup, hfails⟩ := tables_refine_flat hpaged
  refine ⟨hlookup, hfails 0x1000000 0x7000 pageRw (by norm_num) (by norm_num) fun hcode ↦ ?_⟩
  have hne := hiff.mp hcode
  rw [Mm.vmmUnmap_pmm] at hne
  exact hne hcard

end MyOS
