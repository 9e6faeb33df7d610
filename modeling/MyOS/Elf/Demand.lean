import MyOS.Elf.Contents
import MyOS.Elf.Reads
import MyOS.Heap.Contract

/-!
# The frames that a load takes

A page takes a frame, and another one if the directory has no table for it.  The loader takes them
in the order of the headers, so that the fields of the file and the number of free frames tell
beforehand which headers it gets to and which pages are loaded.  That settles which bytes it reads.
-/

namespace MyOS.Elf

open Bytes Mm Heap

variable {T : Tables} {m₀ m m' : Mm} {s s' : Sys} {F : File} {ph : Phdr} {img img' : UserImage}
  {N : Finset ℕ} {P Q : List ℕ} {V v p n i j k : ℕ}

/-! ## Counting frames -/

/-- The slots of the directory that lack a table for the pages `P`. -/
def newSlots (T : Tables) (m : Mm) (P : List ℕ) : Finset ℕ :=
  (P.map (· / 1024)).toFinset.filter fun i ↦ m.table T i = none

/-- The frames that the pages `P` take: one for each, and one for each table that is missing. -/
def demand (T : Tables) (m : Mm) (P : List ℕ) : ℕ := P.length + (newSlots T m P).card

theorem demand_mono (T : Tables) (m : Mm) (h : P <+: Q) : demand T m P ≤ demand T m Q := by
  obtain ⟨R, rfl⟩ := h
  have hslots : newSlots T m P ⊆ newSlots T m (P ++ R) := by
    refine Finset.filter_subset_filter _ fun i hi ↦ ?_
    rw [List.map_append, List.toFinset_append]
    exact Finset.mem_union_left _ hi
  have hcard := Finset.card_le_card hslots
  rw [demand, demand, List.length_append]
  omega

theorem demand_concat (T : Tables) (m : Mm) (P : List ℕ) (v : ℕ) :
    demand T m (P ++ [v]) = demand T m P +
      (1 + if m.table T (v / 1024) = none ∧ v / 1024 ∉ P.map (· / 1024) then 1 else 0) := by
  have hslots : newSlots T m (P ++ [v]) =
      if m.table T (v / 1024) = none then insert (v / 1024) (newSlots T m P)
      else newSlots T m P := by
    rw [newSlots, List.map_append, List.toFinset_append, Finset.filter_union, Finset.union_comm]
    split_ifs with hnone
    · rw [List.map_singleton, List.toFinset_cons, List.toFinset_nil, insert_empty_eq,
        Finset.filter_singleton, if_pos hnone]
      rfl
    · rw [List.map_singleton, List.toFinset_cons, List.toFinset_nil, insert_empty_eq,
        Finset.filter_singleton, if_neg hnone, Finset.empty_union]
      rfl
  have hmem : v / 1024 ∈ newSlots T m P ↔
      v / 1024 ∈ P.map (· / 1024) ∧ m.table T (v / 1024) = none := by
    rw [newSlots, Finset.mem_filter, List.mem_toFinset]
  rw [demand, hslots, demand, List.length_append, List.length_singleton]
  by_cases hnone : m.table T (v / 1024) = none
  · by_cases hold : v / 1024 ∈ P.map (· / 1024)
    · rw [if_pos hnone, Finset.insert_eq_of_mem (hmem.mpr ⟨hold, hnone⟩),
        if_neg fun hand ↦ hand.2 hold]
      omega
    · rw [if_pos hnone, Finset.card_insert_of_notMem fun h ↦ hold (hmem.mp h).1,
        if_pos ⟨hnone, hold⟩]
      omega
  · rw [if_neg hnone, if_neg fun hand ↦ hnone hand.1]
    omega

/-- From `m₀` to `m` frames were taken for the pages `P` and for nothing else. -/
structure Spent (T : Tables) (m₀ : Mm) (P : List ℕ) (m : Mm) : Prop where
  ok : m.Ok T
  zero : 0 ∉ m.pmm.freePages
  left : m.pmm.freePages.card + demand T m₀ P = m₀.pmm.freePages.card
  table : ∀ i < 1024, (m.table T i = none ↔ m₀.table T i = none ∧ i ∉ P.map (· / 1024))

namespace Spent

theorem start (hok : m.Ok T) (hzero : 0 ∉ m.pmm.freePages) : Spent T m [] m :=
  ⟨hok, hzero, Nat.add_zero _, fun _ _ ↦ (and_iff_left List.not_mem_nil).symm⟩

theorem demand_le (h : Spent T m₀ P m) : demand T m₀ P ≤ m₀.pmm.freePages.card := by
  have hleft := h.left
  omega

theorem demand_concat (h : Spent T m₀ P m) (hv : v < 2 ^ 20) :
    demand T m₀ (P ++ [v]) = demand T m₀ P + (1 + m.tableCost T v) := by
  rw [Elf.demand_concat, tableCost]
  simp only [h.table (v / 1024) (by omega)]

theorem load (h : Spent T m₀ P m) (hv : v < 2 ^ 20) (hl : Loaded T m m' v p N) :
    Spent T m₀ (P ++ [v]) m' := by
  have hdemand := h.demand_concat hv
  have hleft := h.left
  have hspent := hl.spent
  refine ⟨hl.ok, fun hzero ↦ h.zero (hl.free_subset hzero), by omega, fun i hi ↦ ?_⟩
  rw [hl.slots i hi, h.table i hi, and_assoc, List.map_append, List.mem_append, not_or,
    List.map_singleton, List.mem_singleton]

theorem fail (h : Spent T m₀ P m) (hn : NotLoaded m m') : Spent T m₀ P m' := by
  have hfree : m'.pmm.freePages = m.pmm.freePages := by
    rw [hn.free, Finset.erase_eq_of_notMem h.zero]
  refine ⟨hn.ok h.ok, by rw [hfree]; exact h.zero, by rw [hfree]; exact h.left, fun i hi ↦ ?_⟩
  rw [hn.table]
  exact h.table i hi

/-- The pages of a segment are loaded one after the other until a frame is missing. -/
theorem loadPages (h : Spent T m₀ P s.mm) (F : File) (ph : Phdr) (hV : V + i + n < 2 ^ 20) :
    ∃ k ≤ n, (loadPages T F ph (V * 4096) n i s).2.1 = i + k ∧
      Spent T m₀ (P ++ List.range' (V + i) k) (Elf.loadPages T F ph (V * 4096) n i s).2.2.mm ∧
      ((Elf.loadPages T F ph (V * 4096) n i s).1 = 0 ∧ k = n ∨
        (Elf.loadPages T F ph (V * 4096) n i s).1 = -1 ∧ k < n ∧
          m₀.pmm.freePages.card < demand T m₀ (P ++ List.range' (V + i) (k + 1))) := by
  induction n generalizing i s P with
  | zero =>
      refine ⟨0, le_refl 0, rfl, ?_, Or.inl ⟨rfl, rfl⟩⟩
      rw [List.range'_zero, List.append_nil]
      exact h
  | succ n ih =>
      rw [Elf.loadPages, page_address (by omega)]
      have hpage := loadPage_cases F ph h.ok (show V + i + 1 < 2 ^ 20 by omega)
      generalize loadPage T F ph ((V + i) * 4096) s = r at hpage
      obtain ⟨r, s₁⟩ := r
      simp only at hpage
      rcases hpage with ⟨rfl, hnot, hshort⟩ | ⟨rfl, p, N, hload, -⟩
      · refine ⟨0, Nat.zero_le _, rfl, ?_, Or.inr ⟨rfl, Nat.succ_pos n, ?_⟩⟩
        · rw [List.range'_zero, List.append_nil]
          exact h.fail hnot
        · have hdemand := h.demand_concat (show V + i < 2 ^ 20 by omega)
          have hleft := h.left
          have hlt := hshort h.zero
          rw [List.range'_one, hdemand]
          omega
      · obtain ⟨k, hk, hpages, hspent, hres⟩ := ih (i := i + 1)
          (h.load (show V + i < 2 ^ 20 by omega) hload) (by omega)
        have happend : ∀ k, P ++ [V + i] ++ List.range' (V + (i + 1)) k =
            P ++ List.range' (V + i) (k + 1) := by
          intro k
          rw [List.range'_succ, List.append_assoc, List.singleton_append, Nat.add_assoc]
        rw [happend] at hspent hres
        simp only [lt_self_iff_false, if_false]
        refine ⟨k + 1, by omega, by rw [hpages]; omega, hspent, ?_⟩
        rcases hres with ⟨hr, rfl⟩ | ⟨hr, hlt, hshort⟩
        · exact Or.inl ⟨hr, rfl⟩
        · exact Or.inr ⟨hr, by omega, hshort⟩

end Spent

/-! ## Segments -/

theorem Phdr.take_pageList (hk : k ≤ ph.pageList.length) :
    ph.pageList.take k = List.range' (ph.vstart / 4096) k := by
  rw [Phdr.pageList, List.length_range'] at hk
  exact List.take_range'_of_length_ge hk

/-- The rounds of `load_segment`: it loads the pages that there are frames for. -/
theorem Spent.loadSegment_pages (h : Spent T m₀ P s.mm) (F : File) (hph : ph.Words) :
    ∃ k ≤ ph.pageList.length,
      (Elf.loadPages T F ph ph.vstart ((ph.vend - ph.vstart) / 0x1000) 0 s).2.1 = k ∧
      (∀ j ≤ ph.pageList.length,
        (demand T m₀ (P ++ ph.pageList.take j) ≤ m₀.pmm.freePages.card ↔ j ≤ k)) ∧
      Spent T m₀ (P ++ ph.pageList.take k)
        (Elf.loadPages T F ph ph.vstart ((ph.vend - ph.vstart) / 0x1000) 0 s).2.2.mm ∧
      ((Elf.loadPages T F ph ph.vstart ((ph.vend - ph.vstart) / 0x1000) 0 s).1 = 0 ∧
          k = ph.pageList.length ∨
        (Elf.loadPages T F ph ph.vstart ((ph.vend - ph.vstart) / 0x1000) 0 s).1 = -1 ∧
          k < ph.pageList.length) := by
  have hend := ph.vend_lt
  have hvend := ph.vend_eq
  have hstart := hph.vstart_eq
  have hvaddr := hph.vaddr
  have hV : ph.vstart / 4096 * 4096 = ph.vstart := by omega
  have hlen : ph.pageList.length = (ph.vend - ph.vstart) / 0x1000 := List.length_range'
  obtain ⟨k, hk, hpages, hspent, hres⟩ := h.loadPages F ph (V := ph.vstart / 4096) (i := 0)
    (n := (ph.vend - ph.vstart) / 0x1000) (by omega)
  rw [hV, ← hlen] at hpages hspent hres
  rw [← hlen] at hk ⊢
  rw [Nat.zero_add] at hpages
  rw [Nat.add_zero, ← Phdr.take_pageList hk] at hspent
  refine ⟨k, hk, hpages, fun j hj ↦ ⟨fun hle ↦ ?_, fun hjk ↦ ?_⟩, hspent, ?_⟩
  · by_contra hjk
    rcases hres with ⟨-, rfl⟩ | ⟨-, hlt, hshort⟩
    · exact hjk hj
    · -- the pages up to `j` include the first one that has no frame
      rw [Nat.add_zero, ← Phdr.take_pageList (show k + 1 ≤ ph.pageList.length by omega)] at hshort
      have hmore := demand_mono T m₀ ((List.prefix_append_right_inj P).mpr
        (List.take_prefix_take_left (l := ph.pageList) (show k + 1 ≤ j by omega)))
      omega
  · have hfewer := demand_mono T m₀ ((List.prefix_append_right_inj P).mpr
      (List.take_prefix_take_left (l := ph.pageList) hjk))
    exact hfewer.trans hspent.demand_le
  · exact hres.imp_right fun hfail ↦ ⟨hfail.1, hfail.2.1⟩

theorem Spent.loadSegment (h : Spent T m₀ P s.mm) (F : File) (off : ℕ) (hph : ph.Words)
    {r : ℤ} (hcall : loadSegment T F off ph img s = (r, img', s')) :
    (r = 0 ∨ r = -1) ∧
      (r = 0 ↔ img.segs.length < maxUserSegments ∧ ph.vstart < ph.vend ∧
        demand T m₀ (P ++ ph.pageList) ≤ m₀.pmm.freePages.card) ∧
      (r = 0 → Spent T m₀ (P ++ ph.pageList) s'.mm ∧
        img'.segs.length = img.segs.length + 1) := by
  have hneg : (-1 : ℤ) ≠ 0 := by norm_num
  rw [Elf.loadSegment] at hcall
  by_cases hfull : maxUserSegments ≤ img.segs.length
  · rw [if_pos hfull] at hcall
    cases hcall
    exact ⟨Or.inr rfl, iff_of_false hneg fun hand ↦ Nat.not_lt.mpr hfull hand.1,
      fun hr ↦ absurd hr hneg⟩
  rw [if_neg hfull] at hcall
  by_cases hempty : ph.vend ≤ ph.vstart
  · simp only [if_pos hempty] at hcall
    cases hcall
    exact ⟨Or.inr rfl, iff_of_false hneg fun hand ↦ Nat.not_lt.mpr hempty hand.2.1,
      fun hr ↦ absurd hr hneg⟩
  simp only [if_neg hempty, Prod.mk.injEq] at hcall
  obtain ⟨k, -, -, hiff, hspent, hres⟩ :=
    Spent.loadSegment_pages (s := (s.read (off + 8) 4).read (off + 20) 4) h F hph
  obtain ⟨hr, rfl, rfl⟩ := hcall
  rw [hr] at hres
  have hall := hiff ph.pageList.length (le_refl _)
  rw [List.take_length] at hall
  have hlast : r = 0 ↔ ph.pageList.length ≤ k := by
    rcases hres with ⟨rfl, rfl⟩ | ⟨rfl, hlt⟩
    · exact iff_of_true rfl (le_refl _)
    · exact iff_of_false hneg (Nat.not_le.mpr hlt)
  refine ⟨hres.imp And.left And.left, ?_, fun hzero ↦ ⟨?_, ?_⟩⟩
  · rw [hall, hlast]
    exact ⟨fun hle ↦ ⟨Nat.not_le.mp hfull, Nat.not_le.mp hempty, hle⟩, fun hand ↦ hand.2.2⟩
  · rwa [List.take_of_length_le (hlast.mp hzero)] at hspent
  · rw [List.length_append, List.length_singleton]

/-! ## Headers -/

/-- The checks that `elf_load` and `load_segment` make for header `i`. -/
def File.Accepts (F : File) (i : ℕ) : Prop :=
  Word.add (F.phdr i).pOffset (F.phdr i).pFilesz ≤ F.size ∧
    (F.segsFrom 0 i).length < maxUserSegments ∧ (F.phdr i).vstart < (F.phdr i).vend

/-- The headers before `i` are accepted, and there are frames for their pages. -/
def Passes (T : Tables) (m : Mm) (F : File) (i : ℕ) : Prop :=
  (∀ j < i, F.Loads j → F.Accepts j) ∧ demand T m (F.pagesFrom 0 i) ≤ m.pmm.freePages.card

theorem File.pagesFrom_concat (F : File) (i : ℕ) : F.pagesFrom 0 (i + 1) =
    F.pagesFrom 0 i ++ if F.Loads i then (F.phdr i).pageList else [] := by
  rw [File.pagesFrom, List.range'_1_concat, List.flatMap_append, List.flatMap_singleton,
    Nat.zero_add]
  rfl

theorem File.segsFrom_concat (F : File) (i : ℕ) : F.segsFrom 0 (i + 1) =
    F.segsFrom 0 i ++ if F.Loads i then [(F.phdr i).seg] else [] := by
  rw [File.segsFrom, List.range'_1_concat, List.flatMap_append, List.flatMap_singleton,
    Nat.zero_add]
  rfl

theorem File.pagesFrom_prefix (F : File) (h : i ≤ j) : F.pagesFrom 0 i <+: F.pagesFrom 0 j := by
  obtain ⟨n, rfl⟩ := Nat.exists_eq_add_of_le h
  induction n with
  | zero => exact List.prefix_refl _
  | succ n ih =>
      rw [← Nat.add_assoc, F.pagesFrom_concat]
      exact (ih (Nat.le_add_right i n)).trans (List.prefix_append _ _)

/-- Which headers the loop gets through. -/
theorem Spent.loadHeaders (h : Spent T m₀ (F.pagesFrom 0 i) s.mm)
    (hsegs : img.segs.length = (F.segsFrom 0 i).length) {r : ℤ}
    (hrun : loadHeaders T F n i img s = .done (r, img', s')) :
    (r = 0 ↔ (∀ j, i ≤ j → j < i + n → F.Loads j → F.Accepts j) ∧
        demand T m₀ (F.pagesFrom 0 (i + n)) ≤ m₀.pmm.freePages.card) ∧
      (r = 0 → Spent T m₀ (F.pagesFrom 0 (i + n)) s'.mm ∧
        img'.segs.length = (F.segsFrom 0 (i + n)).length) := by
  induction n generalizing i img s with
  | zero =>
      cases hrun
      refine ⟨iff_of_true rfl ⟨fun j hlo hhi ↦ ?_, h.demand_le⟩, fun _ ↦ ⟨h, hsegs⟩⟩
      exact absurd hhi (Nat.not_lt.mpr hlo)
  | succ n ih =>
      have hend : i + 1 + n = i + (n + 1) := by omega
      -- the first header apart from the others
      have hsplit : (∀ j, i ≤ j → j < i + (n + 1) → F.Loads j → F.Accepts j) ↔
          (F.Loads i → F.Accepts i) ∧
            ∀ j, i + 1 ≤ j → j < i + (n + 1) → F.Loads j → F.Accepts j := by
        constructor
        · intro hall
          exact ⟨hall i (le_refl i) (by omega), fun j hlo hhi ↦ hall j (by omega) hhi⟩
        · rintro ⟨hfirst, hrest⟩ j hlo hhi
          rcases Nat.eq_or_lt_of_le hlo with rfl | hlt
          · exact hfirst
          · exact hrest j hlt hhi
      have hpages := F.pagesFrom_concat i
      have hcount := F.segsFrom_concat i
      rw [hsplit, and_assoc]
      by_cases hload : F.Loads i
      swap
      · rw [if_neg hload, List.append_nil] at hpages hcount
        obtain ⟨s₁, hmm, hrun⟩ := loadHeaders_skip hload hrun
        rw [← hpages, ← hmm] at h
        rw [← hcount] at hsegs
        obtain ⟨hzero, hfinal⟩ := ih h hsegs hrun
        rw [hend] at hzero hfinal
        rw [hzero]
        exact ⟨⟨fun hand ↦ ⟨fun hload' ↦ absurd hload' hload, hand⟩, And.right⟩,
          fun hand ↦ hfinal (hzero.mpr hand)⟩
      rw [if_pos hload] at hpages hcount
      rcases loadHeaders_load hload hrun with ⟨rfl, hsize, -⟩ | ⟨hsize, q, img₁, s₁, hcall, hnext⟩
      · exact ⟨iff_of_false (by norm_num) fun hand ↦ Nat.not_le.mpr hsize (hand.1 hload).1, nofun⟩
      obtain ⟨-, hiff, hloaded⟩ := Spent.loadSegment (s := s.readPhdr F i) h F _ (F.phdr_words i)
        hcall
      rw [hsegs, ← hpages] at hiff
      rcases hnext with ⟨rfl, rfl, -⟩ | ⟨rfl, hrun⟩
      · refine ⟨iff_of_false (by norm_num) ?_, nofun⟩
        rintro ⟨haccepts, -, hle⟩
        obtain ⟨-, hfits, hends⟩ := haccepts hload
        have hmono := demand_mono T m₀ (F.pagesFrom_prefix (show i + 1 ≤ i + (n + 1) by omega))
        have hcontra := hiff.mpr ⟨hfits, hends, hmono.trans hle⟩
        cases hcontra
      · obtain ⟨hspent, hlen⟩ := hloaded rfl
        obtain ⟨hfits, hends, -⟩ := hiff.mp rfl
        rw [← hpages] at hspent
        have hlen' : img₁.segs.length = (F.segsFrom 0 (i + 1)).length := by
          rw [hlen, hsegs, hcount, List.length_append, List.length_singleton]
        obtain ⟨hzero, hfinal⟩ := ih hspent hlen' hrun
        rw [hend] at hzero hfinal
        rw [hzero]
        exact ⟨⟨fun hand ↦ ⟨fun _ ↦ ⟨hsize, hfits, hends⟩, hand⟩, And.right⟩,
          fun hand ↦ hfinal (hzero.mpr hand)⟩

/-! ## What is read -/

/-- The word at byte `k` of header `i` lies in the file: it ends there, or the address of the header
has wrapped to its start. -/
def FieldWithin (F : File) (i k : ℕ) : Prop :=
  F.ePhoff + 32 * i + k + 4 ≤ F.size ∨ 2 ^ 32 ≤ F.ePhoff + 32 * i + k

/-- There are frames for the pages of the headers before `i` and for `n` pages of this one. -/
def Affords (T : Tables) (m : Mm) (F : File) (i n : ℕ) : Prop :=
  n ≤ (F.phdr i).pageList.length ∧
    demand T m (F.pagesFrom 0 i ++ (F.phdr i).pageList.take n) ≤ m.pmm.freePages.card

/-- The fields of header `i` that are looked at lie in the file, and so does what is copied for the
pages that there are frames for. -/
def HeaderWithin (T : Tables) (m : Mm) (F : File) (i : ℕ) : Prop :=
  FieldWithin F i 0 ∧ ((F.phdr i).pType = ptLoad → FieldWithin F i 20 ∧
    ((F.phdr i).pMemsz ≠ 0 → FieldWithin F i 4 ∧ FieldWithin F i 16 ∧
      (Word.add (F.phdr i).pOffset (F.phdr i).pFilesz ≤ F.size →
        (F.segsFrom 0 i).length < maxUserSegments → FieldWithin F i 8 ∧
          ∀ n, Affords T m F i n → (F.phdr i).copied n = 0 ∨
            (F.phdr i).pOffset + (F.phdr i).copied n ≤ F.size)))

theorem fieldWithin_iff (hvalid : validateEhdr F = true) (hi : i < F.ePhnum) (hk : k + 4 ≤ 32) :
    Inside F (F.phdrOffset i + k, 4) ↔ FieldWithin F i k := by
  have hphdrs := (validateEhdr_size hvalid).2
  have hoff : F.ePhoff < 2 ^ 32 := read32_lt _ _
  have hnum : F.ePhnum < 256 ^ 2 := readLE_lt _ _ _
  have hsize := F.size_lt
  rw [phdrSize, Word.mul_eq (by omega), Word.add] at hphdrs
  rw [Inside, FieldWithin, File.phdrOffset, Word.add]
  constructor
  · intro h
    by_contra hnot
    obtain ⟨hend, hwrap⟩ := not_or.mp hnot
    -- the last byte, or the one before address zero, is behind the file
    by_cases hfits : F.ePhoff + 32 * i + k + 4 ≤ 2 ^ 32
    · have hlast := h 3 (by norm_num)
      simp only at hlast
      omega
    · have hlast := h (2 ^ 32 - 1 - (F.ePhoff + 32 * i + k)) (by simp only; omega)
      simp only at hlast
      omega
  · intro h j hj
    simp only at hj ⊢
    omega

theorem Phdr.copied_mono (ph : Phdr) (h : j ≤ k) : ph.copied j ≤ ph.copied k := by
  rw [Phdr.copied, Phdr.copied]
  split
  · exact le_refl _
  · omega

/-- In a state in which the loop gets to header `i`, the number of pages that are loaded is known
from the start. -/
theorem Spent.headerInside_iff (h : Spent T m₀ (F.pagesFrom 0 i) s.mm)
    (hsegs : img.segs.length = (F.segsFrom 0 i).length) (hvalid : validateEhdr F = true)
    (hi : i < F.ePhnum) : HeaderInside T F i img s ↔ HeaderWithin T m₀ F i := by
  obtain ⟨k, hk, hpages, hiff, -, -⟩ := h.loadSegment_pages F (F.phdr_words i)
  have hfield : ∀ k, k + 4 ≤ 32 → (Inside F (F.phdrOffset i + k, 4) ↔ FieldWithin F i k) :=
    fun k hk ↦ fieldWithin_iff hvalid hi hk
  have hcopy : (∀ n, Affords T m₀ F i n → (F.phdr i).copied n = 0 ∨
      (F.phdr i).pOffset + (F.phdr i).copied n ≤ F.size) ↔
      (F.phdr i).copied k = 0 ∨ (F.phdr i).pOffset + (F.phdr i).copied k ≤ F.size := by
    constructor
    · exact fun hall ↦ hall k ⟨hk, (hiff k hk).mpr (le_refl k)⟩
    · rintro hlast n ⟨hn, hdemand⟩
      have hmono := (F.phdr i).copied_mono ((hiff n hn).mp hdemand)
      omega
  -- without pages nothing is copied
  have hnone : (F.phdr i).vend ≤ (F.phdr i).vstart → (F.phdr i).copied k = 0 := by
    intro hempty
    have hlen : (F.phdr i).pageList.length = 0 := by
      rw [Phdr.pageList, List.length_range', Nat.sub_eq_zero_of_le hempty]
    have hzero : k = 0 := by omega
    rw [hzero, Phdr.copied]
    split
    · rfl
    · omega
  have hloaded : loadedPages T F (F.phdr i) s = k := hpages
  have hzero := hfield 0 (by norm_num)
  rw [Nat.add_zero] at hzero
  rw [HeaderInside, HeaderWithin, SegmentInside, hloaded, hsegs, hzero, hfield 20 (by norm_num),
    hfield 4 (by norm_num), hfield 16 (by norm_num), hfield 8 (by norm_num), hcopy]
  refine and_congr_right fun _ ↦ imp_congr_right fun _ ↦ and_congr_right fun h20 ↦
    imp_congr_right fun _ ↦ and_congr_right fun _ ↦ and_congr_right fun _ ↦
    imp_congr_right fun _ ↦ imp_congr_right fun _ ↦ and_congr_right fun _ ↦ ?_
  constructor
  · rintro ⟨-, hseg⟩
    by_cases hempty : (F.phdr i).vend ≤ (F.phdr i).vstart
    · exact Or.inl (hnone hempty)
    · exact hseg (Nat.not_le.mp hempty)
  · exact fun hcopied ↦ ⟨h20, fun _ ↦ hcopied⟩

/-- `elf_load` returns.  If neither of the sums that it checks wraps, it has read bytes of the file
only.  Otherwise that depends on the fields of the headers, on the room in the heap and on the
number of free frames before the call. -/
theorem reads_inside_iff {A : Arena} {ptrs : List ℕ} (hheap : HeapInv A ⟨s.heap, ptrs⟩)
    (hreads : s.reads = []) (F : File) (outImage : ℕ) :
    ∃ r out s', elfLoad T s F outImage = .done (r, out, s') ∧
      (NoWrap F → AllInside F s') ∧
      (s.mm.Ok T → 0 ∉ s.mm.pmm.freePages →
        (AllInside F s' ↔ (F.data ≠ 0 → outImage ≠ 0 → validateEhdr F = true →
          HasRoom s.heap imageSize → ∀ i < F.ePhnum, Passes T s.mm F i →
            HeaderWithin T s.mm F i))) := by
  have hehdr : AllInside F (s.readEhdr F) := readEhdr_inside hreads
  have hsame : (s.readEhdr F).heap = s.heap := s.readEhdr_heap F
  rw [elfLoad]
  by_cases hnull : F.data = 0 ∨ outImage = 0
  · rw [if_pos hnull]
    have hnone : AllInside F s := by
      rw [AllInside, hreads]
      exact fun x hx ↦ absurd hx List.not_mem_nil
    exact ⟨_, _, _, rfl, fun _ ↦ hnone, fun _ _ ↦ iff_of_true hnone fun hdata hout ↦
      absurd hnull (not_or.mpr ⟨hdata, hout⟩)⟩
  rw [if_neg hnull]
  obtain ⟨hdata, hout⟩ := not_or.mp hnull
  by_cases hvalid : validateEhdr F = false
  · rw [if_pos hvalid]
    refine ⟨_, _, _, rfl, fun _ ↦ hehdr, fun _ _ ↦ iff_of_true hehdr fun _ _ hvalid' ↦ ?_⟩
    rw [hvalid] at hvalid'
    cases hvalid'
  rw [if_neg hvalid, hsame]
  have hvalid' : validateEhdr F = true := Bool.eq_true_of_not_eq_false hvalid
  obtain ⟨p, heap, hmalloc, hinv⟩ := kmalloc_inv hheap imageSize
  have hroom : p = 0 ↔ ¬HasRoom s.heap imageSize :=
    hheap.kmalloc_eq_zero_iff (by norm_num [imageSize]) hmalloc
  rw [hmalloc, Outcome.done_bind]
  by_cases hp : p = 0
  · simp only [if_pos hp]
    exact ⟨_, _, _, rfl, fun _ ↦ hehdr, fun _ _ ↦ iff_of_true hehdr fun _ _ _ hroom' ↦
      absurd hroom' (hroom.mp hp)⟩
  simp only [if_neg hp] at hinv ⊢
  have hreturns : ∀ n, ∃ r img' s', loadHeaders T F n 0 ⟨p, [], F.eEntry⟩
      { s.readEhdr F with heap := heap } = .done (r, img', s') := fun n ↦
    loadHeaders_returns (s := { s.readEhdr F with heap := heap }) hinv List.mem_cons_self n 0
  obtain ⟨r, img', s', hloop⟩ := hreturns F.ePhnum
  rw [hloop, Outcome.done_bind]
  have hiff := loadHeaders_inside hloop
  simp only [Nat.zero_add] at hiff
  have hresult : (NoWrap F → AllInside F s') ∧ (s.mm.Ok T → 0 ∉ s.mm.pmm.freePages →
      (AllInside F s' ↔ (F.data ≠ 0 → outImage ≠ 0 → validateEhdr F = true →
        HasRoom s.heap imageSize → ∀ i < F.ePhnum, Passes T s.mm F i →
          HeaderWithin T s.mm F i))) := by
    refine ⟨fun hwrap ↦ hiff.mpr ⟨fun j hj img₁ s₁ _ ↦ ?_, hehdr⟩, fun hok hzero ↦ ?_⟩
    · exact headerInside_of_noWrap hwrap hvalid' hj img₁ s₁
    have hstart : Spent T s.mm (F.pagesFrom 0 0) (s.readEhdr F).mm := by
      rw [s.readEhdr_mm F]
      exact .start hok hzero
    have hreach := fun i r img₁ s₁ (hrun : loadHeaders T F i 0 ⟨p, [], F.eEntry⟩
        { s.readEhdr F with heap := heap } = .done (r, img₁, s₁)) ↦
      Spent.loadHeaders (s := { s.readEhdr F with heap := heap }) hstart rfl hrun
    simp only [Nat.zero_add, Nat.zero_le, true_imp_iff] at hreach
    refine (hiff.trans (and_iff_left hehdr)).trans ⟨?_, ?_⟩
    · intro hinside _ _ _ _ i hi hpasses
      obtain ⟨r₁, img₁, s₁, hrun⟩ := hreturns i
      obtain ⟨hcode, hspent⟩ := hreach i r₁ img₁ s₁ hrun
      obtain rfl : r₁ = 0 := hcode.mpr hpasses
      obtain ⟨hspent, hsegs⟩ := hspent rfl
      exact (hspent.headerInside_iff hsegs hvalid' hi).mp (hinside i hi img₁ s₁ hrun)
    · intro hwithin i hi img₁ s₁ hrun
      obtain ⟨hcode, hspent⟩ := hreach i 0 img₁ s₁ hrun
      obtain ⟨hspent, hsegs⟩ := hspent rfl
      exact (hspent.headerInside_iff hsegs hvalid' hi).mpr (hwithin hdata hout hvalid'
        (not_not.mp (mt hroom.mpr hp)) i hi (hcode.mp rfl))
  by_cases hr : r = 0
  · simp only [if_pos hr]
    exact ⟨_, _, _, rfl, hresult⟩
  · simp only [if_neg hr]
    exact ⟨_, _, _, rfl, hresult⟩

/-- A file of 84 bytes whose segment begins at offset 0xFFFFF000: with `p_filesz = 0x1010` the
sum is 0x10. -/
def wrapFile : File := segmentFile 0x800000 0xFFFFF000 0x1010 0x1010

/-- The load succeeds, and its first copy reads 4096 bytes at offset 0xFFFFF000. -/
theorem wrap_reads_outside : ∃ out s',
    elfLoad lowTables threeFrames wrapFile 1 = .done (0, out, s') ∧
      (0xFFFFF000, 0x1000) ∈ s'.reads ∧ ¬AllInside wrapFile s' := by
  have hrun : (elfLoad lowTables threeFrames wrapFile 1).value?.map
      (fun x ↦ (x.1, decide ((0xFFFFF000, 0x1000) ∈ x.2.2.reads))) = some (0, true) := by
    decide +kernel
  obtain ⟨⟨r, out, s'⟩, hrun, hres⟩ := Option.map_eq_some_iff.mp hrun
  simp only [Prod.mk.injEq, decide_eq_true_eq] at hres
  obtain ⟨rfl, hmem⟩ := hres
  refine ⟨out, s', Outcome.value?_eq_some.mp hrun, hmem, fun hall ↦ ?_⟩
  have hfirst := hall _ hmem 0 (by norm_num)
  exact absurd hfirst (by decide)

theorem threeFrames_heap : HeapInv lowArena ⟨threeFrames.heap, []⟩ :=
  (Reachable.init fun _ ↦ 0).inv

theorem threeFrames_pages :
    0 ∉ threeFrames.mm.pmm.freePages ∧ threeFrames.mm.pmm.freePages.card = 3 := by
  obtain ⟨hcount, -, hhigh⟩ := Pmm.unset.pmmInit_spec [⟨0x100000, 0x3000, 1⟩]
  have hthree : (Pmm.unset.pmmInit [⟨0x100000, 0x3000, 1⟩]).freeCount = 3 := by decide +kernel
  rw [threeFrames, Mm.boot_pmm]
  refine ⟨fun hzero ↦ ?_, ?_⟩
  · exact absurd (hhigh 0 hzero) (by norm_num)
  · exact hcount.symm.trans hthree

theorem threeFrames_room : HasRoom threeFrames.heap imageSize := by
  refine ⟨_, .head ?_, ?_, ?_⟩
  · decide +kernel
  · decide +kernel
  · decide +kernel

/-- The wrapped sum lets a segment through whose bytes are not in the file.  Of a file whose sums do
not wrap nothing else is read. -/
theorem reads_inside_iff_wrap :
    (∃ r out s', elfLoad lowTables threeFrames wrapFile 1 = .done (r, out, s') ∧
      ¬AllInside wrapFile s') ∧
    ∃ r out s', elfLoad lowTables threeFrames (segmentFile 0x40000010 0 16 32) 1 =
        .done (r, out, s') ∧ AllInside (segmentFile 0x40000010 0 16 32) s' := by
  obtain ⟨hzero, hcard⟩ := threeFrames_pages
  have hok : threeFrames.mm.Ok lowTables := (shield_boot lowTables _ _ _).ok
  constructor
  · obtain ⟨r, out, s', hrun, -, hiff⟩ := reads_inside_iff (T := lowTables) threeFrames_heap rfl
      wrapFile 1
    refine ⟨r, out, s', hrun, fun hinside ↦ ?_⟩
    have hpasses : Passes lowTables threeFrames.mm wrapFile 0 :=
      ⟨fun j hj ↦ absurd hj (Nat.not_lt_zero j), Nat.zero_le _⟩
    have hwithin := (hiff hok hzero).mp hinside (by decide) (by decide) (by decide +kernel)
      threeFrames_room 0 (by decide +kernel) hpasses
    have haffords : Affords lowTables threeFrames.mm wrapFile 0 1 := by
      refine ⟨by decide +kernel, ?_⟩
      rw [hcard]
      decide +kernel
    obtain ⟨-, htype⟩ := hwithin
    obtain ⟨-, hmemsz⟩ := htype (by decide +kernel)
    obtain ⟨-, -, hsum⟩ := hmemsz (by decide +kernel)
    obtain ⟨-, hcopies⟩ := hsum (by decide +kernel) (by decide +kernel)
    exact absurd (hcopies 1 haffords) (by decide +kernel)
  · obtain ⟨r, out, s', hrun, -, hiff⟩ := reads_inside_iff (T := lowTables) threeFrames_heap rfl
      (segmentFile 0x40000010 0 16 32) 1
    refine ⟨r, out, s', hrun, (hiff hok hzero).mpr fun _ _ _ _ i hi _ ↦ ?_⟩
    have hnum : (segmentFile 0x40000010 0 16 32).ePhnum = 1 := by decide +kernel
    obtain rfl : i = 0 := by omega
    have hfields : ∀ k < 32, FieldWithin (segmentFile 0x40000010 0 16 32) 0 (k / 4 * 4) := by
      have hoff : (segmentFile 0x40000010 0 16 32).ePhoff = 52 := by decide +kernel
      have hsize : (segmentFile 0x40000010 0 16 32).size = 84 := rfl
      intro k hk
      rw [FieldWithin, hoff, hsize]
      omega
    have hcopied : ∀ n, ((segmentFile 0x40000010 0 16 32).phdr 0).pOffset +
        ((segmentFile 0x40000010 0 16 32).phdr 0).copied n ≤ 84 := by
      have hoffset : ((segmentFile 0x40000010 0 16 32).phdr 0).pOffset = 0 := by decide +kernel
      have hfilesz : ((segmentFile 0x40000010 0 16 32).phdr 0).pFilesz = 16 := by decide +kernel
      intro n
      rw [Phdr.copied, hoffset, hfilesz]
      split_ifs <;> omega
    exact ⟨hfields 0 (by norm_num), fun _ ↦ ⟨hfields 20 (by norm_num), fun _ ↦
      ⟨hfields 4 (by norm_num), hfields 16 (by norm_num), fun _ _ ↦ ⟨hfields 8 (by norm_num),
        fun n _ ↦ Or.inr (hcopied n)⟩⟩⟩⟩

end MyOS.Elf
