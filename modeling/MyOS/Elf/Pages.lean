import MyOS.Elf.Model
import MyOS.Heap.Invariant

/-!
# Loading page by page

What the loader does to memory is a sequence of page steps: a page is loaded, a page could not
be loaded, or a recorded page is unloaded.  Beside memory, the steps keep the list of the
recorded pages in the order in which `elf_unload` goes through them.
-/

namespace MyOS.Elf

open Bytes Mm

variable {T : Tables} {m m' : Mm} {s s' : Sys} {F : File} {ph : Phdr} {v p n i : ℕ}
  {N : Finset ℕ} {L P : List ℕ}

/-! ## One page -/

/-- Page `v` is loaded: it has the lowest free frame `p`, and the tables `N` were created for
it, at most one. -/
structure Loaded (T : Tables) (m m' : Mm) (v p : ℕ) (N : Finset ℕ) : Prop where
  ok : m'.Ok T
  mapping : ∀ w < 2 ^ 20, m'.mapping T w = if w = v then some p else m.mapping T w
  frame : p ∈ m.pmm.freePages
  pos : p ≠ 0
  tables : N ⊆ m.pmm.freePages.erase p
  tablePage : ∀ q, m'.TablePage T q ↔ m.TablePage T q ∨ q ∈ N
  free : m'.pmm.freePages = m.pmm.freePages.erase p \ N
  spent : m'.pmm.freePages.card + (1 + m.tableCost T v) = m.pmm.freePages.card
  slots : ∀ i < 1024, (m'.table T i = none ↔ m.table T i = none ∧ i ≠ v / 1024)

/-- A page could not be loaded. -/
structure NotLoaded (m m' : Mm) : Prop where
  mem : m'.mem = m.mem
  free : m'.pmm.freePages = m.pmm.freePages.erase 0

/-- Page `v` is unloaded: its frame is free. -/
structure Unloaded (T : Tables) (m m' : Mm) (v : ℕ) : Prop where
  table : ∀ i < 1024, m'.table T i = m.table T i
  mapping : ∀ w < 2 ^ 20, m'.mapping T w = if w = v then none else m.mapping T w
  free : m'.pmm.freePages = (m.mapping T v).elim m.pmm.freePages (insert · m.pmm.freePages)

theorem NotLoaded.table (h : NotLoaded m m') (i : ℕ) : m'.table T i = m.table T i := by
  rw [Mm.table, Mm.table, h.mem]

theorem NotLoaded.mapping (h : NotLoaded m m') (v : ℕ) : m'.mapping T v = m.mapping T v := by
  rw [Mm.mapping, Mm.mapping, entry, entry, h.table, h.mem]

theorem NotLoaded.ok (h : NotLoaded m m') (hm : m.Ok T) : m'.Ok T := by
  refine hm.congr (fun i _ ↦ h.table i) fun q hq hfree ↦ hm.used q hq ?_
  rw [h.free] at hfree
  exact Finset.mem_of_mem_erase hfree

theorem Unloaded.ok (h : Unloaded T m m' v) (hm : m.Ok T)
    (hframe : ∀ f, m.mapping T v = some f → ¬m.TablePage T f) : m'.Ok T := by
  refine hm.congr h.table fun q hq ↦ ?_
  rw [h.free]
  rcases hv : m.mapping T v with - | f
  · exact hm.used q hq
  · rw [Option.elim_some, Finset.mem_insert, not_or]
    refine ⟨?_, hm.used q hq⟩
    rintro rfl
    exact hframe q hv hq

theorem mapping_lt {f : ℕ} (h : m.mapping T v = some f) : f < 2 ^ 20 := by
  rw [Mm.mapping, frameOf_eq_some, entry] at h
  split at h
  case h_1 t _ =>
    have hlt := read32_lt m.mem (t + 4 * (v % 1024))
    omega
  case h_2 => omega

theorem unloadPage_spec (h : m.Ok T) (hv : v < 2 ^ 20) :
    Unloaded T m (unloadPage T m (v * 4096)) v := by
  have hlt : v * 4096 < 2 ^ 32 := by omega
  have hpage : v * 4096 / 4096 = v := Nat.mul_div_cancel v (by norm_num)
  obtain ⟨-, hmap, htable, -⟩ := vmmUnmap_spec h hlt
  rw [hpage] at hmap
  have hphys := vmmGetPhys_eq h hlt
  rw [hpage, Nat.mul_mod_left] at hphys
  rcases hold : m.mapping T v with - | f
  · rw [hold] at hphys
    rw [unloadPage, if_neg (not_not.mpr hphys)]
    refine ⟨htable, hmap, ?_⟩
    rw [vmmUnmap_pmm, hold, Option.elim_none]
  · have hword : f * 4096 < 2 ^ 32 := by
      have hf := mapping_lt hold
      clear hlt
      omega
    have hmask : f * 4096 &&& 0xFFFFF000 = f * 4096 := by
      rw [frame_mask hword, Nat.mul_div_cancel f (by norm_num)]
    have hframe : f * 4096 / pageSize = f := Pmm.page_mul_div f
    replace hphys : m.vmmGetPhys T (v * 4096) = f * 4096 := by
      rw [hphys, hold]
      exact Nat.add_zero _
    rw [unloadPage, if_pos (by rw [hphys]; omega), hphys, hmask]
    refine ⟨htable, hmap, ?_⟩
    rw [vmmUnmap_pmm, Pmm.freePages_pmmFree _ hword, hframe, hold, Option.elim_some]

theorem fillPage_keeps (F : File) (ph : Phdr) (v phy : ℕ) (s : Sys) :
    (fillPage F ph v phy s).mm.pmm = s.mm.pmm ∧
      (fillPage F ph v phy s).mm.cleared = phy :: s.mm.cleared ∧
      (fillPage F ph v phy s).heap = s.heap := by
  rw [fillPage]
  generalize (if v > ph.pVaddr then v else ph.pVaddr) = lo
  generalize (if Word.add v 0x1000 < Word.add ph.pVaddr ph.pFilesz then Word.add v 0x1000
    else Word.add ph.pVaddr ph.pFilesz) = hi
  simp only
  split
  · exact ⟨rfl, rfl, rfl⟩
  · exact ⟨rfl, rfl, rfl⟩

/-- The copy stays in the frame. -/
theorem fillPage_mem (F : File) (ph : Phdr) (hv : v + 0x1000 < 2 ^ 32) (hp : p < 2 ^ 20)
    {a : ℕ} (ha : a / 4096 ≠ p) :
    (fillPage F ph v (p * 4096) s).mm.mem a = s.mm.mem a := by
  rw [fillPage]
  have hend : Word.add v 0x1000 = v + 0x1000 := Word.add_eq hv
  simp only [hend]
  generalize hlo : (if v > ph.pVaddr then v else ph.pVaddr) = lo
  generalize hhi : (if v + 0x1000 < Word.add ph.pVaddr ph.pFilesz then v + 0x1000
    else Word.add ph.pVaddr ph.pFilesz) = hi
  have hvlo : v ≤ lo := by
    rw [← hlo]
    split <;> omega
  have hhiv : hi ≤ v + 0x1000 := by
    rw [← hhi]
    split <;> omega
  have hzero : s.mm.mem.blit (p * 4096) 0x1000 (fun _ ↦ 0) a = s.mm.mem a :=
    blit_apply_of_notMem (by omega)
  split
  case isTrue hlt =>
    have hlen : Word.sub hi lo = hi - lo := Word.sub_eq hlt.le (by omega)
    have hoff : Word.sub lo v = lo - v := Word.sub_eq hvlo (by omega)
    have hdst : Word.add (p * 4096) (lo - v) = p * 4096 + (lo - v) := Word.add_eq (by omega)
    simp only [Sys.read, hlen, hoff, hdst]
    rw [blit_apply_of_notMem (by omega), hzero]
  case isFalse => exact hzero

/-- Writing into a page without tables changes no translation. -/
theorem ok_of_write (h : m.Ok T) (hp : ¬m.TablePage T p)
    (hmem : ∀ a, a / 4096 ≠ p → m'.mem a = m.mem a) (hpmm : m'.pmm = m.pmm) :
    m'.Ok T ∧ (∀ w < 2 ^ 20, m'.mapping T w = m.mapping T w) ∧
      (∀ i < 1024, m'.table T i = m.table T i) ∧ ∀ q, m'.TablePage T q ↔ m.TablePage T q := by
  have hkeep : ∀ a, m.TablePage T (a / 4096) → m'.mem a = m.mem a := by
    intro a ha
    apply hmem
    rintro rfl
    exact hp ha
  obtain ⟨htable, hentry⟩ := tables_congr hkeep
  refine ⟨h.congr htable (by rw [hpmm]; exact h.used), fun w hw ↦ ?_, htable,
    tablePage_congr htable⟩
  rw [Mm.mapping, Mm.mapping, hentry w hw]

/-- The frame taken for a page is given back when no frame is left for a table. -/
theorem freePages_given_back {a b : Pmm} (hp : p ∈ a.freePages) (hpos : p ≠ 0)
    (hlowest : ∀ q ∈ a.freePages, p ≤ q)
    (hb : b = a.take p ∨ b = (a.take p).pmmAlloc.2 ∧ (a.take p).pmmAlloc.1 = 0) :
    (b.pmmFree (p * 4096)).freePages = a.freePages.erase 0 := by
  have hlt : p < 2 ^ 20 := (Pmm.mem_freePages.mp hp).1
  have hframe : p * 4096 / 4096 = p := Nat.mul_div_cancel p (by norm_num)
  have hnot : 0 ∉ a.freePages := fun hzero ↦ hpos (Nat.le_zero.mp (hlowest 0 hzero))
  have hfree : b.freePages = a.freePages.erase p := by
    rcases hb with rfl | ⟨rfl, hnull⟩
    · exact Pmm.freePages_take _ p
    · have hnot₁ : 0 ∉ (a.take p).freePages := by
        rw [Pmm.freePages_take]
        exact fun hzero ↦ hnot (Finset.mem_of_mem_erase hzero)
      rw [(a.take p).freePages_pmmAlloc_null hnull, Finset.erase_eq_of_notMem hnot₁,
        Pmm.freePages_take]
  have hback : (b.pmmFree (p * 4096)).freePages = insert p b.freePages := by
    rw [Pmm.freePages_pmmFree _ (by omega)]
    exact congrArg (insert · _) hframe
  rw [hback, hfree, Finset.insert_erase hp, Finset.erase_eq_of_notMem hnot]

/-- A page that is loaded was mapped first, with a change of memory in tables only, and then
filled.  One that is not loaded lacks a frame for itself or for its table. -/
theorem loadPage_cases (F : File) (ph : Phdr) (h : s.mm.Ok T) (hv : v + 1 < 2 ^ 20) :
    (loadPage T F ph (v * 4096) s).1 = -1 ∧
        NotLoaded s.mm (loadPage T F ph (v * 4096) s).2.mm ∧
        (0 ∉ s.mm.pmm.freePages → s.mm.pmm.freePages.card < 1 + s.mm.tableCost T v) ∨
      (loadPage T F ph (v * 4096) s).1 = 0 ∧
        ∃ p N, Loaded T s.mm (loadPage T F ph (v * 4096) s).2.mm v p N ∧
          ∃ m₂, (loadPage T F ph (v * 4096) s).2 =
              fillPage F ph (v * 4096) (p * 4096) { s with mm := m₂ } ∧
            ∀ a, ¬(loadPage T F ph (v * 4096) s).2.mm.TablePage T (a / 4096) →
              m₂.mem a = s.mm.mem a := by
  rw [loadPage]
  by_cases hnull : s.mm.pmm.pmmAlloc.1 = 0
  · rw [if_pos hnull]
    refine Or.inl ⟨rfl, ⟨rfl, s.mm.pmm.freePages_pmmAlloc_null hnull⟩, fun hzero ↦ ?_⟩
    rw [s.mm.pmm.freePages_eq_empty hzero hnull, Finset.card_empty]
    exact Nat.lt_add_right _ Nat.one_pos
  rw [if_neg hnull]
  rcases s.mm.pmm.pmmAlloc_spec with ⟨-, hnone⟩ | ⟨p, hp, hlowest, hsome⟩
  · rw [hnone] at hnull
    exact absurd rfl hnull
  have hpos : p ≠ 0 := by
    rintro rfl
    rw [hsome, Nat.zero_mul] at hnull
    exact hnull rfl
  have hlt : p < 2 ^ 20 := (Pmm.mem_freePages.mp hp).1
  rw [hsome, show pageSize = 4096 from rfl]
  -- with `p` taken the tables are as before
  set m₁ : Mm := { s.mm with pmm := s.mm.pmm.take p } with hm₁
  have hfree₁ : m₁.pmm.freePages = s.mm.pmm.freePages.erase p := Pmm.freePages_take _ p
  have hcard₁ : m₁.pmm.freePages.card + 1 = s.mm.pmm.freePages.card := by
    rw [hfree₁]
    exact Finset.card_erase_add_one hp
  have hok₁ : m₁.Ok T := h.take p
  have hpage : v * 4096 / 4096 = v := Nat.mul_div_cancel v (by norm_num)
  have hframe : p * 4096 / 4096 = p := Nat.mul_div_cancel p (by norm_num)
  have hspec := vmmMap_spec hok₁ (show v * 4096 < 2 ^ 32 by omega)
    (show p * 4096 < 2 ^ 32 by omega) (pageRw ||| pageUser)
  have hshort : 0 ∉ m₁.pmm.freePages →
      (m₁.vmmMap T (v * 4096) (p * 4096) (pageRw ||| pageUser)).1 = -1 →
      m₁.pmm.freePages.card < m₁.tableCost T (v * 4096 / 4096) := fun hzero ↦
    card_lt_of_vmmMap hok₁ hzero (by omega) (Nat.dvd_mul_left _ v) (Nat.dvd_mul_left _ p)
  generalize m₁.vmmMap T (v * 4096) (p * 4096) (pageRw ||| pageUser) = r at hspec hshort
  obtain ⟨r, m₂⟩ := r
  rw [hpage, hframe] at hspec
  rw [hpage] at hshort
  rcases hspec with ⟨hr, hsame⟩ | ⟨hr, -, -, hmapped⟩
  · -- no frame is left for a table, and `p` is given back
    simp only at hr hsame
    subst hr
    refine Or.inl ⟨rfl, ⟨hsame.mem, ?_⟩, fun hzero ↦ ?_⟩
    · simp only [Int.reduceNeg, Int.reduceLT, if_true]
      exact freePages_given_back hp hpos hlowest hsame.pmm
    · have hzero₁ : 0 ∉ m₁.pmm.freePages := by
        rw [hfree₁]
        exact fun hmem ↦ hzero (Finset.mem_of_mem_erase hmem)
      have hlt₁ : m₁.pmm.freePages.card < s.mm.tableCost T v := hshort hzero₁ rfl
      omega
  · simp only at hr hmapped
    subst hr
    simp only [lt_self_iff_false, if_false]
    obtain ⟨hpmm, -⟩ := fillPage_keeps F ph (v * 4096) (p * 4096) { s with mm := m₂ }
    have hmem : ∀ a, a / 4096 ≠ p →
        (fillPage F ph (v * 4096) (p * 4096) { s with mm := m₂ }).mm.mem a = m₂.mem a :=
      fun a ha ↦ fillPage_mem F ph (by omega) hlt ha
    obtain ⟨N, hnew, hpages, hfree⟩ := hmapped.new_tables
    rw [hfree₁] at hnew hfree
    have hframe₂ : ¬m₂.TablePage T p := by
      rw [hpages p, not_or]
      exact ⟨fun hp' ↦ h.used p hp' hp, fun hp' ↦ Finset.notMem_erase p _ (hnew hp')⟩
    obtain ⟨hok, hmapping, htables, hpages'⟩ := ok_of_write hmapped.ok hframe₂ hmem hpmm
    refine Or.inr ⟨trivial, p, N, ⟨hok, fun w hw ↦ ?_, hp, hpos, hnew, fun q ↦ ?_, ?_, ?_,
      fun i hi ↦ ?_⟩, m₂, rfl, fun a ha ↦ hmapped.mem a (mt (hpages' _).mpr ha)⟩
    · exact (hmapping w hw).trans (hmapped.mapping w hw)
    · exact (hpages' q).trans (hpages q)
    · rw [hpmm, hfree]
    · have hspent : m₂.pmm.freePages.card + s.mm.tableCost T v = m₁.pmm.freePages.card :=
        hmapped.spent
      rw [hpmm]
      change m₂.pmm.freePages.card + _ = _
      omega
    · rw [htables i hi]
      exact hmapped.slots i hi

theorem loadPage_spec (F : File) (ph : Phdr) (h : s.mm.Ok T) (hv : v + 1 < 2 ^ 20) :
    (loadPage T F ph (v * 4096) s).1 = -1 ∧
        NotLoaded s.mm (loadPage T F ph (v * 4096) s).2.mm ∨
      (loadPage T F ph (v * 4096) s).1 = 0 ∧
        ∃ p N, Loaded T s.mm (loadPage T F ph (v * 4096) s).2.mm v p N := by
  rcases loadPage_cases F ph h hv with ⟨hr, hnot, -⟩ | ⟨hr, p, N, hload, -⟩
  · exact Or.inl ⟨hr, hnot⟩
  · exact Or.inr ⟨hr, p, N, hload⟩

@[simp] theorem Sys.readEhdr_mm (s : Sys) (F : File) : (s.readEhdr F).mm = s.mm := by
  rw [readEhdr]
  split <;> rfl

theorem Sys.readEhdr_heap (s : Sys) (F : File) : (s.readEhdr F).heap = s.heap := by
  rw [Sys.readEhdr]
  split_ifs <;> rfl

/-! ## Rounds of the loop -/

/-- Program header `i` asks for memory. -/
def File.Loads (F : File) (i : ℕ) : Prop := (F.phdr i).pType = ptLoad ∧ (F.phdr i).pMemsz ≠ 0

instance (F : File) (i : ℕ) : Decidable (F.Loads i) := instDecidableAnd

/-- The state in which `load_segment` is called for header `i`. -/
def Sys.readPhdr (s : Sys) (F : File) (i : ℕ) : Sys :=
  (((s.read (F.phdrOffset i) 4).read (F.phdrOffset i + 20) 4).read (F.phdrOffset i + 4) 4).read
    (F.phdrOffset i + 16) 4

theorem loadPages_code (T : Tables) (F : File) (ph : Phdr) (vstart n i : ℕ) (s : Sys) :
    (loadPages T F ph vstart n i s).1 = 0 ∨ (loadPages T F ph vstart n i s).1 = -1 := by
  induction n generalizing i s with
  | zero => exact Or.inl rfl
  | succ n ih =>
      rw [loadPages]
      split
      · exact Or.inr rfl
      · exact ih _ _

theorem loadSegment_code (T : Tables) (F : File) (off : ℕ) (ph : Phdr) (img : UserImage) (s : Sys) :
    (loadSegment T F off ph img s).1 = 0 ∨ (loadSegment T F off ph img s).1 = -1 := by
  rw [loadSegment]
  split_ifs
  · exact Or.inr rfl
  · exact Or.inr rfl
  · exact loadPages_code T F ph ph.vstart _ 0 _

section Rounds

variable {r : ℤ} {img img' : UserImage}

/-- A header that asks for nothing is passed over. -/
theorem loadHeaders_skip (hskip : ¬F.Loads i)
    (hrun : loadHeaders T F (n + 1) i img s = .done (r, img', s')) :
    ∃ s₁ : Sys, s₁.mm = s.mm ∧ loadHeaders T F n (i + 1) img s₁ = .done (r, img', s') := by
  rw [loadHeaders] at hrun
  by_cases htype : (F.phdr i).pType = ptLoad
  · rw [if_neg (not_not.mpr htype), if_pos (not_not.mp fun hmemsz ↦ hskip ⟨htype, hmemsz⟩)] at hrun
    exact ⟨(s.read (F.phdrOffset i) 4).read (F.phdrOffset i + 20) 4, rfl, hrun⟩
  · rw [if_pos htype] at hrun
    exact ⟨s.read (F.phdrOffset i) 4, rfl, hrun⟩

theorem loadHeaders_succ (hload : F.Loads i) : loadHeaders T F (n + 1) i img s =
    if F.size < Word.add (F.phdr i).pOffset (F.phdr i).pFilesz then do
      let s ← elfUnload T (s.readPhdr F i) img
      .done (-4, img, s)
    else
      let r := loadSegment T F (F.phdrOffset i) (F.phdr i) img (s.readPhdr F i)
      if r.1 < 0 then do
        let s ← elfUnload T r.2.2 r.2.1
        .done (-5, r.2.1, s)
      else loadHeaders T F n (i + 1) r.2.1 r.2.2 := by
  rw [loadHeaders, if_neg (not_not.mpr hload.1), if_neg hload.2]
  rfl

/-- For another one the loop gives up, or it goes on with the segment loaded. -/
theorem loadHeaders_load (hload : F.Loads i)
    (hrun : loadHeaders T F (n + 1) i img s = .done (r, img', s')) :
    r = -4 ∧ F.size < Word.add (F.phdr i).pOffset (F.phdr i).pFilesz ∧
        elfUnload T (s.readPhdr F i) img = .done s' ∨
      Word.add (F.phdr i).pOffset (F.phdr i).pFilesz ≤ F.size ∧ ∃ q img₁ s₁,
        loadSegment T F (F.phdrOffset i) (F.phdr i) img (s.readPhdr F i) = (q, img₁, s₁) ∧
          (q = -1 ∧ r = -5 ∧ elfUnload T s₁ img₁ = .done s' ∨
            q = 0 ∧ loadHeaders T F n (i + 1) img₁ s₁ = .done (r, img', s')) := by
  rw [loadHeaders_succ hload] at hrun
  by_cases hsize : F.size < Word.add (F.phdr i).pOffset (F.phdr i).pFilesz
  · rw [if_pos hsize] at hrun
    obtain ⟨s₁, hunload, hdone⟩ := Outcome.bind_eq_done_iff.mp hrun
    cases hdone
    exact Or.inl ⟨rfl, hsize, hunload⟩
  · rw [if_neg hsize] at hrun
    have hcode := loadSegment_code T F (F.phdrOffset i) (F.phdr i) img (s.readPhdr F i)
    obtain ⟨q, img₁, s₁, hcall⟩ : ∃ q img₁ s₁, loadSegment T F (F.phdrOffset i) (F.phdr i) img
        (s.readPhdr F i) = (q, img₁, s₁) := ⟨_, _, _, rfl⟩
    refine Or.inr ⟨Nat.not_lt.mp hsize, q, img₁, s₁, hcall, ?_⟩
    rw [hcall] at hcode
    simp only [hcall] at hrun
    rcases hcode with rfl | rfl
    · rw [if_neg (lt_irrefl 0)] at hrun
      exact Or.inr ⟨rfl, hrun⟩
    · rw [if_pos (by norm_num)] at hrun
      obtain ⟨s₂, hunload, hdone⟩ := Outcome.bind_eq_done_iff.mp hrun
      cases hdone
      exact Or.inl ⟨rfl, rfl, hunload⟩

/-- `elf_load` fails before it loads anything, or it returns what the loop does. -/
theorem elfLoad_cases {outImage : ℕ} {out : Option UserImage}
    (hrun : elfLoad T s F outImage = .done (r, out, s')) :
    r ≠ 0 ∧ out = none ∧ s'.mm = s.mm ∧
        (s'.heap = s.heap ∨ Heap.kmalloc s.heap imageSize = .done (0, s'.heap)) ∨
      ∃ p heap img, Heap.kmalloc s.heap imageSize = .done (p, heap) ∧ p ≠ 0 ∧
        out = (if r = 0 then some img else none) ∧ loadHeaders T F F.ePhnum 0 ⟨p, [], F.eEntry⟩
          { s.readEhdr F with heap := heap } = .done (r, img, s') := by
  rw [elfLoad] at hrun
  split_ifs at hrun
  · cases hrun
    exact Or.inl ⟨by norm_num, rfl, rfl, Or.inl rfl⟩
  · cases hrun
    exact Or.inl ⟨by norm_num, rfl, s.readEhdr_mm F, Or.inl (s.readEhdr_heap F)⟩
  · obtain ⟨⟨p, heap⟩, hmalloc, hrun⟩ := Outcome.bind_eq_done_iff.mp hrun
    rw [s.readEhdr_heap F] at hmalloc
    dsimp only at hrun
    split_ifs at hrun with hp
    · cases hrun
      exact Or.inl ⟨by norm_num, rfl, s.readEhdr_mm F, Or.inr (hp ▸ hmalloc)⟩
    · obtain ⟨⟨q, img, s₁⟩, hheaders, hrun⟩ := Outcome.bind_eq_done_iff.mp hrun
      refine Or.inr ⟨p, heap, img, hmalloc, hp, ?_⟩
      dsimp only at hrun
      split_ifs at hrun with hq
      · cases hrun
        exact ⟨(if_pos rfl).symm, hq ▸ hheaders⟩
      · cases hrun
        exact ⟨(if_neg hq).symm, hheaders⟩

end Rounds

/-! ## Invariants of the loader -/

/-- The pages that a segment records. -/
def UserSeg.pageList (seg : UserSeg) : List ℕ := List.range' (seg.vaddr / 4096) seg.pages

/-- The recorded pages of an image, in the order in which `elf_unload` visits them. -/
def UserImage.pageList (img : UserImage) : List ℕ := img.segs.flatMap UserSeg.pageList

/-- The pages of a segment, as its header asks for them. -/
def Phdr.pageList (ph : Phdr) : List ℕ :=
  List.range' (ph.vstart / 4096) ((ph.vend - ph.vstart) / 4096)

/-- The pages of the program headers `i, i + 1, …`, `n` of them. -/
def File.pagesFrom (F : File) (i n : ℕ) : List ℕ :=
  (List.range' i n).flatMap fun j ↦ if F.Loads j then (F.phdr j).pageList else []

/-- All pages that a file asks for. -/
def File.pageList (F : File) : List ℕ := F.pagesFrom 0 F.ePhnum

/-- A recorded segment lies below the last page. -/
def UserSeg.Fits (seg : UserSeg) : Prop :=
  4096 ∣ seg.vaddr ∧ seg.vaddr / 4096 + seg.pages < 2 ^ 20

def UserImage.Fits (img : UserImage) : Prop := ∀ seg ∈ img.segs, seg.Fits

/-- One page loaded, not loaded or unloaded.  Pages are loaded in the order of `P`. -/
inductive PageStep (T : Tables) (P : List ℕ) : List ℕ → Mm → List ℕ → Mm → Prop
  | load {L : List ℕ} {m m' : Mm} {v p : ℕ} {N : Finset ℕ} : L ++ [v] <+: P → v + 1 < 2 ^ 20 →
      Loaded T m m' v p N → PageStep T P L m (L ++ [v]) m'
  | fail {L : List ℕ} {m m' : Mm} : NotLoaded m m' → PageStep T P L m L m'
  | unload {L : List ℕ} {m m' : Mm} {v : ℕ} : v < 2 ^ 20 → Unloaded T m m' v →
      PageStep T P (v :: L) m L m'

/-- A property of the recorded pages and memory that page steps keep. -/
structure Kept (T : Tables) (P : List ℕ) (I : List ℕ → Mm → Prop) : Prop where
  ok : ∀ L m, I L m → m.Ok T
  step : ∀ L m L' m', I L m → PageStep T P L m L' m' → I L' m'

variable {I : List ℕ → Mm → Prop} {V : ℕ} {seg : UserSeg} {img : UserImage}

theorem page_address (hV : V + i < 2 ^ 20) :
    Word.add (V * 4096) (Word.mul i 0x1000) = (V + i) * 4096 := by
  rw [Word.mul_eq (by omega), Word.add_eq (by omega)]
  omega

theorem Kept.unloadPages (h : Kept T P I) (hV : V + i + n < 2 ^ 20) (L : List ℕ)
    (hI : I (List.range' (V + i) n ++ L) m) : I L (unloadPages T (V * 4096) n i m) := by
  induction n generalizing i m with
  | zero => exact hI
  | succ n ih =>
      rw [Elf.unloadPages, page_address (by omega)]
      refine ih (by omega) (h.step _ _ _ _ hI ?_)
      rw [List.range'_succ]
      exact .unload (by omega) (unloadPage_spec (h.ok _ _ hI) (by omega))

theorem Kept.unloadSegs (h : Kept T P I) (segs : List UserSeg) (hfits : ∀ seg ∈ segs, seg.Fits)
    (hI : I (segs.flatMap UserSeg.pageList) m) : I [] (unloadSegs T segs m) := by
  induction segs generalizing m with
  | nil => exact hI
  | cons seg segs ih =>
      obtain ⟨hdvd, hlt⟩ := hfits seg List.mem_cons_self
      refine ih (fun seg' hseg' ↦ hfits seg' (List.mem_cons_of_mem seg hseg')) ?_
      have hnext := h.unloadPages (V := seg.vaddr / 4096) (i := 0) (n := seg.pages) hlt _ hI
      rwa [Nat.div_mul_cancel hdvd] at hnext

theorem Kept.elfUnload (h : Kept T P I) (hfits : img.Fits) (hI : I img.pageList s.mm)
    (hptr : img.ptr ≠ 0) (hrun : elfUnload T s img = .done s') : I [] s'.mm := by
  rw [Elf.elfUnload, if_neg hptr, Outcome.bind_eq_done_iff] at hrun
  obtain ⟨heap, -, hdone⟩ := hrun
  cases hdone
  exact h.unloadSegs img.segs hfits hI

theorem Kept.loadPages (h : Kept T P I) (F : File) (ph : Phdr) (hV : V + i + n < 2 ^ 20)
    (hpre : L ++ List.range' (V + i) n <+: P) (hI : I L s.mm) :
    ∃ k ≤ n, (loadPages T F ph (V * 4096) n i s).2.1 = i + k ∧
      I (L ++ List.range' (V + i) k) (loadPages T F ph (V * 4096) n i s).2.2.mm ∧
      ((loadPages T F ph (V * 4096) n i s).1 = 0 ∧ k = n ∨
        (loadPages T F ph (V * 4096) n i s).1 = -1) := by
  induction n generalizing i s L with
  | zero =>
      refine ⟨0, le_refl 0, rfl, ?_, Or.inl ⟨rfl, rfl⟩⟩
      rw [List.range'_zero, List.append_nil]
      exact hI
  | succ n ih =>
      rw [Elf.loadPages, page_address (by omega)]
      have hpage := loadPage_spec F ph (h.ok _ _ hI) (show V + i + 1 < 2 ^ 20 by omega)
      generalize loadPage T F ph ((V + i) * 4096) s = r at hpage
      obtain ⟨r, s₁⟩ := r
      simp only at hpage
      rw [List.range'_succ] at hpre
      rcases hpage with ⟨rfl, hnot⟩ | ⟨rfl, p, N, hload⟩
      · refine ⟨0, Nat.zero_le _, rfl, ?_, Or.inr rfl⟩
        have hnext := h.step _ _ _ _ hI (.fail hnot)
        simpa using hnext
      · have hnext := h.step _ _ _ _ hI
          (.load (List.IsPrefix.trans ⟨List.range' (V + i + 1) n, by simp⟩ hpre) (by omega) hload)
        obtain ⟨k, hk, hpages, hI', hres⟩ := ih (i := i + 1) (by omega)
          (by simpa [Nat.add_assoc] using hpre) hnext
        simp only [lt_self_iff_false, if_false]
        refine ⟨k + 1, by omega, by rw [hpages]; omega, ?_, ?_⟩
        · rw [List.range'_succ]
          simpa [Nat.add_assoc] using hI'
        · rcases hres with ⟨hr, rfl⟩ | hr
          · exact Or.inl ⟨hr, rfl⟩
          · exact Or.inr hr

theorem UserImage.pageList_append (img : UserImage) (seg : UserSeg) :
    ({ img with segs := img.segs ++ [seg] } : UserImage).pageList =
      img.pageList ++ seg.pageList := by
  rw [UserImage.pageList, List.flatMap_append, List.flatMap_singleton]
  rfl

/-- The words of a program header. -/
structure Phdr.Words (ph : Phdr) : Prop where
  offset : ph.pOffset < 2 ^ 32
  vaddr : ph.pVaddr < 2 ^ 32
  filesz : ph.pFilesz < 2 ^ 32
  memsz : ph.pMemsz < 2 ^ 32

theorem File.phdr_words (F : File) (i : ℕ) : (F.phdr i).Words :=
  ⟨read32_lt _ _, read32_lt _ _, read32_lt _ _, read32_lt _ _⟩

theorem Phdr.Words.vstart_eq (h : ph.Words) : ph.vstart = ph.pVaddr / 4096 * 4096 :=
  frame_mask h.vaddr

theorem Phdr.vend_eq (ph : Phdr) :
    ph.vend = Word.add (Word.add ph.pVaddr ph.pMemsz) 0xFFF / 4096 * 4096 :=
  frame_mask (Word.add_lt _ _)

theorem Phdr.vend_lt (ph : Phdr) : ph.vend / 4096 < 2 ^ 20 := by
  have hlt := Word.add_lt (Word.add ph.pVaddr ph.pMemsz) 0xFFF
  rw [ph.vend_eq]
  omega

/-- A segment is loaded, or recorded in part, or not recorded. -/
theorem Kept.loadSegment (h : Kept T P I) (F : File) (off : ℕ) (hph : ph.Words)
    (hpre : img.pageList ++ ph.pageList <+: P) (hfits : img.Fits) (hI : I img.pageList s.mm) :
    ∃ r img' s', loadSegment T F off ph img s = (r, img', s') ∧ (r = 0 ∨ r = -1) ∧
      I img'.pageList s'.mm ∧ img'.Fits ∧ img'.ptr = img.ptr ∧
      (r = 0 → img'.pageList = img.pageList ++ ph.pageList) := by
  rw [Elf.loadSegment]
  split_ifs with hfull hempty
  · exact ⟨_, _, _, rfl, Or.inr rfl, hI, hfits, rfl, nofun⟩
  · exact ⟨_, _, _, rfl, Or.inr rfl, hI, hfits, rfl, nofun⟩
  · have hend := ph.vend_lt
    have hvend := ph.vend_eq
    have hstart := hph.vstart_eq
    have hV : ph.vstart / 4096 * 4096 = ph.vstart := by omega
    have hlist : ph.pageList =
        List.range' (ph.vstart / 4096 + 0) ((ph.vend - ph.vstart) / 0x1000) := rfl
    rw [hlist] at hpre
    obtain ⟨k, hk, hpages, hI', hres⟩ := h.loadPages F ph
      (s := (s.read (off + 8) 4).read (off + 20) 4) (V := ph.vstart / 4096) (i := 0)
      (by omega) hpre hI
    rw [hV] at hpages hI' hres
    simp only
    generalize Elf.loadPages T F ph ph.vstart ((ph.vend - ph.vstart) / 0x1000) 0
      ((s.read (off + 8) 4).read (off + 20) 4) = r at hpages hI' hres ⊢
    obtain ⟨r, pages, s₁⟩ := r
    simp only at hpages hI' hres
    obtain rfl : pages = k := by omega
    refine ⟨r, _, s₁, rfl, hres.imp And.left id, ?_, ?_, rfl, ?_⟩
    · rw [img.pageList_append]
      exact hI'
    · intro seg hseg
      rcases List.mem_append.mp hseg with hseg | hseg
      · exact hfits seg hseg
      · obtain rfl := List.mem_singleton.mp hseg
        exact ⟨show 4096 ∣ ph.vstart by omega, show ph.vstart / 4096 + pages < 2 ^ 20 by omega⟩
    · intro hr
      rcases hres with ⟨-, rfl⟩ | hr'
      · rw [img.pageList_append]
        rfl
      · rw [hr] at hr'
        cases hr'

theorem File.pagesFrom_succ (F : File) (i n : ℕ) : F.pagesFrom i (n + 1) =
    (if F.Loads i then (F.phdr i).pageList else []) ++ F.pagesFrom (i + 1) n := by
  rw [File.pagesFrom, List.range'_succ, List.flatMap_cons]
  rfl

theorem Kept.loadHeaders (h : Kept T P I) (hpre : img.pageList ++ F.pagesFrom i n <+: P)
    (hfits : img.Fits) (hptr : img.ptr ≠ 0) (hI : I img.pageList s.mm) {r : ℤ}
    {img' : UserImage} (hrun : loadHeaders T F n i img s = .done (r, img', s')) :
    r = 0 ∧ I img'.pageList s'.mm ∧ img'.Fits ∧ img'.ptr = img.ptr ∧
        img'.pageList = img.pageList ++ F.pagesFrom i n ∨
      r ≠ 0 ∧ I [] s'.mm := by
  induction n generalizing i img s with
  | zero =>
      cases hrun
      exact Or.inl ⟨rfl, hI, hfits, rfl, by simp [File.pagesFrom]⟩
  | succ n ih =>
      rw [F.pagesFrom_succ] at hpre ⊢
      by_cases hload : F.Loads i
      swap
      · rw [if_neg hload] at hpre ⊢
        obtain ⟨s₁, hmm, hrun⟩ := loadHeaders_skip hload hrun
        exact ih hpre hfits hptr (by rwa [hmm]) hrun
      rw [if_pos hload] at hpre ⊢
      have hthis : img.pageList ++ (F.phdr i).pageList <+: P :=
        List.IsPrefix.trans ⟨F.pagesFrom (i + 1) n, by rw [List.append_assoc]⟩ hpre
      obtain ⟨q, img₁, s₁, hcall, -, hI₁, hfits₁, hptr₁, hpages₁⟩ := h.loadSegment F
        (F.phdrOffset i) (F.phdr_words i) hthis hfits (s := s.readPhdr F i) hI
      rcases loadHeaders_load hload hrun with ⟨rfl, -, hunload⟩ | ⟨-, q', img₂, s₂, hcall', hnext⟩
      · exact Or.inr ⟨by norm_num, h.elfUnload (s := s.readPhdr F i) hfits hI hptr hunload⟩
      rw [hcall] at hcall'
      cases hcall'
      rcases hnext with ⟨-, rfl, hunload⟩ | ⟨rfl, hrun⟩
      · exact Or.inr ⟨by norm_num, h.elfUnload hfits₁ hI₁ (by rwa [hptr₁]) hunload⟩
      · rw [← List.append_assoc, ← hpages₁ rfl] at hpre ⊢
        rcases ih hpre hfits₁ (by rwa [hptr₁]) hI₁ hrun with
          ⟨hr, hI', hfits', hptr', hpages'⟩ | hfail
        · exact Or.inl ⟨hr, hI', hfits', hptr'.trans hptr₁, hpages'⟩
        · exact Or.inr hfail

/-- What `elf_load` leaves: a new image, or no recorded pages. -/
theorem Kept.elfLoad (h : Kept T F.pageList I) (hI : I [] s.mm) {r : ℤ} {outImage : ℕ}
    {out : Option UserImage} (hrun : elfLoad T s F outImage = .done (r, out, s')) :
    (∃ img, r = 0 ∧ out = some img ∧ I img.pageList s'.mm ∧ img.Fits ∧ img.ptr ≠ 0 ∧
        img.pageList = F.pageList) ∨
      r ≠ 0 ∧ out = none ∧ I [] s'.mm := by
  rcases elfLoad_cases hrun with ⟨hr, rfl, hmm, -⟩ | ⟨p, heap, img, -, hp, rfl, hheaders⟩
  · exact Or.inr ⟨hr, rfl, by rwa [hmm]⟩
  have hpre : UserImage.pageList ⟨p, [], F.eEntry⟩ ++ F.pagesFrom 0 F.ePhnum <+: F.pageList :=
    List.prefix_refl _
  have hI' : I [] (s.readEhdr F).mm := by rwa [s.readEhdr_mm]
  rcases h.loadHeaders (s := { s.readEhdr F with heap := heap }) hpre
    (fun seg hseg ↦ absurd hseg List.not_mem_nil) hp hI' hheaders with
    ⟨rfl, hI₁, hfits, hptr, hpages⟩ | ⟨hne, hI₁⟩
  · exact Or.inl ⟨img, rfl, if_pos rfl, hI₁, hfits, by rwa [hptr], hpages⟩
  · exact Or.inr ⟨hne, if_neg hne, hI₁⟩

end MyOS.Elf
