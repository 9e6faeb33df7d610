import MyOS.Elf.Images

/-!
# What the pages of an image contain

`load_segment` clears every frame and copies into it the part of the file that falls on its page.
The frame of a page that was loaded is neither free nor a table, so that later pages, and the
tables made for them, leave it alone.
-/

namespace MyOS.Elf

open Bytes Mm

variable {T : Tables} {m₀ m m' : Mm} {s s' : Sys} {F : File} {ph : Phdr} {v p n i V : ℕ}
  {N : Finset ℕ} {img img' : UserImage} {L : List (ℕ × (ℕ → UInt8))}

/-! ## One page -/

/-- The byte that belongs to address `a` of a segment: one of the file, or zero. -/
def Phdr.byteAt (F : File) (ph : Phdr) (a : ℕ) : UInt8 :=
  if ph.pVaddr ≤ a ∧ a < ph.pVaddr + ph.pFilesz then F.bytes (ph.pOffset + (a - ph.pVaddr)) else 0

/-- The ends of the file's part of a segment are words. -/
structure Phdr.Bounded (ph : Phdr) : Prop where
  filesz : ph.pVaddr + ph.pFilesz < 2 ^ 32
  offset : ph.pOffset + ph.pFilesz < 2 ^ 32

theorem fillPage_contents {va phy : ℕ} (hph : ph.Bounded) (hva : va + 0x1000 < 2 ^ 32)
    (hphy : phy + 0x1000 ≤ 2 ^ 32) (hi : i < 0x1000) :
    (fillPage F ph va phy s).mm.mem (phy + i) = ph.byteAt F (va + i) := by
  have hfilesz := hph.filesz
  have hoffset := hph.offset
  rw [fillPage]
  have hend : Word.add va 0x1000 = va + 0x1000 := Word.add_eq hva
  have hfile : Word.add ph.pVaddr ph.pFilesz = ph.pVaddr + ph.pFilesz := Word.add_eq hfilesz
  simp only [hend, hfile]
  generalize hfirst : (if va > ph.pVaddr then va else ph.pVaddr) = first
  generalize hlast : (if va + 0x1000 < ph.pVaddr + ph.pFilesz then va + 0x1000
    else ph.pVaddr + ph.pFilesz) = last
  have hlower : va ≤ first ∧ ph.pVaddr ≤ first := by
    rw [← hfirst]
    split <;> omega
  have hupper : last ≤ va + 0x1000 ∧ last ≤ ph.pVaddr + ph.pFilesz := by
    rw [← hlast]
    split <;> omega
  -- the page's part of the file is between `first` and `last`
  have hpart : (ph.pVaddr ≤ va + i ∧ va + i < ph.pVaddr + ph.pFilesz) ↔
      first ≤ va + i ∧ va + i < last := by
    rw [← hfirst, ← hlast]
    split <;> split <;> omega
  have hzero : s.mm.mem.blit phy 0x1000 (fun _ ↦ 0) (phy + i) = 0 :=
    blit_apply (Nat.le_add_right phy i) (Nat.add_lt_add_left hi phy)
  rw [Phdr.byteAt]
  simp only [hpart]
  split
  case isTrue hlt =>
    have hlen : Word.sub last first = last - first := Word.sub_eq hlt.le (by omega)
    have hoff : Word.sub first va = first - va := Word.sub_eq hlower.1 (by omega)
    have hsrc : Word.sub first ph.pVaddr = first - ph.pVaddr := Word.sub_eq hlower.2 (by omega)
    have hfoff : Word.add ph.pOffset (first - ph.pVaddr) = ph.pOffset + (first - ph.pVaddr) :=
      Word.add_eq (by omega)
    have hdst : Word.add phy (first - va) = phy + (first - va) := Word.add_eq (by omega)
    simp only [Sys.read, hlen, hoff, hsrc, hfoff, hdst]
    split
    case isTrue hin =>
      have hword : ph.pOffset + (first - ph.pVaddr) + (phy + i - (phy + (first - va))) =
          ph.pOffset + (va + i - ph.pVaddr) := by omega
      rw [blit_apply (by omega) (by omega), File.bytesAt, hword, Nat.mod_eq_of_lt (by omega)]
    case isFalse hout => rw [blit_apply_of_notMem (by omega), hzero]
  case isFalse hempty =>
    rw [if_neg (by omega)]
    exact hzero

/-! ## Pages that are loaded -/

/-- Each page of `L` has a frame, neither free nor a table, with the bytes that `L` gives.  The
translations of the other pages are those of `m₀`. -/
structure Contents (T : Tables) (m₀ m : Mm) (L : List (ℕ × (ℕ → UInt8))) : Prop where
  ok : m.Ok T
  rest : ∀ v < 2 ^ 20, (∀ x ∈ L, x.1 ≠ v) → m.mapping T v = m₀.mapping T v
  frame : ∀ x ∈ L, ∃ f, m.mapping T x.1 = some f ∧ f ∉ m.pmm.freePages ∧ ¬m.TablePage T f ∧
    ∀ i < 4096, m.mem (f * 4096 + i) = x.2 i

/-- The bytes of page `v` in the segment of `ph`. -/
def Phdr.page (F : File) (ph : Phdr) (v : ℕ) : ℕ × (ℕ → UInt8) :=
  (v, fun i ↦ ph.byteAt F (v * 4096 + i))

theorem Contents.load (h : Contents T m₀ m L) (hL : ∀ x ∈ L, x.1 < 2 ^ 20 ∧ x.1 ≠ v)
    (hv : v < 2 ^ 20) (hl : Loaded T m m' v p N)
    (hmem : ∀ a, a / 4096 ≠ p → ¬m'.TablePage T (a / 4096) → m'.mem a = m.mem a)
    {bytes : ℕ → UInt8} (hbytes : ∀ i < 4096, m'.mem (p * 4096 + i) = bytes i) :
    Contents T m₀ m' (L ++ [(v, bytes)]) := by
  refine ⟨hl.ok, fun u hu hne ↦ ?_, fun x hx ↦ ?_⟩
  · have huv : u ≠ v := Ne.symm (hne (v, bytes) (by simp))
    rw [hl.mapping u hu, if_neg huv]
    exact h.rest u hu fun x hx ↦ hne x (List.mem_append_left _ hx)
  rcases List.mem_append.mp hx with hx | hx
  · obtain ⟨f, hf, hused, htable, hold⟩ := h.frame x hx
    obtain ⟨hlt, hne⟩ := hL x hx
    have hfp : f ≠ p := by
      rintro rfl
      exact hused hl.frame
    have htable' : ¬m'.TablePage T f := by
      rw [hl.tablePage, not_or]
      exact ⟨htable, fun hnew ↦ hused (Finset.mem_of_mem_erase (hl.tables hnew))⟩
    refine ⟨f, ?_, fun hfree ↦ hused (hl.free_subset hfree), htable', fun i hi ↦ ?_⟩
    · rw [hl.mapping _ hlt, if_neg hne]
      exact hf
    · have hpage : (f * 4096 + i) / 4096 = f := by omega
      rw [hmem _ (by rwa [hpage]) (by rwa [hpage])]
      exact hold i hi
  · obtain rfl := List.mem_singleton.mp hx
    refine ⟨p, ?_, hl.frame_used, hl.frame_not_table h.ok, hbytes⟩
    rw [hl.mapping _ hv, if_pos rfl]

theorem Contents.loadPage (h : Contents T m₀ s.mm L) (hph : ph.Bounded)
    (hL : ∀ x ∈ L, x.1 < 2 ^ 20 ∧ x.1 ≠ v) (hv : v + 1 < 2 ^ 20)
    (hr : (loadPage T F ph (v * 4096) s).1 = 0) :
    Contents T m₀ (Elf.loadPage T F ph (v * 4096) s).2.mm (L ++ [ph.page F v]) := by
  rcases loadPage_cases F ph h.ok hv with ⟨hfail, -⟩ | ⟨-, p, N, hload, m₂, hfill, hmem⟩
  · rw [hr] at hfail
    cases hfail
  · have hp : p < 2 ^ 20 := (Pmm.mem_freePages.mp hload.frame).1
    refine h.load hL (by omega) hload (fun a hap ha ↦ ?_) fun i hi ↦ ?_
    · rw [← hmem a ha, hfill]
      exact fillPage_mem F ph (by omega) hp hap
    · rw [hfill]
      exact fillPage_contents hph (by omega) (by omega) hi

theorem Contents.loadPages (h : Contents T m₀ s.mm L) (hph : ph.Bounded)
    (hL : ∀ x ∈ L, x.1 < 2 ^ 20) (hV : V + i + n < 2 ^ 20)
    (hnew : ∀ x ∈ L, x.1 ∉ List.range' (V + i) n)
    (hr : (loadPages T F ph (V * 4096) n i s).1 = 0) :
    (Elf.loadPages T F ph (V * 4096) n i s).2.1 = i + n ∧
      Contents T m₀ (Elf.loadPages T F ph (V * 4096) n i s).2.2.mm
        (L ++ (List.range' (V + i) n).map (ph.page F)) := by
  induction n generalizing i s L with
  | zero =>
      refine ⟨rfl, ?_⟩
      rw [List.range'_zero, List.map_nil, List.append_nil]
      exact h
  | succ n ih =>
      rw [Elf.loadPages, page_address (by omega)] at hr ⊢
      rcases loadPage_spec F ph h.ok (show V + i + 1 < 2 ^ 20 by omega) with
        ⟨hfail, -⟩ | ⟨hzero, -⟩
      · rw [if_pos (by rw [hfail]; norm_num)] at hr
        cases hr
      · rw [if_neg (by rw [hzero]; exact lt_irrefl 0)] at hr ⊢
        have hfresh : ∀ x ∈ L, x.1 < 2 ^ 20 ∧ x.1 ≠ V + i := by
          intro x hx
          refine ⟨hL x hx, fun heq ↦ hnew x hx ?_⟩
          rw [heq, List.range'_succ]
          exact List.mem_cons_self
        have hpage := h.loadPage hph hfresh (by omega) hzero
        obtain ⟨hcount, hcontents⟩ := ih hpage
          (by
            intro x hx
            rcases List.mem_append.mp hx with hx | hx
            · exact hL x hx
            · rw [List.mem_singleton.mp hx]
              change V + i < 2 ^ 20
              omega)
          (by omega)
          (by
            intro x hx hmem
            rw [List.mem_range'_1] at hmem
            rcases List.mem_append.mp hx with hx | hx
            · refine hnew x hx ?_
              rw [List.mem_range'_1]
              omega
            · rw [List.mem_singleton.mp hx] at hmem
              change V + (i + 1) ≤ V + i ∧ V + i < _ at hmem
              omega)
          hr
        refine ⟨by rw [hcount]; omega, ?_⟩
        rw [List.range'_succ, List.map_cons]
        simpa [Nat.add_assoc] using hcontents

/-! ## Segments and headers -/

def Phdr.seg (ph : Phdr) : UserSeg := ⟨ph.vstart, (ph.vend - ph.vstart) / 0x1000⟩

/-- The segments of the program headers `i, i + 1, …`, `n` of them. -/
def File.segsFrom (F : File) (i n : ℕ) : List UserSeg :=
  (List.range' i n).flatMap fun j ↦ if F.Loads j then [(F.phdr j).seg] else []

def File.contentsFrom (F : File) (i n : ℕ) : List (ℕ × (ℕ → UInt8)) :=
  (List.range' i n).flatMap fun j ↦
    if F.Loads j then (F.phdr j).pageList.map ((F.phdr j).page F) else []

theorem File.segsFrom_succ (F : File) (i n : ℕ) : F.segsFrom i (n + 1) =
    (if F.Loads i then [(F.phdr i).seg] else []) ++ F.segsFrom (i + 1) n := by
  rw [File.segsFrom, List.range'_succ, List.flatMap_cons]
  rfl

theorem File.contentsFrom_succ (F : File) (i n : ℕ) : F.contentsFrom i (n + 1) =
    (if F.Loads i then (F.phdr i).pageList.map ((F.phdr i).page F) else []) ++
      F.contentsFrom (i + 1) n := by
  rw [File.contentsFrom, List.range'_succ, List.flatMap_cons]
  rfl

theorem Phdr.pageList_lt (ph : Phdr) (hwords : ph.Words) (v : ℕ) (hv : v ∈ ph.pageList) :
    v < 2 ^ 20 := by
  have hend := ph.vend_lt
  have hvend := ph.vend_eq
  have hstart := hwords.vstart_eq
  rw [Phdr.pageList, List.mem_range'_1] at hv
  omega

theorem Contents.loadSegment {off : ℕ} (h : Contents T m₀ s.mm L) (hwords : ph.Words)
    (hph : ph.Bounded) (hL : ∀ x ∈ L, x.1 < 2 ^ 20) (hnew : ∀ x ∈ L, x.1 ∉ ph.pageList)
    (hr : (loadSegment T F off ph img s).1 = 0) :
    (Elf.loadSegment T F off ph img s).2.1 = { img with segs := img.segs ++ [ph.seg] } ∧
      Contents T m₀ (Elf.loadSegment T F off ph img s).2.2.mm
        (L ++ ph.pageList.map (ph.page F)) := by
  rw [Elf.loadSegment] at hr ⊢
  split_ifs at hr ⊢ with hfull hempty
  · cases hr
  · cases hr
  have hend := ph.vend_lt
  have hvend := ph.vend_eq
  have hstart := hwords.vstart_eq
  have hV : ph.vstart / 4096 * 4096 = ph.vstart := by omega
  have hcode : (Elf.loadPages T F ph (ph.vstart / 4096 * 4096) ((ph.vend - ph.vstart) / 0x1000) 0
      ((s.read (off + 8) 4).read (off + 20) 4)).1 = 0 := by
    rw [hV]
    exact hr
  have h₁ : Contents T m₀ ((s.read (off + 8) 4).read (off + 20) 4).mm L := h
  have hfresh : ∀ x ∈ L, x.1 ∉
      List.range' (ph.vstart / 4096 + 0) ((ph.vend - ph.vstart) / 0x1000) := hnew
  obtain ⟨hcount, hcontents⟩ := h₁.loadPages hph hL (by omega) hfresh hcode
  rw [hV] at hcount hcontents
  rw [Nat.zero_add] at hcount
  refine ⟨?_, hcontents⟩
  simp only [hcount]
  rfl

theorem Contents.loadHeaders (h : Contents T m₀ s.mm L) (hL : ∀ x ∈ L, x.1 < 2 ^ 20)
    (hbounded : ∀ j, i ≤ j → j < i + n → F.Loads j → (F.phdr j).Bounded)
    (hnew : (L.map Prod.fst ++ F.pagesFrom i n).Nodup)
    (hrun : loadHeaders T F n i img s = .done (0, img', s')) :
    img'.segs = img.segs ++ F.segsFrom i n ∧ Contents T m₀ s'.mm (L ++ F.contentsFrom i n) := by
  induction n generalizing i img s L with
  | zero =>
      cases hrun
      simp only [File.segsFrom, File.contentsFrom, List.range'_zero, List.flatMap_nil,
        List.append_nil]
      exact ⟨trivial, h⟩
  | succ n ih =>
      rw [F.pagesFrom_succ] at hnew
      rw [F.segsFrom_succ, F.contentsFrom_succ]
      have hbounded' : ∀ j, i + 1 ≤ j → j < i + 1 + n → F.Loads j → (F.phdr j).Bounded :=
        fun j hlo hhi ↦ hbounded j (by omega) (by omega)
      by_cases hload : F.Loads i
      swap
      · rw [if_neg hload] at hnew
        rw [if_neg hload, if_neg hload]
        obtain ⟨s₁, hmm, hrun⟩ := loadHeaders_skip hload hrun
        exact ih (by rwa [hmm]) hL hbounded' hnew hrun
      rw [if_pos hload] at hnew
      rw [if_pos hload, if_pos hload]
      have hfresh : ∀ x ∈ L, x.1 ∉ (F.phdr i).pageList := by
        intro x hx hmem
        exact (List.nodup_append.mp hnew).2.2 x.1 (List.mem_map_of_mem hx) x.1
          (List.mem_append_left _ hmem) rfl
      rcases loadHeaders_load hload hrun with ⟨hr, -⟩ | ⟨-, q, img₁, s₁, hcall, hnext⟩
      · cases hr
      rcases hnext with ⟨-, hr, -⟩ | ⟨rfl, hrun⟩
      · cases hr
      have h₁ : Contents T m₀ (s.readPhdr F i).mm L := h
      have hcode : (Elf.loadSegment T F (F.phdrOffset i) (F.phdr i) img (s.readPhdr F i)).1 = 0 :=
        congrArg Prod.fst hcall
      obtain ⟨hsegs, hcontents⟩ := h₁.loadSegment (F.phdr_words i)
        (hbounded i (le_refl i) (by omega) hload) hL hfresh hcode
      simp only [hcall] at hsegs hcontents
      have hL' : ∀ x ∈ L ++ (F.phdr i).pageList.map ((F.phdr i).page F), x.1 < 2 ^ 20 := by
        intro x hx
        rcases List.mem_append.mp hx with hx | hx
        · exact hL x hx
        · obtain ⟨v, hv, rfl⟩ := List.mem_map.mp hx
          exact (F.phdr i).pageList_lt (F.phdr_words i) v hv
      have hfst : (L ++ (F.phdr i).pageList.map ((F.phdr i).page F)).map Prod.fst =
          L.map Prod.fst ++ (F.phdr i).pageList := by
        simp [Phdr.page, Function.comp_def]
      obtain ⟨hsegs', hcontents'⟩ := ih hcontents hL' hbounded'
        (by rwa [hfst, List.append_assoc]) hrun
      refine ⟨?_, by rwa [← List.append_assoc]⟩
      rw [hsegs', hsegs, List.append_assoc]

theorem elfLoad_contents {out : ℕ} (hok : s.mm.Ok T)
    (hbounded : ∀ j < F.ePhnum, F.Loads j → (F.phdr j).Bounded) (hnodup : F.pageList.Nodup)
    (hrun : elfLoad T s F out = .done (0, some img, s')) :
    img.segs = F.segsFrom 0 F.ePhnum ∧
      Contents T s.mm s'.mm (F.contentsFrom 0 F.ePhnum) := by
  rcases elfLoad_cases hrun with ⟨hr, -⟩ | ⟨p, heap, img₁, -, -, hout, hheaders⟩
  · cases hr rfl
  obtain rfl : img = img₁ := Option.some.inj (hout.trans (if_pos rfl))
  have hstart : Contents T s.mm ({ s.readEhdr F with heap := heap } : Sys).mm [] := by
    refine ⟨?_, fun v _ _ ↦ ?_, by simp⟩
    · change (s.readEhdr F).mm.Ok T
      rwa [s.readEhdr_mm]
    · change (s.readEhdr F).mm.mapping T v = s.mm.mapping T v
      rw [s.readEhdr_mm]
  exact hstart.loadHeaders (by simp) (fun j _ hj ↦ hbounded j (by omega)) hnodup hheaders

/-! ## Whole files -/

/-- The program headers are in the file.  The segments to load are in the file too, end in the
address space at or above 4 MB, and have no page in common. -/
structure File.WellFormed (F : File) : Prop where
  table : F.ePhoff + 32 * F.ePhnum ≤ F.size
  segment : ∀ i < F.ePhnum, F.Loads i → 0x400000 ≤ (F.phdr i).pVaddr ∧
    (F.phdr i).pFilesz ≤ (F.phdr i).pMemsz ∧
    (F.phdr i).pVaddr + (F.phdr i).pMemsz + 0xFFF < 2 ^ 32 ∧
    (F.phdr i).pOffset + (F.phdr i).pFilesz ≤ F.size
  disjoint : ∀ i < F.ePhnum, ∀ j < F.ePhnum, i ≠ j → F.Loads i → F.Loads j →
    (F.phdr i).pageList.Disjoint (F.phdr j).pageList

theorem File.WellFormed.bounded (h : F.WellFormed) (hi : i < F.ePhnum) (hload : F.Loads i) :
    (F.phdr i).Bounded := by
  obtain ⟨-, hfilesz, hend, hoffset⟩ := h.segment i hi hload
  have hsize := F.size_lt
  exact ⟨by omega, by omega⟩

theorem File.WellFormed.nodup (h : F.WellFormed) : F.pageList.Nodup := by
  refine List.nodup_flatMap.mpr ⟨fun i _ ↦ ?_, ?_⟩
  · split
    · exact List.nodup_range'
    · exact List.nodup_nil
  · refine List.Pairwise.imp_of_mem ?_ List.nodup_range'
    intro i j hi hj hne
    rw [List.mem_range'_1] at hi hj
    change List.Disjoint _ _
    beta_reduce
    split
    case isTrue hloadi =>
      split
      case isTrue hloadj => exact h.disjoint i (by omega) j (by omega) hne hloadi hloadj
      case isFalse => exact List.disjoint_nil_right _
    case isFalse => exact List.disjoint_nil_left _

/-- The pages of a segment whose end is a word. -/
theorem Phdr.mem_pageList (hwords : ph.Words) (hend : ph.pVaddr + ph.pMemsz + 0xFFF < 2 ^ 32) :
    v ∈ ph.pageList ↔
      ph.pVaddr / 4096 ≤ v ∧ v < (ph.pVaddr + ph.pMemsz + 0xFFF) / 4096 := by
  have hsum : Word.add ph.pVaddr ph.pMemsz = ph.pVaddr + ph.pMemsz := Word.add_eq (by omega)
  have hsum' : Word.add (ph.pVaddr + ph.pMemsz) 0xFFF = ph.pVaddr + ph.pMemsz + 0xFFF :=
    Word.add_eq hend
  have hvend := ph.vend_eq
  rw [hsum, hsum'] at hvend
  have hstart := hwords.vstart_eq
  rw [Phdr.pageList, List.mem_range'_1]
  omega

theorem File.segsFrom_pages (F : File) (i n : ℕ) :
    (F.segsFrom i n).flatMap UserSeg.pageList = F.pagesFrom i n := by
  rw [File.segsFrom, List.flatMap_assoc]
  refine List.flatMap_congr fun j _ ↦ ?_
  by_cases hload : F.Loads j
  · rw [if_pos hload, List.flatMap_singleton, if_pos hload]
    rfl
  · rw [if_neg hload, List.flatMap_nil, if_neg hload]

theorem File.contentsFrom_pages (F : File) (i n : ℕ) :
    (F.contentsFrom i n).map Prod.fst = F.pagesFrom i n := by
  rw [File.contentsFrom, List.map_flatMap]
  refine List.flatMap_congr fun j _ ↦ ?_
  by_cases hload : F.Loads j
  · rw [if_pos hload, if_pos hload, List.map_map]
    exact List.map_id _
  · rw [if_neg hload, if_neg hload, List.map_nil]

/-- The byte that a loaded address leads to. -/
theorem Contents.read_eq (h : Contents T m₀ m (F.contentsFrom 0 F.ePhnum)) (hi : i < F.ePhnum)
    (hload : F.Loads i) {a : ℕ} (ha : a / 4096 ∈ (F.phdr i).pageList) :
    m.mem (m.vmmGetPhys T a) = (F.phdr i).byteAt F a := by
  have hmem : (F.phdr i).page F (a / 4096) ∈ F.contentsFrom 0 F.ePhnum := by
    refine List.mem_flatMap.mpr ⟨i, List.mem_range'_1.mpr (by omega), ?_⟩
    rw [if_pos hload]
    exact List.mem_map_of_mem ha
  obtain ⟨f, hf, -, -, hbytes⟩ := h.frame _ hmem
  have hlt := (F.phdr i).pageList_lt (F.phdr_words i) _ ha
  have hbyte := hbytes (a % 4096) (Nat.mod_lt a (by norm_num))
  simp only [Phdr.page, Nat.div_add_mod'] at hf hbyte
  rw [vmmGetPhys_eq h.ok (by omega), hf]
  exact hbyte

theorem Phdr.seg_eq (hwords : ph.Words) (hend : ph.pVaddr + ph.pMemsz + 0xFFF < 2 ^ 32) :
    ph.seg = ⟨ph.pVaddr / 4096 * 4096,
      (ph.pVaddr + ph.pMemsz + 0xFFF) / 4096 - ph.pVaddr / 4096⟩ := by
  have hsum : Word.add ph.pVaddr ph.pMemsz = ph.pVaddr + ph.pMemsz := Word.add_eq (by omega)
  have hsum' : Word.add (ph.pVaddr + ph.pMemsz) 0xFFF = ph.pVaddr + ph.pMemsz + 0xFFF :=
    Word.add_eq hend
  rw [Phdr.seg, ph.vend_eq, hwords.vstart_eq, hsum, hsum', ← Nat.sub_mul,
    Nat.mul_div_cancel _ (by norm_num)]

/-- After `elf_load` a segment's bytes are in the frames of its pages, the other bytes of these
frames are zero, and the image lists these pages.  No other translation has changed. -/
theorem elfLoad_builds_image {out : ℕ} (hok : s.mm.Ok T) (hF : F.WellFormed)
    (hrun : elfLoad T s F out = .done (0, some img, s')) :
    (∀ i < F.ePhnum, F.Loads i → ∀ a,
      (F.phdr i).pVaddr ≤ a → a < (F.phdr i).pVaddr + (F.phdr i).pMemsz →
        s'.mm.mem (s'.mm.vmmGetPhys T a) =
          if a < (F.phdr i).pVaddr + (F.phdr i).pFilesz then
            F.bytes ((F.phdr i).pOffset + (a - (F.phdr i).pVaddr)) else 0) ∧
    (∀ i < F.ePhnum, F.Loads i → ∀ a, a / 4096 ∈ (F.phdr i).pageList →
      (a < (F.phdr i).pVaddr ∨ (F.phdr i).pVaddr + (F.phdr i).pMemsz ≤ a) →
        s'.mm.mem (s'.mm.vmmGetPhys T a) = 0) ∧
    (∀ v ∈ img.pageList, (s'.mm.mapping T v).isSome = true) ∧
    (∀ v < 2 ^ 20, v ∉ img.pageList → s'.mm.mapping T v = s.mm.mapping T v) ∧
    img.segs = (List.range F.ePhnum).flatMap fun i ↦
      if F.Loads i then [⟨(F.phdr i).pVaddr / 4096 * 4096,
        ((F.phdr i).pVaddr + (F.phdr i).pMemsz + 0xFFF) / 4096 - (F.phdr i).pVaddr / 4096⟩]
      else [] := by
  obtain ⟨hsegs, hcontents⟩ := elfLoad_contents hok (fun j hj hl ↦ hF.bounded hj hl) hF.nodup hrun
  have hpages : img.pageList = F.pagesFrom 0 F.ePhnum := by
    rw [UserImage.pageList, hsegs, F.segsFrom_pages]
  refine ⟨fun i hi hload a hlo hhi ↦ ?_, fun i hi hload a ha hout ↦ ?_, fun v hv ↦ ?_,
    fun v hv hnot ↦ ?_, ?_⟩
  · obtain ⟨-, -, hend, -⟩ := hF.segment i hi hload
    rw [hcontents.read_eq hi hload ((Phdr.mem_pageList (F.phdr_words i) hend).mpr (by omega)),
      Phdr.byteAt]
    simp only [hlo, true_and]
  · obtain ⟨-, hfilesz, -, -⟩ := hF.segment i hi hload
    rw [hcontents.read_eq hi hload ha, Phdr.byteAt, if_neg (by omega)]
  · rw [hpages, ← F.contentsFrom_pages] at hv
    obtain ⟨x, hx, rfl⟩ := List.mem_map.mp hv
    obtain ⟨f, hf, -⟩ := hcontents.frame x hx
    rw [hf]
    rfl
  · refine hcontents.rest v hv fun x hx heq ↦ hnot ?_
    rw [hpages, ← F.contentsFrom_pages, ← heq]
    exact List.mem_map_of_mem hx
  · rw [hsegs, File.segsFrom, ← List.range_eq_range']
    refine List.flatMap_congr fun i hi ↦ ?_
    by_cases hload : F.Loads i
    · obtain ⟨-, -, hend, -⟩ := hF.segment i (List.mem_range.mp hi) hload
      rw [if_pos hload, if_pos hload, Phdr.seg_eq (F.phdr_words i) hend]
    · rw [if_neg hload, if_neg hload]

theorem segmentFile_wellFormed : (segmentFile 0x40000010 0 16 32).WellFormed := by
  have hnum : (segmentFile 0x40000010 0 16 32).ePhnum = 1 := by decide +kernel
  refine ⟨by decide +kernel, fun i hi _ ↦ ?_, fun i hi j hj hne ↦ ?_⟩
  · obtain rfl : i = 0 := by omega
    decide +kernel
  · omega

/-- Sixteen bytes of a file and sixteen zeros, in the middle of a page. -/
theorem elfLoad_builds_image_one : ∃ img s',
    elfLoad lowTables threeFrames (segmentFile 0x40000010 0 16 32) 1 = .done (0, some img, s') ∧
      s'.mm.mem (s'.mm.vmmGetPhys lowTables 0x40000010) = 0x7F ∧
      s'.mm.mem (s'.mm.vmmGetPhys lowTables 0x40000020) = 0 := by
  have hload : (elfLoad lowTables threeFrames (segmentFile 0x40000010 0 16 32) 1).value?.map
      (fun x ↦ decide (x.1 = 0 ∧ x.2.1.isSome = true)) = some true := by decide +kernel
  obtain ⟨⟨r, out, s'⟩, hrun, hcheck⟩ := Option.map_eq_some_iff.mp hload
  obtain ⟨hr, hsome⟩ := of_decide_eq_true hcheck
  obtain ⟨img, hout⟩ := Option.isSome_iff_exists.mp hsome
  simp only at hr hout
  subst hr hout
  have hok : threeFrames.mm.Ok lowTables := (shield_boot lowTables _ _ _).ok
  obtain ⟨hbytes, -⟩ := elfLoad_builds_image hok segmentFile_wellFormed
    (Outcome.value?_eq_some.mp hrun)
  have hnum : 0 < (segmentFile 0x40000010 0 16 32).ePhnum := by decide +kernel
  have hloads : (segmentFile 0x40000010 0 16 32).Loads 0 := by decide +kernel
  refine ⟨img, s', Outcome.value?_eq_some.mp hrun, ?_, ?_⟩
  · rw [hbytes 0 hnum hloads _ (by decide +kernel) (by decide +kernel)]
    decide +kernel
  · rw [hbytes 0 hnum hloads _ (by decide +kernel) (by decide +kernel)]
    decide +kernel

end MyOS.Elf
