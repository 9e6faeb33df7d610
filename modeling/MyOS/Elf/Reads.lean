import MyOS.Elf.Images

/-!
# What the loader reads

The loader compares `e_phoff + e_phnum * 32` and `p_offset + p_filesz` with the size of the
file, both computed modulo `2 ^ 32`.  When neither sum wraps, it reads nothing but the file.
What it reads otherwise is described header by header, from the states in which it gets there.
-/

namespace MyOS.Elf

open Bytes Mm Heap

variable {T : Tables} {s s' : Sys} {F : File} {ph : Phdr} {img : UserImage} {v vstart n i k : ℕ}

/-- The bytes of a read are bytes of the file. -/
def Inside (F : File) (x : ℕ × ℕ) : Prop := ∀ k < x.2, (x.1 + k) % 2 ^ 32 < F.size

/-- All reads so far were inside. -/
def AllInside (F : File) (s : Sys) : Prop := ∀ x ∈ s.reads, Inside F x

theorem allInside_read {off : ℕ} :
    AllInside F (s.read off n) ↔ Inside F (off, n) ∧ AllInside F s :=
  List.forall_mem_cons

/-! ## The copy of a page -/

/-- The first and the end address of what is copied to the page at `v`. -/
def copyLo (ph : Phdr) (v : ℕ) : ℕ := if v > ph.pVaddr then v else ph.pVaddr

def copyHi (ph : Phdr) (v : ℕ) : ℕ :=
  if Word.add v 0x1000 < Word.add ph.pVaddr ph.pFilesz then Word.add v 0x1000
  else Word.add ph.pVaddr ph.pFilesz

/-- The copy to the page at `v` reads bytes of the file. -/
def CopyInside (F : File) (ph : Phdr) (v : ℕ) : Prop :=
  copyLo ph v < copyHi ph v →
    Inside F (Word.add ph.pOffset (Word.sub (copyLo ph v) ph.pVaddr),
      Word.sub (copyHi ph v) (copyLo ph v))

theorem fillPage_inside (phy : ℕ) :
    AllInside F (fillPage F ph v phy s) ↔ CopyInside F ph v ∧ AllInside F s := by
  rw [fillPage, CopyInside]
  change AllInside F (if copyLo ph v < copyHi ph v then _ else _) ↔ _
  by_cases hlt : copyLo ph v < copyHi ph v
  · rw [if_pos hlt, allInside_read]
    exact and_congr_left' ⟨fun h _ ↦ h, fun h ↦ h hlt⟩
  · rw [if_neg hlt]
    exact ⟨fun h ↦ ⟨fun h' ↦ absurd h' hlt, h⟩, fun h ↦ h.2⟩

theorem loadPage_inside (T : Tables) (F : File) (ph : Phdr) (v : ℕ) (s : Sys) :
    AllInside F (loadPage T F ph v s).2 ↔
      ((loadPage T F ph v s).1 = 0 → CopyInside F ph v) ∧ AllInside F s := by
  simp only [loadPage]
  split_ifs
  · exact ⟨fun h ↦ ⟨fun hcode ↦ absurd hcode (by simp), h⟩, fun h ↦ h.2⟩
  · exact ⟨fun h ↦ ⟨fun hcode ↦ absurd hcode (by simp), h⟩, fun h ↦ h.2⟩
  · rw [fillPage_inside]
    exact and_congr_left' ⟨fun h _ ↦ h, fun h ↦ h rfl⟩

theorem loadPage_code (T : Tables) (F : File) (ph : Phdr) (v : ℕ) (s : Sys) :
    (loadPage T F ph v s).1 = -1 ∨ (loadPage T F ph v s).1 = 0 := by
  simp only [loadPage]
  split_ifs
  · exact Or.inl rfl
  · exact Or.inl rfl
  · exact Or.inr rfl

theorem le_loadPages (T : Tables) (F : File) (ph : Phdr) (vstart n i : ℕ) (s : Sys) :
    i ≤ (loadPages T F ph vstart n i s).2.1 := by
  induction n generalizing i s with
  | zero => exact le_refl i
  | succ n ih =>
      rw [loadPages]
      split_ifs
      · exact le_refl i
      · exact (Nat.le_succ i).trans (ih (i + 1) _)

/-- The pages that were loaded are those whose copies were made. -/
theorem loadPages_inside (T : Tables) (F : File) (ph : Phdr) (vstart n i : ℕ) (s : Sys) :
    AllInside F (loadPages T F ph vstart n i s).2.2 ↔
      (∀ j, i ≤ j → j < (loadPages T F ph vstart n i s).2.1 →
        CopyInside F ph (Word.add vstart (Word.mul j 0x1000))) ∧ AllInside F s := by
  induction n generalizing i s with
  | zero => exact ⟨fun h ↦ ⟨fun j hlo hhi ↦ absurd hhi (Nat.not_lt.mpr hlo), h⟩, fun h ↦ h.2⟩
  | succ n ih =>
      rw [loadPages]
      have hcode := loadPage_code T F ph (Word.add vstart (Word.mul i 0x1000)) s
      have hpage := loadPage_inside T F ph (Word.add vstart (Word.mul i 0x1000)) s
      generalize loadPage T F ph (Word.add vstart (Word.mul i 0x1000)) s = r at hcode hpage
      obtain ⟨r, s₁⟩ := r
      rcases hcode with rfl | rfl
      · rw [if_pos (by norm_num), hpage]
        refine and_congr_left' ⟨fun _ j hlo hhi ↦ ?_, fun _ hcode ↦ absurd hcode (by simp)⟩
        exact absurd hhi (Nat.not_lt.mpr hlo)
      · rw [if_neg (by norm_num), ih, hpage, ← and_assoc]
        have hmore := le_loadPages T F ph vstart n (i + 1) s₁
        refine and_congr_left' ⟨?_, fun h ↦ ⟨fun j hlo hhi ↦ ?_, ?_⟩⟩
        · rintro ⟨hrest, hthis⟩ j hlo hhi
          rcases Nat.eq_or_lt_of_le hlo with rfl | hlt
          · exact hthis rfl
          · exact hrest j hlt hhi
        · exact h j (by omega) hhi
        · exact fun _ ↦ h i (le_refl i) hmore

/-- The copy in terms of the addresses that get a byte of the file. -/
theorem copyInside_iff (hph : ph.Words) (hv : v + 4096 < 2 ^ 32) :
    CopyInside F ph v ↔ ∀ x, max v ph.pVaddr ≤ x →
      x < min (v + 4096) (Word.add ph.pVaddr ph.pFilesz) →
      (ph.pOffset + (x - ph.pVaddr)) % 2 ^ 32 < F.size := by
  have hlo : copyLo ph v = max v ph.pVaddr := by
    rw [copyLo]
    split <;> omega
  have hhi : copyHi ph v = min (v + 4096) (Word.add ph.pVaddr ph.pFilesz) := by
    rw [copyHi, Word.add_eq hv]
    split <;> omega
  have hword := Word.add_lt ph.pVaddr ph.pFilesz
  have hvaddr := hph.vaddr
  rw [CopyInside, hlo, hhi]
  generalize hl : max v ph.pVaddr = lo
  generalize hh : min (v + 4096) (Word.add ph.pVaddr ph.pFilesz) = hi
  have hoff : Word.sub lo ph.pVaddr = lo - ph.pVaddr := Word.sub_eq (by omega) (by omega)
  have hbyte : ∀ k, (Word.add ph.pOffset (lo - ph.pVaddr) + k) % 2 ^ 32 =
      (ph.pOffset + (lo + k - ph.pVaddr)) % 2 ^ 32 := by
    intro k
    rw [Word.add, Nat.mod_add_mod]
    congr 1
    omega
  rw [hoff]
  constructor
  · intro h x hlox hxhi
    have hk := h (by omega) (x - lo) (by
      rw [Word.sub_eq (by omega) (by omega)]
      omega)
    rwa [hbyte, Nat.add_sub_cancel' hlox] at hk
  · intro h hlt k hk
    rw [Word.sub_eq (by omega) (by omega)] at hk
    rw [hbyte]
    exact h (lo + k) (by omega) (by omega)

/-! ## The copy of a segment -/

/-- The bytes that are copied for the first `n` pages of a segment: none when the addresses of
the file image wrap. -/
def Phdr.copied (ph : Phdr) (n : ℕ) : ℕ :=
  if 2 ^ 32 ≤ ph.pVaddr + ph.pFilesz then 0 else min ph.pFilesz (4096 * n - ph.pVaddr % 4096)

/-- Byte `d` of the file image is copied with one of the first `n` pages. -/
theorem copies_iff (hph : ph.Words) (hn : ph.vstart + 4096 * n < 2 ^ 32) :
    (∀ j < n, CopyInside F ph (Word.add ph.vstart (Word.mul j 0x1000))) ↔
      ∀ d < ph.copied n, (ph.pOffset + d) % 2 ^ 32 < F.size := by
  have hstart := hph.vstart_eq
  have hvaddr := hph.vaddr
  have hfilesz := hph.filesz
  have hpage : ∀ j < n, (CopyInside F ph (Word.add ph.vstart (Word.mul j 0x1000)) ↔
      ∀ x, max (ph.vstart + 4096 * j) ph.pVaddr ≤ x →
        x < min (ph.vstart + 4096 * j + 4096) (Word.add ph.pVaddr ph.pFilesz) →
        (ph.pOffset + (x - ph.pVaddr)) % 2 ^ 32 < F.size) := by
    intro j hj
    rw [Word.mul_eq (by omega), Word.add_eq (by omega), Nat.mul_comm]
    exact copyInside_iff hph (by omega)
  rw [Phdr.copied]
  split
  case isTrue hwrap =>
    -- the end of the file image is below its start
    have hend : Word.add ph.pVaddr ph.pFilesz < ph.pVaddr := by
      rw [Word.add]
      omega
    refine iff_of_true (fun j hj ↦ (hpage j hj).mpr fun x hlo hhi ↦ ?_) fun d hd ↦ ?_
    · omega
    · omega
  case isFalse hwrap =>
    have hend : Word.add ph.pVaddr ph.pFilesz = ph.pVaddr + ph.pFilesz := Word.add_eq (by omega)
    constructor
    · intro h d hd
      have hd' := (hpage ((ph.pVaddr % 4096 + d) / 4096) (by omega)).mp (h _ (by omega))
        (ph.pVaddr + d) (by omega) (by omega)
      rwa [Nat.add_sub_cancel_left] at hd'
    · intro h j hj
      refine (hpage j hj).mpr fun x hlo hhi ↦ h (x - ph.pVaddr) ?_
      omega

/-- The first byte outside the file is at its end, or the first of all. -/
theorem offsets_iff {off c size : ℕ} (hoff : off < 2 ^ 32) (hsize : size < 2 ^ 32) :
    (∀ d < c, (off + d) % 2 ^ 32 < size) ↔ c = 0 ∨ off + c ≤ size := by
  constructor
  · intro h
    by_contra hnot
    obtain ⟨hc, hbig⟩ := not_or.mp hnot
    by_cases hin : off ≤ size
    · have hat := h (size - off) (by omega)
      rw [Nat.add_sub_cancel' hin, Nat.mod_eq_of_lt hsize] at hat
      exact lt_irrefl size hat
    · have hat := h 0 (by omega)
      rw [Nat.add_zero, Nat.mod_eq_of_lt hoff] at hat
      omega
  · rintro (rfl | hle) d hd
    · omega
    · rw [Nat.mod_eq_of_lt (by omega)]
      omega

theorem fillPage_congr (h : s.mm = s'.mm) (phy : ℕ) :
    (fillPage F ph v phy s).mm = (fillPage F ph v phy s').mm := by
  simp only [fillPage, h]
  split_ifs <;> rfl

theorem loadPage_congr (h : s.mm = s'.mm) :
    (loadPage T F ph v s).1 = (loadPage T F ph v s').1 ∧
      (loadPage T F ph v s).2.mm = (loadPage T F ph v s').2.mm := by
  simp only [loadPage, h]
  split_ifs
  · exact ⟨rfl, rfl⟩
  · exact ⟨rfl, rfl⟩
  · refine ⟨rfl, fillPage_congr ?_ _⟩
    rfl

/-- How many pages are loaded depends on memory only. -/
theorem loadPages_congr (h : s.mm = s'.mm) (n i : ℕ) :
    (loadPages T F ph vstart n i s).2.1 = (loadPages T F ph vstart n i s').2.1 := by
  induction n generalizing i s s' with
  | zero => rfl
  | succ n ih =>
      obtain ⟨hcode, hmm⟩ := loadPage_congr (T := T) (F := F) (v := Word.add vstart
        (Word.mul i 0x1000)) h
      rw [loadPages, loadPages, hcode]
      split_ifs
      · rfl
      · exact ih hmm (i + 1)

theorem loadPages_le (T : Tables) (F : File) (ph : Phdr) (vstart n i : ℕ) (s : Sys) :
    (loadPages T F ph vstart n i s).2.1 ≤ i + n := by
  induction n generalizing i s with
  | zero => exact le_refl i
  | succ n ih =>
      rw [loadPages]
      split_ifs
      · exact Nat.le_add_right i (n + 1)
      · exact (ih (i + 1) _).trans (by omega)

theorem loadPages_heap (T : Tables) (F : File) (ph : Phdr) (vstart n i : ℕ) (s : Sys) :
    (loadPages T F ph vstart n i s).2.2.heap = s.heap := by
  have hpage : ∀ v (s : Sys), (loadPage T F ph v s).2.heap = s.heap := by
    intro v s
    simp only [loadPage]
    split_ifs
    · rfl
    · rfl
    · exact (fillPage_keeps F ph v _ _).2.2
  induction n generalizing i s with
  | zero => rfl
  | succ n ih =>
      rw [loadPages]
      split_ifs
      · exact hpage _ s
      · exact (ih (i + 1) _).trans (hpage _ s)

/-! ## Segments and headers -/

/-- The pages that a segment gets in state `s`. -/
def loadedPages (T : Tables) (F : File) (ph : Phdr) (s : Sys) : ℕ :=
  (loadPages T F ph ph.vstart ((ph.vend - ph.vstart) / 0x1000) 0 s).2.1

/-- `load_segment` stays inside the file: with the two fields of the header at `off`, and with
the bytes that it copies. -/
def SegmentInside (T : Tables) (F : File) (off : ℕ) (ph : Phdr) (img : UserImage) (s : Sys) :
    Prop :=
  img.segs.length < maxUserSegments → Inside F (off + 8, 4) ∧ Inside F (off + 20, 4) ∧
    (ph.vstart < ph.vend → ph.copied (loadedPages T F ph s) = 0 ∨
      ph.pOffset + ph.copied (loadedPages T F ph s) ≤ F.size)

theorem loadSegment_inside (hph : ph.Words) (off : ℕ) (img : UserImage) (s : Sys) :
    AllInside F (loadSegment T F off ph img s).2.2 ↔
      SegmentInside T F off ph img s ∧ AllInside F s := by
  rw [loadSegment, SegmentInside]
  by_cases hfull : maxUserSegments ≤ img.segs.length
  · rw [if_pos hfull]
    exact ⟨fun h ↦ ⟨fun hlt ↦ absurd hlt (Nat.not_lt.mpr hfull), h⟩, fun h ↦ h.2⟩
  rw [if_neg hfull]
  by_cases hempty : ph.vend ≤ ph.vstart
  · simp only [if_pos hempty, allInside_read]
    constructor
    · rintro ⟨h20, h8, h⟩
      exact ⟨fun _ ↦ ⟨h8, h20, fun hlt ↦ absurd hlt (Nat.not_lt.mpr hempty)⟩, h⟩
    · rintro ⟨hseg, h⟩
      obtain ⟨h8, h20, -⟩ := hseg (Nat.not_le.mp hfull)
      exact ⟨h20, h8, h⟩
  · simp only [if_neg hempty]
    have hend := ph.vend_lt
    have hvend := ph.vend_eq
    have hstart := hph.vstart_eq
    have hcount : (loadPages T F ph ph.vstart ((ph.vend - ph.vstart) / 0x1000) 0
        ((s.read (off + 8) 4).read (off + 20) 4)).2.1 = loadedPages T F ph s := by
      apply loadPages_congr
      rfl
    have hle := loadPages_le T F ph ph.vstart ((ph.vend - ph.vstart) / 0x1000) 0 s
    have hcopies := copies_iff (F := F) hph (n := loadedPages T F ph s) (by
      rw [loadedPages]
      omega)
    rw [loadPages_inside, hcount, allInside_read, allInside_read]
    simp only [Nat.zero_le, true_imp_iff]
    rw [hcopies, offsets_iff hph.offset F.size_lt]
    constructor
    · rintro ⟨hcopy, h20, h8, h⟩
      exact ⟨fun _ ↦ ⟨h8, h20, fun _ ↦ hcopy⟩, h⟩
    · rintro ⟨hseg, h⟩
      obtain ⟨h8, h20, hcopy⟩ := hseg (Nat.not_le.mp hfull)
      exact ⟨hcopy (Nat.not_le.mp hempty), h20, h8, h⟩

theorem loadSegment_keeps (T : Tables) (F : File) (off : ℕ) (ph : Phdr) (img : UserImage)
    (s : Sys) : (loadSegment T F off ph img s).2.2.heap = s.heap ∧
      (loadSegment T F off ph img s).2.1.ptr = img.ptr := by
  rw [loadSegment]
  split_ifs
  · exact ⟨rfl, rfl⟩
  · exact ⟨rfl, rfl⟩
  · exact ⟨loadPages_heap T F ph ph.vstart _ 0 _, rfl⟩

/-- The loop stays inside the file at header `i`. -/
def HeaderInside (T : Tables) (F : File) (i : ℕ) (img : UserImage) (s : Sys) : Prop :=
  Inside F (F.phdrOffset i, 4) ∧
    ((F.phdr i).pType = ptLoad → Inside F (F.phdrOffset i + 20, 4) ∧
      ((F.phdr i).pMemsz ≠ 0 →
        Inside F (F.phdrOffset i + 4, 4) ∧ Inside F (F.phdrOffset i + 16, 4) ∧
        (Word.add (F.phdr i).pOffset (F.phdr i).pFilesz ≤ F.size →
          SegmentInside T F (F.phdrOffset i) (F.phdr i) img s)))

/-- At one header the loop goes on to the next, or unloads what it has and fails.  Either way
what it has read is inside the file exactly if it was at this header. -/
inductive HeaderStep (T : Tables) (F : File) (i : ℕ) (img : UserImage) (s : Sys) : Prop
  | next (img₁ : UserImage) (s₁ : Sys)
      (hrun : ∀ n, loadHeaders T F (n + 1) i img s = loadHeaders T F n (i + 1) img₁ s₁)
      (hheap : s₁.heap = s.heap) (hptr : img₁.ptr = img.ptr)
      (hread : AllInside F s₁ ↔ HeaderInside T F i img s ∧ AllInside F s)
  | stop (code : ℤ) (img₁ : UserImage) (s₁ : Sys) (hcode : code ≠ 0)
      (hrun : ∀ n, loadHeaders T F (n + 1) i img s = (do
        let s ← elfUnload T s₁ img₁
        .done (code, img₁, s)))
      (hheap : s₁.heap = s.heap) (hptr : img₁.ptr = img.ptr)
      (hread : AllInside F s₁ ↔ HeaderInside T F i img s ∧ AllInside F s)

theorem headerStep (T : Tables) (F : File) (i : ℕ) (img : UserImage) (s : Sys) :
    HeaderStep T F i img s := by
  by_cases htype : (F.phdr i).pType = ptLoad
  swap
  · refine .next img (s.read (F.phdrOffset i) 4) (fun n ↦ ?_) rfl rfl ?_
    · rw [loadHeaders, if_pos htype]
    · rw [allInside_read, HeaderInside]
      exact and_congr_left' ⟨fun h ↦ ⟨h, fun h' ↦ absurd h' htype⟩, fun h ↦ h.1⟩
  by_cases hmemsz : (F.phdr i).pMemsz = 0
  · refine .next img ((s.read (F.phdrOffset i) 4).read (F.phdrOffset i + 20) 4) (fun n ↦ ?_) rfl rfl
      ?_
    · rw [loadHeaders, if_neg (not_not.mpr htype), if_pos hmemsz]
    · simp only [allInside_read, HeaderInside, htype, hmemsz, ne_eq, not_true_eq_false,
        IsEmpty.forall_iff, true_imp_iff, and_true]
      constructor
      · rintro ⟨h20, h0, h⟩
        exact ⟨⟨h0, h20⟩, h⟩
      · rintro ⟨⟨h0, h20⟩, h⟩
        exact ⟨h20, h0, h⟩
  have hfields : AllInside F (s.readPhdr F i) ↔
      (Inside F (F.phdrOffset i, 4) ∧ Inside F (F.phdrOffset i + 20, 4) ∧
        Inside F (F.phdrOffset i + 4, 4) ∧ Inside F (F.phdrOffset i + 16, 4)) ∧ AllInside F s := by
    simp only [Sys.readPhdr, allInside_read]
    constructor
    · rintro ⟨h16, h4, h20, h0, h⟩
      exact ⟨⟨h0, h20, h4, h16⟩, h⟩
    · rintro ⟨⟨h0, h20, h4, h16⟩, h⟩
      exact ⟨h16, h4, h20, h0, h⟩
  by_cases hsize : F.size < Word.add (F.phdr i).pOffset (F.phdr i).pFilesz
  · refine .stop (-4) img _ (by norm_num) (fun n ↦ ?_) ?_ rfl (hfields.trans ?_)
    · rw [loadHeaders_succ ⟨htype, hmemsz⟩, if_pos hsize]
    · rfl
    · simp only [HeaderInside, htype, hmemsz, ne_eq, not_false_eq_true, true_imp_iff,
        Nat.not_le.mpr hsize, IsEmpty.forall_iff, and_true]
  -- the state in which `load_segment` is called differs from `s` in what was read only
  generalize hs₁ : s.readPhdr F i = s₁ at hfields
  have hmm : s₁.mm = s.mm := by rw [← hs₁]; rfl
  have hheap : s₁.heap = s.heap := by rw [← hs₁]; rfl
  have hcount : loadedPages T F (F.phdr i) s₁ = loadedPages T F (F.phdr i) s :=
    loadPages_congr hmm _ 0
  have hseg := loadSegment_inside (T := T) (F := F) (F.phdr_words i) (F.phdrOffset i) img s₁
  obtain ⟨hheap₂, hptr₂⟩ := loadSegment_keeps T F (F.phdrOffset i) (F.phdr i) img s₁
  have hread : AllInside F (loadSegment T F (F.phdrOffset i) (F.phdr i) img s₁).2.2 ↔
      HeaderInside T F i img s ∧ AllInside F s := by
    rw [hseg, hfields, HeaderInside, SegmentInside, SegmentInside, hcount]
    simp only [htype, hmemsz, ne_eq, not_false_eq_true, true_imp_iff, Nat.not_lt.mp hsize]
    constructor
    · rintro ⟨hs, ⟨h0, h20, h4, h16⟩, h⟩
      exact ⟨⟨h0, h20, h4, h16, hs⟩, h⟩
    · rintro ⟨⟨h0, h20, h4, h16, hs⟩, h⟩
      exact ⟨hs, ⟨h0, h20, h4, h16⟩, h⟩
  by_cases hcode : (loadSegment T F (F.phdrOffset i) (F.phdr i) img s₁).1 < 0
  · refine .stop (-5) _ _ (by norm_num) (fun n ↦ ?_) (hheap₂.trans hheap) hptr₂ hread
    rw [loadHeaders_succ ⟨htype, hmemsz⟩, if_neg hsize, hs₁, if_pos hcode]
  · refine .next _ _ (fun n ↦ ?_) (hheap₂.trans hheap) hptr₂ hread
    rw [loadHeaders_succ ⟨htype, hmemsz⟩, if_neg hsize, hs₁, if_neg hcode]

theorem elfUnload_reads (hrun : elfUnload T s img = .done s') : s'.reads = s.reads := by
  rw [elfUnload] at hrun
  split_ifs at hrun
  · cases hrun
    rfl
  · obtain ⟨heap, -, hdone⟩ := Outcome.bind_eq_done_iff.mp hrun
    cases hdone
    rfl

theorem loadHeaders_inside {r : ℤ} {img' : UserImage}
    (hrun : loadHeaders T F n i img s = .done (r, img', s')) :
    AllInside F s' ↔
      (∀ j < n, ∀ img₁ s₁, loadHeaders T F j i img s = .done (0, img₁, s₁) →
        HeaderInside T F (i + j) img₁ s₁) ∧ AllInside F s := by
  induction n generalizing i img s with
  | zero =>
      cases hrun
      exact ⟨fun h ↦ ⟨fun j hj ↦ absurd hj (Nat.not_lt_zero j), h⟩, fun h ↦ h.2⟩
  | succ n ih =>
      have hhere : ∀ img₁ s₁, loadHeaders T F 0 i img s = .done (0, img₁, s₁) ↔
          img = img₁ ∧ s = s₁ := by
        intro img₁ s₁
        simp [loadHeaders]
      cases headerStep T F i img s with
      | next img₁ s₁ hnext hheap hptr hread =>
          rw [hnext n] at hrun
          rw [ih hrun, hread, ← and_assoc]
          refine and_congr_left' ⟨?_, fun h ↦ ⟨fun j hj img₂ s₂ hloop ↦ ?_, ?_⟩⟩
          · rintro ⟨hrest, hthis⟩ j hj img₂ s₂ hloop
            cases j with
            | zero =>
                obtain ⟨rfl, rfl⟩ := (hhere img₂ s₂).mp hloop
                exact hthis
            | succ j =>
                rw [hnext j] at hloop
                have hhead := hrest j (by omega) img₂ s₂ hloop
                rwa [Nat.add_right_comm] at hhead
          · have hhead := h (j + 1) (by omega) img₂ s₂ (by rw [hnext j, hloop])
            rwa [← Nat.add_assoc, Nat.add_right_comm] at hhead
          · exact h 0 (Nat.succ_pos n) img s rfl
      | stop code img₁ s₁ hcode hstop hheap hptr hread =>
          rw [hstop n] at hrun
          obtain ⟨s₂, hunload, hdone⟩ := Outcome.bind_eq_done_iff.mp hrun
          cases hdone
          have hsame : AllInside F s' ↔ AllInside F s₁ := by
            rw [AllInside, elfUnload_reads hunload, AllInside]
          rw [hsame, hread]
          refine and_congr_left' ⟨fun hthis j hj img₂ s₃ hloop ↦ ?_, fun h ↦ ?_⟩
          · cases j with
            | zero =>
                obtain ⟨rfl, rfl⟩ := (hhere img₂ s₃).mp hloop
                exact hthis
            | succ j =>
                rw [hstop j] at hloop
                obtain ⟨s₄, -, hdone⟩ := Outcome.bind_eq_done_iff.mp hloop
                cases hdone
                exact absurd rfl hcode
          · exact h 0 (Nat.succ_pos n) img s rfl

/-- The loop returns, with a heap that is in order. -/
theorem loadHeaders_returns {A : Arena} {ptrs : List ℕ} (hheap : HeapInv A ⟨s.heap, ptrs⟩)
    (hptr : img.ptr ∈ ptrs) (n i : ℕ) :
    ∃ r img' s', loadHeaders T F n i img s = .done (r, img', s') := by
  induction n generalizing i img s with
  | zero => exact ⟨0, img, s, rfl⟩
  | succ n ih =>
      cases headerStep T F i img s with
      | next img₁ s₁ hnext hheap₁ hptr₁ _ =>
          rw [hnext n]
          exact ih (by rwa [hheap₁]) (by rwa [hptr₁]) (i + 1)
      | stop code img₁ s₁ _ hstop hheap₁ hptr₁ _ =>
          rw [hstop n, elfUnload, hheap₁, hptr₁]
          obtain ⟨heap, hfree, -⟩ := kfree_inv hheap hptr
          split_ifs
          · exact ⟨_, _, _, rfl⟩
          · rw [hfree]
            exact ⟨_, _, _, rfl⟩

/-- The loop keeps the heap and the record of the image, or it gives the record back. -/
theorem loadHeaders_frees {r : ℤ} {img' : UserImage} (hptr : img.ptr ≠ 0)
    (hrun : loadHeaders T F n i img s = .done (r, img', s')) :
    (r = 0 ∧ img'.ptr = img.ptr ∧ s'.heap = s.heap) ∨
      (r ≠ 0 ∧ kfree s.heap img.ptr = .done s'.heap) := by
  induction n generalizing i img s with
  | zero =>
      cases hrun
      exact Or.inl ⟨rfl, rfl, rfl⟩
  | succ n ih =>
      cases headerStep T F i img s with
      | next img₁ s₁ hnext hheap₁ hptr₁ _ =>
          rw [hnext n] at hrun
          rw [← hptr₁] at hptr ⊢
          rw [← hheap₁]
          exact ih hptr hrun
      | stop code img₁ s₁ hcode hstop hheap₁ hptr₁ _ =>
          rw [hstop n] at hrun
          obtain ⟨s₂, hunload, hdone⟩ := Outcome.bind_eq_done_iff.mp hrun
          cases hdone
          rw [elfUnload, hptr₁, if_neg hptr, hheap₁] at hunload
          obtain ⟨h, hfree, hdone⟩ := Outcome.bind_eq_done_iff.mp hunload
          cases hdone
          exact Or.inr ⟨hcode, hfree⟩

/-- A load takes at most the record of the image from the heap.  It keeps it if it succeeds, and
gives it back otherwise. -/
theorem elfLoad_heap_cases {r : ℤ} {outImage : ℕ} {out : Option UserImage}
    (hrun : elfLoad T s F outImage = .done (r, out, s')) :
    (r ≠ 0 ∧ out = none ∧ s'.heap = s.heap) ∨
      ∃ p heap, kmalloc s.heap imageSize = .done (p, heap) ∧
        (p = 0 ∧ r ≠ 0 ∧ out = none ∧ s'.heap = heap ∨
          p ≠ 0 ∧ r ≠ 0 ∧ out = none ∧ kfree heap p = .done s'.heap ∨
          p ≠ 0 ∧ r = 0 ∧ (∃ img, out = some img ∧ img.ptr = p) ∧ s'.heap = heap) := by
  rcases elfLoad_cases hrun with ⟨hr, hout, -, hsame | hmalloc⟩ |
    ⟨p, heap, img, hmalloc, hp, rfl, hheaders⟩
  · exact Or.inl ⟨hr, hout, hsame⟩
  · exact Or.inr ⟨0, s'.heap, hmalloc, Or.inl ⟨rfl, hr, hout, rfl⟩⟩
  · refine Or.inr ⟨p, heap, hmalloc, Or.inr ?_⟩
    rcases loadHeaders_frees hp hheaders with ⟨rfl, hptr, hheap⟩ | ⟨hr, hfree⟩
    · exact Or.inr ⟨hp, rfl, ⟨img, if_pos rfl, hptr⟩, hheap⟩
    · exact Or.inl ⟨hp, hr, if_neg hr, hfree⟩

/-- `elf_load` leaves one block more on the heap, the image, if it returns one. -/
theorem elfLoad_heap {A : Arena} {live : List ℕ} {r : ℤ} {outImage : ℕ} {out : Option UserImage}
    (hheap : HeapInv A ⟨s.heap, live⟩) (hrun : elfLoad T s F outImage = .done (r, out, s')) :
    HeapInv A ⟨s'.heap, out.toList.map UserImage.ptr ++ live⟩ := by
  rcases elfLoad_heap_cases hrun with ⟨-, rfl, hsame⟩ | ⟨p, heap, hmalloc, hcases⟩
  · rw [hsame]
    exact hheap
  · obtain ⟨p', heap', hmalloc', hinv⟩ := kmalloc_inv hheap imageSize
    rw [hmalloc] at hmalloc'
    cases hmalloc'
    rcases hcases with ⟨hp, -, rfl, hsame⟩ | ⟨hp, -, rfl, hfree⟩ | ⟨hp, -, ⟨img, rfl, hptr⟩, hsame⟩
    · rw [if_pos hp] at hinv
      rw [hsame]
      exact hinv
    · rw [if_neg hp] at hinv
      obtain ⟨h, hfree', hinv'⟩ := hinv.free_head
      rw [hfree] at hfree'
      cases hfree'
      exact hinv'
    · rw [if_neg hp] at hinv
      simp only [Option.toList_some, List.map_cons, List.map_nil, hptr, hsame]
      exact hinv

/-! ## The whole load -/

/-- Neither of the two sums that the loader checks exceeds a word. -/
structure NoWrap (F : File) : Prop where
  table : F.ePhoff + 32 * F.ePhnum < 2 ^ 32
  segments : ∀ i < F.ePhnum, (F.phdr i).pType = ptLoad → (F.phdr i).pMemsz ≠ 0 →
    (F.phdr i).pOffset + (F.phdr i).pFilesz < 2 ^ 32

theorem validateEhdr_size (h : validateEhdr F = true) : ehdrSize ≤ F.size ∧
    Word.add F.ePhoff (Word.mul F.ePhnum phdrSize) ≤ F.size := by
  rw [validateEhdr] at h
  split_ifs at h with hsize _ _ _ _ _ _ hphdrs
  exact ⟨Nat.not_lt.mp hsize, Nat.not_lt.mp hphdrs⟩

theorem readEhdr_inside (hreads : s.reads = []) : AllInside F (s.readEhdr F) := by
  have hnil : AllInside F s := by
    rw [AllInside, hreads]
    exact fun x hx ↦ absurd hx List.not_mem_nil
  rw [Sys.readEhdr]
  split
  case isTrue => exact hnil
  case isFalse hsize =>
    refine allInside_read.mpr ⟨fun k hk ↦ ?_, hnil⟩
    have hlt := F.size_lt
    simp only at hk ⊢
    omega

theorem headerInside_of_noWrap (h : NoWrap F) (hvalid : validateEhdr F = true)
    (hi : i < F.ePhnum) (img : UserImage) (s : Sys) : HeaderInside T F i img s := by
  have htable := h.table
  have hsize := F.size_lt
  have hphdrs := (validateEhdr_size hvalid).2
  rw [phdrSize, Word.mul_eq (by omega), Word.add_eq (by omega)] at hphdrs
  have hfield : ∀ k, k + 4 ≤ 32 → Inside F (F.phdrOffset i + k, 4) := by
    intro k hk j hj
    simp only at hj ⊢
    rw [File.phdrOffset, Word.add_eq (by omega), Nat.mod_eq_of_lt (by omega)]
    omega
  refine ⟨hfield 0 (by norm_num), fun htype ↦ ⟨hfield 20 (by norm_num), fun hmemsz ↦
    ⟨hfield 4 (by norm_num), hfield 16 (by norm_num), fun hsum _ ↦ ⟨hfield 8 (by norm_num),
      hfield 20 (by norm_num), fun _ ↦ Or.inr ?_⟩⟩⟩⟩
  rw [Word.add_eq (h.segments i hi htype hmemsz)] at hsum
  have hcopied : (F.phdr i).copied (loadedPages T F (F.phdr i) s) ≤ (F.phdr i).pFilesz := by
    rw [Phdr.copied]
    split
    · exact Nat.zero_le _
    · exact Nat.min_le_left _ _
  omega

end MyOS.Elf
