import MyOS.Elf.Images
import MyOS.Elf.Reads
import MyOS.Heap.Sessions

/-!
# A load that fails

`elf_load` gives up at a header, at a segment or at a page, and then unloads what it has recorded
so far.  At every such point the recorded pages are those that it has mapped, and each has a frame
that was free before the load, so that unloading them leads back to the mapping and the free
frames of the start, except for the page tables, which stay.
-/

namespace MyOS.Elf

open Bytes Heap Mm

variable {T : Tables} {m m' m₀ : Mm} {s s' : Sys} {F : File} {v p : ℕ} {N : Finset ℕ}
  {L P : List ℕ}

/-- Memory in the middle of a load that began with `m₀` and has recorded the pages `L`. -/
structure Midway (T : Tables) (m₀ : Mm) (L : List ℕ) (m : Mm) : Prop where
  ok : m.Ok T
  nodup : L.Nodup
  lt : ∀ v ∈ L, v < 2 ^ 20
  /-- None of the pages was mapped at the start. -/
  unmapped : ∀ v ∈ L, m₀.mapping T v = none
  same : ∀ w < 2 ^ 20, w ∉ L → m.mapping T w = m₀.mapping T w
  frame : ∀ v ∈ L, ∃ f ∈ m₀.pmm.freePages, m.mapping T v = some f ∧ f ∉ m.pmm.freePages ∧
    ¬m.TablePage T f
  inj : ∀ v ∈ L, ∀ w ∈ L, m.mapping T v = m.mapping T w → v = w
  subset : m.pmm.freePages ⊆ m₀.pmm.freePages
  account : ∀ f ∈ m₀.pmm.freePages, f ∈ m.pmm.freePages ∨ m.TablePage T f ∨
    ∃ v ∈ L, m.mapping T v = some f

theorem Midway.start (h : m.Ok T) : Midway T m [] m where
  ok := h
  nodup := List.nodup_nil
  lt := fun _ hv ↦ absurd hv List.not_mem_nil
  unmapped := fun _ hv ↦ absurd hv List.not_mem_nil
  same := fun _ _ _ ↦ rfl
  frame := fun _ hv ↦ absurd hv List.not_mem_nil
  inj := fun _ hv ↦ absurd hv List.not_mem_nil
  subset := subset_rfl
  account := fun _ hf ↦ Or.inl hf

theorem Midway.load (h : Midway T m₀ L m) (hv : v < 2 ^ 20) (hnew : v ∉ L)
    (hnone : m₀.mapping T v = none) (hl : Loaded T m m' v p N) :
    Midway T m₀ (L ++ [v]) m' := by
  have hhere : m'.mapping T v = some p := by rw [hl.mapping v hv, if_pos rfl]
  have hthere : ∀ w < 2 ^ 20, w ≠ v → m'.mapping T w = m.mapping T w := fun w hw hne ↦ by
    rw [hl.mapping w hw, if_neg hne]
  have hold : ∀ w ∈ L, m'.mapping T w = m.mapping T w := fun w hw ↦
    hthere w (h.lt w hw) fun heq ↦ hnew (heq ▸ hw)
  -- the frames of the pages before are in use, so that the new one is none of them
  have hother : ∀ w ∈ L, m.mapping T w ≠ some p := by
    intro w hw hmap
    obtain ⟨f, -, hf, hused, -⟩ := h.frame w hw
    rw [hmap] at hf
    exact hused (Option.some.inj hf ▸ hl.frame)
  refine ⟨hl.ok, ?_, ?_, ?_, fun w hw hmem ↦ ?_, ?_, ?_, hl.free_subset.trans h.subset,
    fun f hf ↦ ?_⟩
  · rw [List.nodup_append]
    refine ⟨h.nodup, List.nodup_singleton v, fun w hw u hu ↦ ?_⟩
    rw [List.mem_singleton.mp hu]
    exact fun heq ↦ hnew (heq ▸ hw)
  · exact List.forall_mem_append.mpr ⟨h.lt, List.forall_mem_singleton.mpr hv⟩
  · exact List.forall_mem_append.mpr ⟨h.unmapped, List.forall_mem_singleton.mpr hnone⟩
  · rw [List.mem_append, List.mem_singleton, not_or] at hmem
    exact (hthere w hw hmem.2).trans (h.same w hw hmem.1)
  · refine List.forall_mem_append.mpr ⟨fun w hw ↦ ?_, List.forall_mem_singleton.mpr ?_⟩
    · obtain ⟨f, hf, hmap, hused, htable⟩ := h.frame w hw
      refine ⟨f, hf, (hold w hw).trans hmap, fun hfree ↦ hused (hl.free_subset hfree), ?_⟩
      rw [hl.tablePage, not_or]
      exact ⟨htable, fun hN ↦ hused (Finset.mem_of_mem_erase (hl.tables hN))⟩
    · exact ⟨p, h.subset hl.frame, hhere, hl.frame_used, hl.frame_not_table h.ok⟩
  · intro w hw u hu heq
    rcases List.mem_append.mp hw with hw | hw <;> rcases List.mem_append.mp hu with hu | hu
    · rw [hold w hw, hold u hu] at heq
      exact h.inj w hw u hu heq
    · rw [hold w hw, List.mem_singleton.mp hu, hhere] at heq
      exact absurd heq (hother w hw)
    · rw [hold u hu, List.mem_singleton.mp hw, hhere] at heq
      exact absurd heq.symm (hother u hu)
    · rw [List.mem_singleton.mp hw, List.mem_singleton.mp hu]
  · rcases h.account f hf with hfree | htable | ⟨w, hw, hmap⟩
    · refine (hl.free_cases hfree).imp_right (Or.imp_right fun hfp ↦ ?_)
      exact ⟨v, by simp, by rw [hhere, hfp]⟩
    · exact Or.inr (Or.inl ((hl.tablePage f).mpr (Or.inl htable)))
    · exact Or.inr (Or.inr ⟨w, List.mem_append_left _ hw, (hold w hw).trans hmap⟩)

theorem Midway.fail (h : Midway T m₀ L m) (hzero : 0 ∉ m₀.pmm.freePages) (hn : NotLoaded m m') :
    Midway T m₀ L m' := by
  have hfree : m'.pmm.freePages = m.pmm.freePages := by
    rw [hn.free]
    exact Finset.erase_eq_of_notMem fun h0 ↦ hzero (h.subset h0)
  have htable : ∀ f, m'.TablePage T f ↔ m.TablePage T f :=
    tablePage_congr fun i _ ↦ hn.table i
  refine ⟨hn.ok h.ok, h.nodup, h.lt, h.unmapped, fun w hw hmem ↦ ?_, fun w hw ↦ ?_,
    fun w hw u hu ↦ ?_, hfree ▸ h.subset, fun f hf ↦ ?_⟩
  · rw [hn.mapping]
    exact h.same w hw hmem
  · simp only [hn.mapping, hfree, htable]
    exact h.frame w hw
  · simp only [hn.mapping]
    exact h.inj w hw u hu
  · simp only [hn.mapping, hfree, htable]
    exact h.account f hf

theorem Midway.unload (h : Midway T m₀ (v :: L) m) (hu : Unloaded T m m' v) :
    Midway T m₀ L m' := by
  obtain ⟨g, hg, hmap, -, hgtable⟩ := h.frame v List.mem_cons_self
  obtain ⟨hv, hnodup⟩ := List.nodup_cons.mp h.nodup
  have htable : ∀ f, m'.TablePage T f ↔ m.TablePage T f := tablePage_congr hu.table
  have hfree : m'.pmm.freePages = insert g m.pmm.freePages := by
    rw [hu.free, hmap, Option.elim_some]
  have hold : ∀ w ∈ L, m'.mapping T w = m.mapping T w := by
    intro w hw
    rw [hu.mapping w (h.lt w (List.mem_cons_of_mem v hw)), if_neg]
    exact fun heq ↦ hv (heq ▸ hw)
  refine ⟨?_, hnodup, fun w hw ↦ h.lt w (List.mem_cons_of_mem v hw),
    fun w hw ↦ h.unmapped w (List.mem_cons_of_mem v hw), fun w hw hmem ↦ ?_, fun w hw ↦ ?_,
    fun w hw u hu' heq ↦ ?_, ?_, fun f hf ↦ ?_⟩
  · refine hu.ok h.ok fun f hf ↦ ?_
    rw [hmap] at hf
    exact Option.some.inj hf ▸ hgtable
  · rw [hu.mapping w hw]
    split
    case isTrue hwv => rw [hwv, h.unmapped v List.mem_cons_self]
    case isFalse hwv => exact h.same w hw fun hin ↦ (List.mem_cons.mp hin).elim hwv hmem
  · obtain ⟨f, hf, hfmap, hused, hftable⟩ := h.frame w (List.mem_cons_of_mem v hw)
    refine ⟨f, hf, (hold w hw).trans hfmap, ?_, mt (htable f).mp hftable⟩
    rw [hfree, Finset.mem_insert, not_or]
    refine ⟨?_, hused⟩
    rintro rfl
    have heq := h.inj w (List.mem_cons_of_mem v hw) v List.mem_cons_self (hfmap.trans hmap.symm)
    exact hv (heq ▸ hw)
  · rw [hold w hw, hold u hu'] at heq
    exact h.inj w (List.mem_cons_of_mem v hw) u (List.mem_cons_of_mem v hu') heq
  · rw [hfree]
    exact Finset.insert_subset hg h.subset
  · rw [hfree, htable]
    rcases h.account f hf with hin | htab | ⟨w, hw, hfmap⟩
    · exact Or.inl (Finset.mem_insert_of_mem hin)
    · exact Or.inr (Or.inl htab)
    · rcases List.mem_cons.mp hw with rfl | hw
      · rw [hmap] at hfmap
        exact Or.inl (Finset.mem_insert.mpr (Or.inl (Option.some.inj hfmap).symm))
      · exact Or.inr (Or.inr ⟨w, hw, (hold w hw).trans hfmap⟩)

/-- Page steps lead from one point of a load to another. -/
theorem kept_midway (hzero : 0 ∉ m₀.pmm.freePages) (hP : P.Nodup)
    (hnone : ∀ v ∈ P, m₀.mapping T v = none) : Kept T P (Midway T m₀) where
  ok := fun L m h ↦ h.ok
  step := by
    intro L m L' m' h hstep
    cases hstep with
    | @load _ _ _ v p N hpre hv hload =>
        have hnodup := (hpre.sublist.nodup hP)
        rw [List.nodup_append] at hnodup
        have hnew : v ∉ L := fun hmem ↦ hnodup.2.2 v hmem v (List.mem_singleton_self v) rfl
        exact h.load (by omega) hnew (hnone v (hpre.subset (by simp))) hload
    | fail hnot => exact h.fail hzero hnot
    | unload _ hu => exact h.unload hu

/-- At the end of a load that failed the free frames are those of the start that hold no table. -/
theorem Midway.freePages (h : Midway T m₀ [] m) (f : ℕ) :
    f ∈ m.pmm.freePages ↔ f ∈ m₀.pmm.freePages ∧ ¬m.TablePage T f := by
  refine ⟨fun hf ↦ ⟨h.subset hf, fun ht ↦ h.ok.used f ht hf⟩, fun ⟨hf, ht⟩ ↦ ?_⟩
  rcases h.account f hf with hfree | htable | ⟨v, hv, -⟩
  · exact hfree
  · exact absurd htable ht
  · exact absurd hv List.not_mem_nil

/-- The calls on the heap of a load that fails are a session that has given all back. -/
theorem elfLoad_session {r : ℤ} {outImage : ℕ} {out : Option UserImage}
    (hrun : elfLoad T s F outImage = .done (r, out, s')) (hr : r ≠ 0) :
    Session s.heap ⟨s'.heap, []⟩ := by
  rcases elfLoad_heap_cases hrun with ⟨-, -, hsame⟩ | ⟨p, heap, hmalloc, hcases⟩
  · rw [hsame]
    exact .start
  · have htaken := Session.malloc .start (by norm_num [imageSize]) hmalloc
    rcases hcases with ⟨hp, -, -, hsame⟩ | ⟨hp, -, -, hfree⟩ | ⟨-, hzero, -⟩
    · rw [if_pos hp] at htaken
      rw [hsame]
      exact htaken
    · rw [if_neg hp] at htaken
      have hfreed := Session.free htaken List.mem_cons_self hfree
      rwa [List.erase_cons_head] at hfreed
    · exact absurd hzero hr

theorem File.pageList_lt (F : File) (hv : v ∈ F.pageList) : v < 2 ^ 20 := by
  obtain ⟨i, -, hv⟩ := List.mem_flatMap.mp hv
  split_ifs at hv
  · have hend := (F.phdr i).vend_lt
    have hrange := List.mem_range'_1.mp hv
    omega
  · cases hv

/-- A load that fails leaves every translation, the blocks of the heap and the free frames as they
were, except for the frames of new page tables. -/
theorem failed_load_cleans_up {A : Arena} {live : List ℕ} {r : ℤ} {outImage : ℕ}
    {out : Option UserImage} (hok : s.mm.Ok T) (hzero : 0 ∉ s.mm.pmm.freePages)
    (hheap : HeapInv A ⟨s.heap, live⟩) (hpages : F.pageList.Nodup)
    (hunmapped : ∀ v ∈ F.pageList, s.mm.vmmGetPhys T (v * 4096) = 0xFFFFFFFF)
    (hrun : elfLoad T s F outImage = .done (r, out, s')) (hr : r < 0) :
    (∀ a < 2 ^ 32, s'.mm.vmmGetPhys T a = s.mm.vmmGetPhys T a) ∧
      blockList s'.heap = blockList s.heap ∧
      ∀ f, f ∈ s'.mm.pmm.freePages ↔ f ∈ s.mm.pmm.freePages ∧ ¬s'.mm.TablePage T f := by
  have hnone : ∀ v ∈ F.pageList, s.mm.mapping T v = none := by
    intro v hv
    have hphys := hunmapped v hv
    rw [vmmGetPhys_page hok (F.pageList_lt hv)] at hphys
    rcases hmap : s.mm.mapping T v with - | f
    · rfl
    · rw [hmap] at hphys
      simp only at hphys
      omega
  rcases (kept_midway hzero hpages hnone).elfLoad (Midway.start hok) hrun with
    ⟨img, rfl, -⟩ | ⟨hne, -, hend⟩
  · exact absurd hr (lt_irrefl 0)
  obtain ⟨l, hrep, -⟩ := hheap
  refine ⟨fun a ha ↦ ?_, ((elfLoad_session hrun hne).borrowed hrep).blockList_eq hrep rfl,
    hend.freePages⟩
  exact vmmGetPhys_congr hok hend.ok ha (hend.same _ (by omega) List.not_mem_nil)

/-- A file with one page at 0x800000, and a segment behind it that reaches beyond the last
address. -/
def halfFile : File where
  data := 0x30000
  bytes := fun i ↦
    let word := fun v ↦ (List.range 4).map (ofWord v)
    let phdr := fun vaddr memsz ↦ word 1 ++ word 0 ++ word vaddr ++ word vaddr ++ word 0 ++
      word memsz ++ word 7 ++ word 0x1000
    ([0x7F, 0x45, 0x4C, 0x46, 1, 1, 1, 0, 0, 0, 0, 0, 0, 0, 0, 0, 2, 0, 3, 0] ++ word 1 ++
      word 0x800000 ++ word 52 ++ word 0 ++ word 0 ++ [52, 0, 32, 0, 2, 0, 0, 0, 0, 0, 0, 0] ++
      phdr 0x800000 1 ++ phdr 0x900000 0xFF800000).getD i 0
  size := 116
  size_lt := by norm_num

/-- The first segment is loaded and taken back. -/
theorem failed_load_cleans_up_half : ∃ out s',
    elfLoad lowTables threeFrames halfFile 1 = .done (-5, out, s') ∧
      (∀ a < 2 ^ 32, s'.mm.vmmGetPhys lowTables a = threeFrames.mm.vmmGetPhys lowTables a) ∧
      blockList s'.heap = blockList threeFrames.heap ∧
      ∀ f, f ∈ s'.mm.pmm.freePages ↔
        f ∈ threeFrames.mm.pmm.freePages ∧ ¬s'.mm.TablePage lowTables f := by
  have hload : (elfLoad lowTables threeFrames halfFile 1).value?.map (fun x ↦ x.1) = some (-5) := by
    decide +kernel
  have hlist : halfFile.pageList = [0x800] := by decide +kernel
  have hphys : threeFrames.mm.vmmGetPhys lowTables (0x800 * 4096) = 0xFFFFFFFF := by decide +kernel
  obtain ⟨⟨r, out, s'⟩, hvalue, hr⟩ := Option.map_eq_some_iff.mp hload
  obtain rfl : r = -5 := hr
  have hrun := Outcome.value?_eq_some.mp hvalue
  have hheap : HeapInv lowArena ⟨threeFrames.heap, []⟩ := (Reachable.init fun _ ↦ 0).inv
  refine ⟨out, s', hrun, failed_load_cleans_up (shield_boot _ _ _ _).ok ?_ hheap ?_ ?_ hrun
    (by norm_num)⟩
  · rw [threeFrames, Mm.boot_pmm]
    exact zero_not_free _ _
  · rw [hlist]
    exact List.nodup_singleton _
  · rw [hlist]
    exact List.forall_mem_singleton.mpr hphys

end MyOS.Elf
