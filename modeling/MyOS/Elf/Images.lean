import MyOS.Elf.Pages

/-!
# Images in one page directory

All images share the kernel's page directory.  As long as no segment reaches below 4 MB, the
identity mapping of the kernel stays as it is.  As long as no page is asked for twice, every
recorded page has a frame of its own, and unloading gives all of them back.
-/

namespace MyOS.Elf

open Bytes Mm

variable {T : Tables} {m m' : Mm} {s s' : Sys} {F : File} {v p : ℕ} {N F₀ : Finset ℕ}
  {L W W' O P : List ℕ} {img : UserImage} {live : List UserImage}

/-- The kernel's mapping is the identity, and every other translation leads to a frame of its
own that is neither free nor a table. -/
structure Shield (T : Tables) (m : Mm) : Prop where
  ok : m.Ok T
  low : ∀ v < 1024, m.mapping T v = some v
  used : ∀ v, 1024 ≤ v → v < 2 ^ 20 → ∀ f, m.mapping T v = some f → f ∉ m.pmm.freePages
  frame : ∀ v, 1024 ≤ v → v < 2 ^ 20 → ∀ f, m.mapping T v = some f → ¬m.TablePage T f
  inj : ∀ v w, 1024 ≤ v → v < 2 ^ 20 → 1024 ≤ w → w < 2 ^ 20 → ∀ f, m.mapping T v = some f →
    m.mapping T w = some f → v = w

theorem Loaded.frame_not_table (h : Loaded T m m' v p N) (hm : m.Ok T) : ¬m'.TablePage T p := by
  rw [h.tablePage, not_or]
  exact ⟨fun hp ↦ hm.used p hp h.frame, fun hp ↦ Finset.notMem_erase p _ (h.tables hp)⟩

theorem Loaded.frame_used (h : Loaded T m m' v p N) : p ∉ m'.pmm.freePages := by
  rw [h.free]
  exact fun hp ↦ Finset.notMem_erase p _ (Finset.mem_sdiff.mp hp).1

theorem Loaded.free_subset (h : Loaded T m m' v p N) : m'.pmm.freePages ⊆ m.pmm.freePages := by
  rw [h.free]
  exact Finset.sdiff_subset.trans (Finset.erase_subset _ _)

/-- A free frame is still free, or a new table, or the new frame. -/
theorem Loaded.free_cases (h : Loaded T m m' v p N) {f : ℕ} (hf : f ∈ m.pmm.freePages) :
    f ∈ m'.pmm.freePages ∨ m'.TablePage T f ∨ f = p := by
  by_cases hfp : f = p
  · exact Or.inr (Or.inr hfp)
  · by_cases hfN : f ∈ N
    · exact Or.inr (Or.inl ((h.tablePage f).mpr (Or.inr hfN)))
    · rw [h.free]
      exact Or.inl (Finset.mem_sdiff.mpr ⟨Finset.mem_erase.mpr ⟨hfp, hf⟩, hfN⟩)

theorem Loaded.mapping_cases (h : Loaded T m m' v p N) {w f : ℕ} (hw : w < 2 ^ 20)
    (hf : m'.mapping T w = some f) : w = v ∧ f = p ∨ w ≠ v ∧ m.mapping T w = some f := by
  rw [h.mapping w hw] at hf
  split at hf
  case isTrue hwv => exact Or.inl ⟨hwv, (Option.some.inj hf).symm⟩
  case isFalse hwv => exact Or.inr ⟨hwv, hf⟩

theorem Shield.load (h : Shield T m) (hv : 1024 ≤ v) (hl : Loaded T m m' v p N) :
    Shield T m' where
  ok := hl.ok
  low := by
    intro w hw
    rw [hl.mapping w (by omega), if_neg (by omega)]
    exact h.low w hw
  used := by
    intro w hlo hhi f hf
    rcases hl.mapping_cases hhi hf with ⟨-, rfl⟩ | ⟨-, hold⟩
    · exact hl.frame_used
    · exact fun hfree ↦ h.used w hlo hhi f hold (hl.free_subset hfree)
  frame := by
    intro w hlo hhi f hf
    rcases hl.mapping_cases hhi hf with ⟨-, rfl⟩ | ⟨-, hold⟩
    · exact hl.frame_not_table h.ok
    · rw [hl.tablePage, not_or]
      refine ⟨h.frame w hlo hhi f hold, fun hnew ↦ h.used w hlo hhi f hold ?_⟩
      exact Finset.mem_of_mem_erase (hl.tables hnew)
  inj := by
    intro w u hwlo hwhi hulo huhi f hw hu
    rcases hl.mapping_cases hwhi hw with ⟨rfl, rfl⟩ | ⟨-, hwold⟩
    · rcases hl.mapping_cases huhi hu with ⟨rfl, -⟩ | ⟨-, huold⟩
      · rfl
      · exact absurd hl.frame (h.used u hulo huhi _ huold)
    · rcases hl.mapping_cases huhi hu with ⟨rfl, rfl⟩ | ⟨-, huold⟩
      · exact absurd hl.frame (h.used w hwlo hwhi _ hwold)
      · exact h.inj w u hwlo hwhi hulo huhi f hwold huold

theorem Shield.fail (h : Shield T m) (hn : NotLoaded m m') : Shield T m' where
  ok := hn.ok h.ok
  low := by
    intro w hw
    rw [hn.mapping]
    exact h.low w hw
  used := by
    intro w hlo hhi f hf hfree
    rw [hn.mapping] at hf
    rw [hn.free] at hfree
    exact h.used w hlo hhi f hf (Finset.mem_of_mem_erase hfree)
  frame := by
    intro w hlo hhi f hf
    rw [hn.mapping] at hf
    rw [tablePage_congr fun i _ ↦ hn.table i]
    exact h.frame w hlo hhi f hf
  inj := by
    intro w u hwlo hwhi hulo huhi f hw hu
    rw [hn.mapping] at hw hu
    exact h.inj w u hwlo hwhi hulo huhi f hw hu

theorem Unloaded.mapping_of_some (h : Unloaded T m m' v) {w f : ℕ} (hw : w < 2 ^ 20)
    (hf : m'.mapping T w = some f) : w ≠ v ∧ m.mapping T w = some f := by
  rw [h.mapping w hw] at hf
  split at hf
  case isTrue => cases hf
  case isFalse hwv => exact ⟨hwv, hf⟩

theorem Shield.unload (h : Shield T m) (hlo : 1024 ≤ v) (hhi : v < 2 ^ 20)
    (hu : Unloaded T m m' v) : Shield T m' where
  ok := hu.ok h.ok fun f hf ↦ h.frame v hlo hhi f hf
  low := by
    intro w hw
    rw [hu.mapping w (by omega), if_neg (by omega)]
    exact h.low w hw
  used := by
    intro w hwlo hwhi f hf
    obtain ⟨hne, hold⟩ := hu.mapping_of_some hwhi hf
    rw [hu.free]
    rcases hv : m.mapping T v with - | g
    · exact h.used w hwlo hwhi f hold
    · rw [Option.elim_some, Finset.mem_insert, not_or]
      refine ⟨?_, h.used w hwlo hwhi f hold⟩
      rintro rfl
      exact hne (h.inj w v hwlo hwhi hlo hhi f hold hv)
  frame := by
    intro w hwlo hwhi f hf
    rw [tablePage_congr hu.table]
    exact h.frame w hwlo hwhi f (hu.mapping_of_some hwhi hf).2
  inj := by
    intro w u hwlo hwhi hulo huhi f hw hu'
    exact h.inj w u hwlo hwhi hulo huhi f (hu.mapping_of_some hwhi hw).2
      (hu.mapping_of_some huhi hu').2

/-- Page steps at or above 4 MB keep the shield. -/
theorem kept_shield (hP : ∀ v ∈ P, 1024 ≤ v) :
    Kept T P fun L m ↦ Shield T m ∧ ∀ v ∈ L, 1024 ≤ v where
  ok := fun L m h ↦ h.1.ok
  step := by
    rintro L m L' m' ⟨hshield, hL⟩ hstep
    cases hstep with
    | @load _ _ _ v p N hpre hv hload =>
        have hlo := hP v (hpre.subset (by simp))
        refine ⟨hshield.load hlo hload, fun w hw ↦ ?_⟩
        rcases List.mem_append.mp hw with hw | hw
        · exact hL w hw
        · rwa [List.mem_singleton.mp hw]
    | fail hnot => exact ⟨hshield.fail hnot, hL⟩
    | @unload _ _ _ v hv hu =>
        exact ⟨hshield.unload (hL v List.mem_cons_self) hv hu,
          fun w hw ↦ hL w (List.mem_cons_of_mem v hw)⟩

/-- After the start of the kernel. -/
theorem shield_boot (T : Tables) (m : Pmm) (table : List E820Entry) (mem : Bytes) :
    Shield T (Mm.boot T m table mem) := by
  obtain ⟨hok, hmap⟩ := (Paged.boot T m table mem).refines
  generalize Mm.boot T m table mem = b at hok hmap
  have hnone : ∀ v, 1024 ≤ v → v < 2 ^ 20 → b.mapping T v = none := by
    intro v hlo hhi
    rw [hmap v hhi, Flat.identity, if_neg (by omega)]
  refine ⟨hok, fun v hv ↦ ?_, fun v hlo hhi f hf ↦ ?_, fun v hlo hhi f hf ↦ ?_,
    fun v w hlo hhi _ _ f hf ↦ ?_⟩
  · rw [hmap v (by omega), Flat.identity, if_pos hv]
  all_goals
    rw [hnone v hlo hhi] at hf
    cases hf

/-! ## Runs -/

/-- The states of the kernel after its start, with the images that are loaded.  A file may be
loaded when `C` holds; any loaded image may be unloaded.  Between the calls the rest of the
kernel uses the heap. -/
inductive ImageRun (T : Tables) (m₀ : Pmm) (table : List E820Entry)
    (C : List UserImage → File → Prop) : Sys → List UserImage → Prop
  | boot (mem : Bytes) (heap : Heap.Kheap) :
      ImageRun T m₀ table C ⟨Mm.boot T m₀ table mem, heap, []⟩ []
  | load {s s' : Sys} {live : List UserImage} {F : File} {outImage : ℕ} {r : ℤ}
      {out : Option UserImage} : ImageRun T m₀ table C s live → C live F →
      elfLoad T s F outImage = .done (r, out, s') → ImageRun T m₀ table C s' (out.toList ++ live)
  | unload {s s' : Sys} {l₁ l₂ : List UserImage} {img : UserImage} :
      ImageRun T m₀ table C s (l₁ ++ img :: l₂) → elfUnload T s img = .done s' →
      ImageRun T m₀ table C s' (l₁ ++ l₂)
  | other {s : Sys} {live : List UserImage} (heap : Heap.Kheap) (reads : List (ℕ × ℕ)) :
      ImageRun T m₀ table C s live → ImageRun T m₀ table C ⟨s.mm, heap, reads⟩ live

variable {m₀ : Pmm} {table : List E820Entry} {C : List UserImage → File → Prop}

/-- The loaded images are as `elf_load` records them. -/
structure Recorded (live : List UserImage) : Prop where
  fits : ∀ img ∈ live, img.Fits
  ptr : ∀ img ∈ live, img.ptr ≠ 0

/-- No segment of a file reaches below 4 MB. -/
def Upper (F : File) : Prop := ∀ v ∈ F.pageList, 1024 ≤ v

theorem ImageRun.shield (h : ImageRun T m₀ table C s live) (hC : ∀ live F, C live F → Upper F) :
    Shield T s.mm ∧ Recorded live ∧ ∀ img ∈ live, ∀ v ∈ img.pageList, 1024 ≤ v := by
  induction h with
  | boot mem heap =>
      exact ⟨shield_boot T m₀ table mem, ⟨fun _ h ↦ absurd h List.not_mem_nil,
        fun _ h ↦ absurd h List.not_mem_nil⟩, fun _ h ↦ absurd h List.not_mem_nil⟩
  | @load s s' live F outImage r out _ hF hrun ih =>
      obtain ⟨hshield, hrec, hup⟩ := ih
      rcases (kept_shield (hC live F hF)).elfLoad
          ⟨hshield, fun _ h ↦ absurd h List.not_mem_nil⟩ hrun with
        ⟨img, -, rfl, ⟨hshield', hup'⟩, hfits, hptr, -⟩ | ⟨-, rfl, hshield', -⟩
      · exact ⟨hshield', ⟨List.forall_mem_cons.mpr ⟨hfits, hrec.fits⟩,
          List.forall_mem_cons.mpr ⟨hptr, hrec.ptr⟩⟩, List.forall_mem_cons.mpr ⟨hup', hup⟩⟩
      · exact ⟨hshield', hrec, hup⟩
  | @unload s s' l₁ l₂ img _ hrun ih =>
      obtain ⟨hshield, hrec, hup⟩ := ih
      have hmem : img ∈ l₁ ++ img :: l₂ := by simp
      have hsub : ∀ x ∈ l₁ ++ l₂, x ∈ l₁ ++ img :: l₂ := fun x hx ↦
        List.mem_append.mpr ((List.mem_append.mp hx).imp id (List.mem_cons_of_mem img))
      have hkept : Kept T [] fun L m ↦ Shield T m ∧ ∀ v ∈ L, 1024 ≤ v :=
        kept_shield fun v hv ↦ absurd hv List.not_mem_nil
      have hafter := hkept.elfUnload (hrec.fits img hmem) ⟨hshield, hup img hmem⟩
        (hrec.ptr img hmem) hrun
      exact ⟨hafter.1, ⟨fun x hx ↦ hrec.fits x (hsub x hx), fun x hx ↦ hrec.ptr x (hsub x hx)⟩,
        fun x hx ↦ hup x (hsub x hx)⟩
  | other heap reads _ ih => exact ih

/-- In every run that loads only files without segments below 4 MB, the first 4 MB stay
mapped to themselves. -/
theorem identity_kept (h : ImageRun T m₀ table (fun _ F ↦ Upper F) s live) :
    ∀ v < 0x400000, s.mm.vmmGetPhys T v = v := by
  intro v hv
  obtain ⟨hshield, -⟩ := h.shield fun _ _ hF ↦ hF
  rw [vmmGetPhys_eq hshield.ok (by omega), hshield.low (v / 4096) (by omega)]
  exact Nat.div_add_mod' v 4096

/-- A file with one segment to load and no contents beside its headers. -/
def segmentFile (vaddr offset filesz memsz : ℕ) : File where
  data := 0x30000
  bytes := fun i ↦
    let word := fun v ↦ (List.range 4).map (ofWord v)
    ([0x7F, 0x45, 0x4C, 0x46, 1, 1, 1, 0, 0, 0, 0, 0, 0, 0, 0, 0, 2, 0, 3, 0] ++ word 1 ++
      word vaddr ++ word 52 ++ word 0 ++ word 0 ++ [52, 0, 32, 0, 1, 0, 0, 0, 0, 0, 0, 0] ++
      word 1 ++ word offset ++ word vaddr ++ word vaddr ++ word filesz ++ word memsz ++ word 7 ++
      word 0x1000).getD i 0
  size := 84
  size_lt := by norm_num

/-- The state after the start with three free pages at 1 MB. -/
def threeFrames : Sys :=
  ⟨Mm.boot lowTables Pmm.unset [⟨0x100000, 0x3000, 1⟩] fun _ ↦ 0,
    Heap.kheapInit Heap.lowArena fun _ ↦ 0, []⟩

/-- A program at 0x30000, in the middle of the kernel. -/
theorem identity_lost : ∃ s live,
    ImageRun lowTables Pmm.unset [⟨0x100000, 0x3000, 1⟩] (fun _ _ ↦ True) s live ∧
      s.mm.vmmGetPhys lowTables 0x30000 = 0x100000 := by
  have hload : (elfLoad lowTables threeFrames (segmentFile 0x30000 0 0 1) 1).value?.map
      (fun x ↦ x.2.2.mm.vmmGetPhys lowTables 0x30000) = some 0x100000 := by decide +kernel
  obtain ⟨⟨r, out, s⟩, hrun, hphys⟩ := Option.map_eq_some_iff.mp hload
  exact ⟨s, _, .load (.boot _ _) trivial (Outcome.value?_eq_some.mp hrun), hphys⟩

theorem upper_segmentFile : Upper (segmentFile 0x800000 0 0 1) := by
  have hlist : (segmentFile 0x800000 0 0 1).pageList = [0x800] := by decide +kernel
  rw [Upper, hlist]
  decide

theorem identity_kept_load : ∃ s live, live ≠ [] ∧
    ImageRun lowTables Pmm.unset [⟨0x100000, 0x3000, 1⟩] (fun _ F ↦ Upper F) s live ∧
      ∀ v < 0x400000, s.mm.vmmGetPhys lowTables v = v := by
  have hload : (elfLoad lowTables threeFrames (segmentFile 0x800000 0 0 1) 1).value?.map
      (fun x ↦ x.2.1.isSome) = some true := by decide +kernel
  obtain ⟨⟨r, out, s⟩, hrun, hout⟩ := Option.map_eq_some_iff.mp hload
  obtain ⟨img, rfl⟩ := Option.isSome_iff_exists.mp hout
  have hstate : ImageRun lowTables Pmm.unset [⟨0x100000, 0x3000, 1⟩] (fun _ F ↦ Upper F) s [img] :=
    .load (.boot _ _) upper_segmentFile (Outcome.value?_eq_some.mp hrun)
  exact ⟨s, [img], List.cons_ne_nil _ _, hstate, identity_kept hstate⟩

/-! ## Frames that belong to one page -/

/-- Exactly the pages `W` are mapped at or above 4 MB, and the frames `F₀` are free, tables or
under one of them. -/
structure Exclusive (T : Tables) (F₀ : Finset ℕ) (W : List ℕ) (m : Mm) : Prop where
  shield : Shield T m
  nodup : W.Nodup
  upper : ∀ v ∈ W, 1024 ≤ v ∧ v < 2 ^ 20
  mapped : ∀ v, 1024 ≤ v → v < 2 ^ 20 → ((m.mapping T v).isSome ↔ v ∈ W)
  account : ∀ f ∈ F₀, f ∈ m.pmm.freePages ∨ m.TablePage T f ∨ ∃ v ∈ W, m.mapping T v = some f

theorem Exclusive.perm (h : Exclusive T F₀ W m) (hW : W.Perm W') : Exclusive T F₀ W' m where
  shield := h.shield
  nodup := hW.nodup_iff.mp h.nodup
  upper := fun v hv ↦ h.upper v (hW.mem_iff.mpr hv)
  mapped := fun v hlo hhi ↦ (h.mapped v hlo hhi).trans hW.mem_iff
  account := by
    intro f hf
    refine (h.account f hf).imp_right (Or.imp_right ?_)
    rintro ⟨v, hv, hmap⟩
    exact ⟨v, hW.mem_iff.mp hv, hmap⟩

theorem Exclusive.load (h : Exclusive T F₀ W m) (hlo : 1024 ≤ v) (hhi : v < 2 ^ 20) (hv : v ∉ W)
    (hl : Loaded T m m' v p N) : Exclusive T F₀ (v :: W) m' where
  shield := h.shield.load hlo hl
  nodup := List.nodup_cons.mpr ⟨hv, h.nodup⟩
  upper := List.forall_mem_cons.mpr ⟨⟨hlo, hhi⟩, h.upper⟩
  mapped := by
    intro w hwlo hwhi
    rw [hl.mapping w hwhi, List.mem_cons]
    split
    case isTrue hwv => simp [hwv]
    case isFalse hwv => simp [hwv, h.mapped w hwlo hwhi]
  account := by
    intro f hf
    have hhere : m'.mapping T v = some p := by rw [hl.mapping v hhi, if_pos rfl]
    rcases h.account f hf with hfree | htable | ⟨w, hw, hmap⟩
    · refine (hl.free_cases hfree).imp_right (Or.imp_right fun hfp ↦ ?_)
      exact ⟨v, List.mem_cons_self, by rw [hhere, hfp]⟩
    · exact Or.inr (Or.inl ((hl.tablePage f).mpr (Or.inl htable)))
    · refine Or.inr (Or.inr ⟨w, List.mem_cons_of_mem v hw, ?_⟩)
      rw [hl.mapping w (h.upper w hw).2, if_neg (by rintro rfl; exact hv hw)]
      exact hmap

theorem Exclusive.fail (h : Exclusive T F₀ W m) (hzero : 0 ∉ F₀) (hn : NotLoaded m m') :
    Exclusive T F₀ W m' where
  shield := h.shield.fail hn
  nodup := h.nodup
  upper := h.upper
  mapped := by
    intro w hwlo hwhi
    rw [hn.mapping]
    exact h.mapped w hwlo hwhi
  account := by
    intro f hf
    have hf0 : f ≠ 0 := fun h0 ↦ hzero (h0 ▸ hf)
    rw [tablePage_congr fun i _ ↦ hn.table i, hn.free]
    rcases h.account f hf with hfree | htable | ⟨w, hw, hmap⟩
    · exact Or.inl (Finset.mem_erase.mpr ⟨hf0, hfree⟩)
    · exact Or.inr (Or.inl htable)
    · exact Or.inr (Or.inr ⟨w, hw, by rw [hn.mapping, hmap]⟩)

theorem Exclusive.unload (h : Exclusive T F₀ (v :: W) m) (hu : Unloaded T m m' v) :
    Exclusive T F₀ W m' := by
  obtain ⟨hlo, hhi⟩ := h.upper v List.mem_cons_self
  obtain ⟨hv, hnodup⟩ := List.nodup_cons.mp h.nodup
  obtain ⟨g, hg⟩ := Option.isSome_iff_exists.mp ((h.mapped v hlo hhi).mpr List.mem_cons_self)
  have hfree : m'.pmm.freePages = insert g m.pmm.freePages := by
    rw [hu.free, hg, Option.elim_some]
  refine ⟨h.shield.unload hlo hhi hu, hnodup, fun w hw ↦ h.upper w (List.mem_cons_of_mem v hw),
    fun w hwlo hwhi ↦ ?_, fun f hf ↦ ?_⟩
  · rw [hu.mapping w hwhi]
    split
    case isTrue hwv => simp [hwv, hv]
    case isFalse hwv => simp [h.mapped w hwlo hwhi, hwv]
  · rw [tablePage_congr hu.table, hfree]
    rcases h.account f hf with hold | htable | ⟨w, hw, hmap⟩
    · exact Or.inl (Finset.mem_insert_of_mem hold)
    · exact Or.inr (Or.inl htable)
    · rcases List.mem_cons.mp hw with rfl | hin
      · rw [hg] at hmap
        obtain rfl := Option.some.inj hmap
        exact Or.inl (Finset.mem_insert_self _ _)
      · refine Or.inr (Or.inr ⟨w, hin, ?_⟩)
        rw [hu.mapping w (h.upper w hw).2, if_neg (by rintro rfl; exact hv hin)]
        exact hmap

/-- Page steps of one image keep the pages `O` of the others apart, and their translations. -/
theorem kept_exclusive {μ : ℕ → Option ℕ} (hzero : 0 ∉ F₀) (hP : ∀ v ∈ P, 1024 ≤ v)
    (hO : (O ++ P).Nodup) :
    Kept T P fun L m ↦ Exclusive T F₀ (L ++ O) m ∧ ∀ v ∈ O, m.mapping T v = μ v where
  ok := fun L m h ↦ h.1.shield.ok
  step := by
    rintro L m L' m' ⟨hex, hsame⟩ hstep
    cases hstep with
    | @load _ _ _ v p N hpre hv hload =>
        have hvP : v ∈ P := hpre.subset (by simp)
        obtain ⟨-, hPnodup, hdisj⟩ := List.nodup_append.mp hO
        have hvO : v ∉ O := fun hmem ↦ hdisj v hmem v hvP rfl
        have hvL : v ∉ L := by
          have hnodup := (hpre.sublist.nodup hPnodup)
          rw [List.nodup_append] at hnodup
          exact fun hmem ↦ hnodup.2.2 v hmem v (List.mem_singleton_self v) rfl
        have hnew := hex.load (hP v hvP) (by omega) (by simp [hvL, hvO]) hload
        refine ⟨hnew.perm ?_, fun w hw ↦ ?_⟩
        · rw [List.append_assoc]
          exact List.perm_middle.symm
        · rw [hload.mapping w (hex.upper w (List.mem_append_right L hw)).2,
            if_neg (by rintro rfl; exact hvO hw)]
          exact hsame w hw
    | fail hnot =>
        refine ⟨hex.fail hzero hnot, fun w hw ↦ ?_⟩
        rw [hnot.mapping]
        exact hsame w hw
    | @unload _ _ _ v hv hu =>
        refine ⟨hex.unload hu, fun w hw ↦ ?_⟩
        have hne : w ≠ v := by
          rintro rfl
          exact (List.nodup_cons.mp hex.nodup).1 (List.mem_append_right _ hw)
        rw [hu.mapping w (hex.upper w (List.mem_append_right _ hw)).2, if_neg hne]
        exact hsame w hw

/-- All pages that the images record. -/
def allPages (live : List UserImage) : List ℕ := live.flatMap UserImage.pageList

/-- A file asks for pages that are above 4 MB, each once, and that no image has. -/
structure Apart (live : List UserImage) (F : File) : Prop where
  upper : Upper F
  nodup : (allPages live ++ F.pageList).Nodup

theorem exclusive_boot (T : Tables) (m₀ : Pmm) (table : List E820Entry) (mem : Bytes) :
    Exclusive T (m₀.pmmInit table).freePages [] (Mm.boot T m₀ table mem) where
  shield := shield_boot T m₀ table mem
  nodup := List.nodup_nil
  upper := fun _ h ↦ absurd h List.not_mem_nil
  mapped := by
    intro v hlo hhi
    rw [(Paged.boot T m₀ table mem).refines.2 v hhi, Flat.identity, if_neg (by omega)]
    simp
  account := by
    intro f hf
    rw [Mm.boot_pmm]
    exact Or.inl hf

theorem zero_not_free (m₀ : Pmm) (table : List E820Entry) : 0 ∉ (m₀.pmmInit table).freePages :=
  fun hzero ↦ absurd ((m₀.pmmInit_spec table).2.2 0 hzero) (by norm_num)

/-- The invariant through one `elf_load`, with the translations of the other images. -/
theorem Exclusive.elfLoad (h : Exclusive T F₀ (allPages live) s.mm) (hzero : 0 ∉ F₀)
    (hF : Apart live F) {r : ℤ} {outImage : ℕ} {out : Option UserImage}
    (hrun : elfLoad T s F outImage = .done (r, out, s')) :
    Exclusive T F₀ (allPages (out.toList ++ live)) s'.mm ∧
      (∀ img ∈ out.toList, img.Fits ∧ img.ptr ≠ 0) ∧
      ∀ v ∈ allPages live, s'.mm.mapping T v = s.mm.mapping T v := by
  have hkept := kept_exclusive (T := T) (μ := s.mm.mapping T) hzero hF.upper hF.nodup
  rcases hkept.elfLoad ⟨h, fun _ _ ↦ rfl⟩ hrun with
    ⟨img, -, rfl, ⟨hex, hsame⟩, hfits, hptr, -⟩ | ⟨-, rfl, hex, hsame⟩
  · refine ⟨hex, fun x hx ↦ ?_, hsame⟩
    obtain rfl := List.mem_singleton.mp hx
    exact ⟨hfits, hptr⟩
  · exact ⟨hex, fun x hx ↦ absurd hx List.not_mem_nil, hsame⟩

theorem ImageRun.exclusive (h : ImageRun T m₀ table Apart s live) :
    Exclusive T (m₀.pmmInit table).freePages (allPages live) s.mm ∧ Recorded live := by
  induction h with
  | boot mem heap =>
      exact ⟨exclusive_boot T m₀ table mem, fun _ h ↦ absurd h List.not_mem_nil,
        fun _ h ↦ absurd h List.not_mem_nil⟩
  | load _ hF hrun ih =>
      obtain ⟨hex, hrec⟩ := ih
      obtain ⟨hex', hnew, -⟩ := hex.elfLoad (zero_not_free m₀ table) hF hrun
      refine ⟨hex', fun x hx ↦ ?_, fun x hx ↦ ?_⟩
      · rcases List.mem_append.mp hx with hx | hx
        · exact (hnew x hx).1
        · exact hrec.fits x hx
      · rcases List.mem_append.mp hx with hx | hx
        · exact (hnew x hx).2
        · exact hrec.ptr x hx
  | @unload s s' l₁ l₂ img _ hrun ih =>
      obtain ⟨hex, hrec⟩ := ih
      have hmem : img ∈ l₁ ++ img :: l₂ := by simp
      have hperm : (allPages (l₁ ++ img :: l₂)).Perm (img.pageList ++ allPages (l₁ ++ l₂)) := by
        simp only [allPages, List.flatMap_append, List.flatMap_cons]
        exact List.perm_append_comm_assoc _ _ _
      have hnodup := (List.nodup_append.mp (hperm.nodup_iff.mp hex.nodup)).2.1
      have hkept := kept_exclusive (T := T) (P := []) (O := allPages (l₁ ++ l₂))
        (μ := s.mm.mapping T) (zero_not_free m₀ table) (fun _ h ↦ absurd h List.not_mem_nil)
        (by rwa [List.append_nil])
      have hafter := hkept.elfUnload (hrec.fits img hmem) ⟨hex.perm hperm, fun _ _ ↦ rfl⟩
        (hrec.ptr img hmem) hrun
      have hsub : ∀ x ∈ l₁ ++ l₂, x ∈ l₁ ++ img :: l₂ := fun x hx ↦
        List.mem_append.mpr ((List.mem_append.mp hx).imp id (List.mem_cons_of_mem img))
      exact ⟨hafter.1, fun x hx ↦ hrec.fits x (hsub x hx), fun x hx ↦ hrec.ptr x (hsub x hx)⟩
  | other heap reads _ ih => exact ih

/-- Every recorded page is recorded once and has a frame that no other page has, that is not
free and that holds no table. -/
structure Owning (T : Tables) (s : Sys) (live : List UserImage) : Prop where
  once : (allPages live).Nodup
  frames : ∀ v ∈ allPages live, ∃ f, s.mm.vmmGetPhys T (v * 4096) = f * 4096 ∧
    f ∉ s.mm.pmm.freePages ∧ ¬s.mm.TablePage T f ∧
    ∀ w ∈ allPages live, w ≠ v → s.mm.vmmGetPhys T (w * 4096) ≠ f * 4096

theorem vmmGetPhys_page (h : m.Ok T) (hv : v < 2 ^ 20) : m.vmmGetPhys T (v * 4096) =
    match m.mapping T v with
    | some f => f * 4096
    | none => 0xFFFFFFFF := by
  rw [vmmGetPhys_eq h (by omega), Nat.mul_div_cancel v (by norm_num), Nat.mul_mod_left]
  rcases m.mapping T v with - | f
  · rfl
  · exact Nat.add_zero _

theorem Exclusive.owning (h : Exclusive T F₀ (allPages live) s.mm) : Owning T s live := by
  have hphys : ∀ v ∈ allPages live, ∃ f, s.mm.mapping T v = some f ∧
      s.mm.vmmGetPhys T (v * 4096) = f * 4096 := by
    intro v hv
    obtain ⟨hlo, hhi⟩ := h.upper v hv
    obtain ⟨f, hf⟩ := Option.isSome_iff_exists.mp ((h.mapped v hlo hhi).mpr hv)
    exact ⟨f, hf, by rw [vmmGetPhys_page h.shield.ok hhi, hf]⟩
  refine ⟨h.nodup, fun v hv ↦ ?_⟩
  obtain ⟨hlo, hhi⟩ := h.upper v hv
  obtain ⟨f, hmap, hf⟩ := hphys v hv
  refine ⟨f, hf, h.shield.used v hlo hhi f hmap, h.shield.frame v hlo hhi f hmap, ?_⟩
  intro w hw hwv hsame
  obtain ⟨hwlo, hwhi⟩ := h.upper w hw
  obtain ⟨g, hgmap, hg⟩ := hphys w hw
  obtain rfl : g = f := by omega
  exact hwv (h.shield.inj w v hwlo hwhi hlo hhi g hgmap hmap)

/-- In every run that loads only files that ask for pages of their own, every image owns its
frames, no load changes a translation of another image, and without images all frames but
those of page tables are free again and no segment page is mapped. -/
theorem images_exclusive (h : ImageRun T m₀ table Apart s live) :
    Owning T s live ∧
      (∀ F outImage r out s', Apart live F → elfLoad T s F outImage = .done (r, out, s') →
        ∀ img ∈ live, ∀ a < 2 ^ 32, a / 4096 ∈ img.pageList →
          s'.mm.vmmGetPhys T a = s.mm.vmmGetPhys T a) ∧
      (live = [] →
        (∀ f ∈ (m₀.pmmInit table).freePages, f ∈ s.mm.pmm.freePages ∨ s.mm.TablePage T f) ∧
        ∀ v, 1024 ≤ v → v < 2 ^ 20 → s.mm.vmmGetPhys T (v * 4096) = 0xFFFFFFFF) := by
  obtain ⟨hex, -⟩ := h.exclusive
  refine ⟨hex.owning, ?_, ?_⟩
  · intro F outImage r out s' hF hrun img himg a ha hpage
    obtain ⟨hex', -, hsame⟩ := hex.elfLoad (zero_not_free m₀ table) hF hrun
    exact vmmGetPhys_congr hex.shield.ok hex'.shield.ok ha
      (hsame _ (List.mem_flatMap.mpr ⟨img, himg, hpage⟩))
  · rintro rfl
    refine ⟨fun f hf ↦ ?_, fun v hlo hhi ↦ ?_⟩
    · refine (hex.account f hf).imp_right (Or.resolve_right · ?_)
      rintro ⟨v, hv, -⟩
      exact absurd hv List.not_mem_nil
    · have hnone : s.mm.mapping T v = none := by
        rw [← Option.not_isSome_iff_eq_none, hex.mapped v hlo hhi]
        exact List.not_mem_nil
      rw [vmmGetPhys_page hex.shield.ok hhi, hnone]

/-- Two programs, in two pages under one table: both pages have frames of their own, and the
second load leaves the page of the first image where it is. -/
theorem images_exclusive_two : ∃ s s' img img',
    ImageRun lowTables Pmm.unset [⟨0x100000, 0x3000, 1⟩] Apart s [img] ∧
      elfLoad lowTables s (segmentFile 0x801000 0 0 1) 1 = .done (0, some img', s') ∧
      allPages [img', img] = [0x801, 0x800] ∧ Owning lowTables s' [img', img] ∧
      s'.mm.vmmGetPhys lowTables 0x800000 = s.mm.vmmGetPhys lowTables 0x800000 := by
  have hload : ((elfLoad lowTables threeFrames (segmentFile 0x800000 0 0 1) 1).value?.bind
      fun x ↦ (elfLoad lowTables x.2.2 (segmentFile 0x801000 0 0 1) 1).value?.map fun y ↦
        (x.2.1.map UserImage.pageList, y.1, y.2.1.map UserImage.pageList)) =
      some (some [0x800], 0, some [0x801]) := by decide +kernel
  obtain ⟨⟨r, out, s⟩, hrun, hnext⟩ := Option.bind_eq_some_iff.mp hload
  obtain ⟨⟨r', out', s'⟩, hrun', hres⟩ := Option.map_eq_some_iff.mp hnext
  simp only [Prod.mk.injEq] at hres
  obtain ⟨himg, rfl, himg'⟩ := hres
  obtain ⟨img, rfl, hpages⟩ := Option.map_eq_some_iff.mp himg
  obtain ⟨img', rfl, hpages'⟩ := Option.map_eq_some_iff.mp himg'
  have hfile : (segmentFile 0x801000 0 0 1).pageList = [0x801] := by decide +kernel
  have hrun' := Outcome.value?_eq_some.mp hrun'
  have hstate : ImageRun lowTables Pmm.unset [⟨0x100000, 0x3000, 1⟩] Apart s [img] :=
    .load (.boot _ _) ⟨upper_segmentFile, by decide +kernel⟩ (Outcome.value?_eq_some.mp hrun)
  have hapart : Apart [img] (segmentFile 0x801000 0 0 1) := by
    refine ⟨?_, ?_⟩
    · rw [Upper, hfile]
      decide
    · rw [allPages, List.flatMap_singleton, hpages, hfile]
      decide
  refine ⟨s, s', img, img', hstate, hrun', ?_, (images_exclusive (.load hstate hapart hrun')).1,
    (images_exclusive hstate).2.1 _ _ _ _ _ hapart hrun' img List.mem_cons_self 0x800000
      (by norm_num) ?_⟩
  · simp [allPages, hpages, hpages']
  · simp [hpages]

/-- One program is loaded twice: the second load takes the page of the first image away. -/
theorem second_load_remaps : ∃ s img img' s',
    ImageRun lowTables Pmm.unset [⟨0x100000, 0x3000, 1⟩] (fun _ _ ↦ True) s [img] ∧
      elfLoad lowTables s (segmentFile 0x800000 0 0 1) 1 = .done (0, some img', s') ∧
      0x800 ∈ img.pageList ∧ s.mm.vmmGetPhys lowTables 0x800000 = 0x100000 ∧
      s'.mm.vmmGetPhys lowTables 0x800000 = 0x102000 := by
  have hload : ((elfLoad lowTables threeFrames (segmentFile 0x800000 0 0 1) 1).value?.bind
      fun x ↦ (elfLoad lowTables x.2.2 (segmentFile 0x800000 0 0 1) 1).value?.map fun y ↦
        (x.2.1.map UserImage.pageList, x.2.2.mm.vmmGetPhys lowTables 0x800000, y.1, y.2.1.isSome,
          y.2.2.mm.vmmGetPhys lowTables 0x800000)) =
      some (some [0x800], 0x100000, 0, true, 0x102000) := by decide +kernel
  obtain ⟨⟨r, out, s⟩, hrun, hnext⟩ := Option.bind_eq_some_iff.mp hload
  obtain ⟨⟨r', out', s'⟩, hrun', hres⟩ := Option.map_eq_some_iff.mp hnext
  simp only [Prod.mk.injEq] at hres
  obtain ⟨himg, hphys, rfl, hout, hphys'⟩ := hres
  obtain ⟨img, rfl, hpages⟩ := Option.map_eq_some_iff.mp himg
  obtain ⟨img', rfl⟩ := Option.isSome_iff_exists.mp hout
  refine ⟨s, img, img', s', .load (.boot _ _) trivial (Outcome.value?_eq_some.mp hrun),
    Outcome.value?_eq_some.mp hrun', by rw [hpages]; simp, hphys, hphys'⟩

end MyOS.Elf
