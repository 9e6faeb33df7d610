import MyOS.Fat32.Table
import MyOS.Lib.Loop

/-!
# When the loops along a directory end

`fat32_listdir`, `search_dir`, `find_free_dirent_in` and `dir_is_empty` follow the links of a
directory and keep no record of the clusters they have seen.  On a drive without failures they
end exactly if they come to a link that is no cluster, to a cluster behind LBA 28, or to a slot
that makes them return.
-/

namespace MyOS.Fat32

open Bytes

variable {g : Geometry} {disk : Bytes} {v : Vol} {c start : ℕ}

/-! ## Slots that end a loop -/

namespace Dirent

variable (e : Dirent)

/-- `fat32_listdir` returns at an end mark. -/
def EndsListing : Prop := first e = 0

def EndsSlotSearch : Prop := ¬Used e

def EndsEmptyTest : Prop :=
  first e = 0 ∨ Live e ∧ ¬(first e = chDot ∧ (e 1 = chSpace ∨ e 1 = chDot))

/-- `search_dir` returns at an end mark and at the name it looks for. -/
def EndsSearch (target : List UInt8) (e : Dirent) : Prop :=
  first e = 0 ∨ Live e ∧ name e = target

instance : DecidablePred EndsListing := fun e ↦ inferInstanceAs (Decidable (first e = 0))

instance (target : List UInt8) : DecidablePred (EndsSearch target) :=
  fun _ ↦ inferInstanceAs (Decidable (_ ∨ _))

instance : DecidablePred EndsSlotSearch := fun e ↦ inferInstanceAs (Decidable ¬Used e)

instance : DecidablePred EndsEmptyTest := fun _ ↦ inferInstanceAs (Decidable (_ ∨ _))

end Dirent

/-- A scan does not go on behind cluster `c`: it does not start there, it cannot read one of its
sectors, or it returns at one of its slots. -/
def ScanEnds (stop : Dirent → Prop) (g : Geometry) (disk : Bytes) (c : ℕ) : Prop :=
  Ends c ∨ ∃ s < g.sectorsPerCluster, 2 ^ 28 ≤ Word.add (clusterToLba g c) s ∨
    ∃ i < 16, stop (direntAt disk (512 * Word.add (clusterToLba g c) s + 32 * i))

/-- The same for `fat32_listdir`, which reads whole clusters. -/
def ListEnds (g : Geometry) (disk : Bytes) (c : ℕ) : Prop :=
  Ends c ∨ 2 ^ 28 ≤ clusterToLba g c ∨ ∃ i < 16 * g.sectorsPerCluster,
    (direntAt disk (512 * clusterToLba g c + 32 * i)).EndsListing

instance (stop : Dirent → Prop) [DecidablePred stop] (g : Geometry) (disk : Bytes) (c : ℕ) :
    Decidable (ScanEnds stop g disk c) := inferInstanceAs (Decidable (_ ∨ _))

instance (g : Geometry) (disk : Bytes) (c : ℕ) : Decidable (ListEnds g disk c) :=
  inferInstanceAs (Decidable (_ ∨ _ ∨ _))

/-! ## Scans -/

section Scan

variable {ρ : Type} {visit : DirLookup → Option ρ} {stop : Dirent → Prop}

theorem direntAt_sectorOf (disk : Bytes) (lba : ℕ) {i : ℕ} (hi : i < 16) :
    direntAt (sectorOf disk lba blank) (i * 32) = direntAt disk (512 * lba + 32 * i) := by
  refine direntAt_congr fun k hk ↦ ?_
  rw [sectorOf_apply _ _ _ _ (by omega)]
  congr 1
  omega

theorem scanSector_isSome (hvisit : ∀ look, (visit look).isSome ↔ stop look.entry) (disk : Bytes)
    (lba : ℕ) : (scanSector visit (sectorOf disk lba blank) lba).isSome ↔
      ∃ i < 16, stop (direntAt disk (512 * lba + 32 * i)) := by
  rw [scanSector, List.findSome?_isSome_iff]
  constructor
  · rintro ⟨i, hi, hsome⟩
    have hi := List.mem_range.mp hi
    rw [hvisit, direntAt_sectorOf disk lba hi] at hsome
    exact ⟨i, hi, hsome⟩
  · rintro ⟨i, hi, hstop⟩
    refine ⟨i, List.mem_range.mpr hi, ?_⟩
    rwa [hvisit, direntAt_sectorOf disk lba hi]

theorem Vol.Served.scanSectors (h : v.Served)
    (hvisit : ∀ look, (visit look).isSome ↔ stop look.entry) (onFail : ρ) (lbaBase n s : ℕ) :
    ∃ r v', scanSectors visit onFail lbaBase n s v = (r, v') ∧ v'.Served ∧ Quiet v v' ∧
      (r.isSome ↔ ∃ k, s ≤ k ∧ k < s + n ∧ (2 ^ 28 ≤ Word.add lbaBase k ∨
        ∃ i < 16, stop (direntAt v.ata.disk (512 * Word.add lbaBase k + 32 * i)))) := by
  induction n generalizing s v with
  | zero => exact ⟨none, v, rfl, h, .refl v, by simp; omega⟩
  | succ n ih =>
      rw [MyOS.Fat32.scanSectors]
      by_cases hfar : 2 ^ 28 ≤ Word.add lbaBase s
      · have hread : v.ataRead (Word.add lbaBase s) 1 blank = (false, blank, v) := by
          rw [Vol.ataRead, Ata.ataRead_far _ _ hfar (Nat.mod_lt _ (by norm_num))]
        rw [hread]
        exact ⟨some onFail, v, rfl, h, .refl v,
          iff_of_true rfl ⟨s, le_refl s, by omega, Or.inl hfar⟩⟩
      · rw [Vol.readSector_eq h.reliable (by omega)]
        dsimp only
        have hsector := scanSector_isSome hvisit v.ata.disk (Word.add lbaBase s)
        have h₁ : (v.onDisk 1 v.ata.disk).Served := ⟨h.reliable, h.cache⟩
        have hq₁ : Quiet v (v.onDisk 1 v.ata.disk) := ⟨⟨rfl, rfl, rfl⟩, rfl, rfl⟩
        cases hres : scanSector visit (sectorOf v.ata.disk (Word.add lbaBase s) blank)
          (Word.add lbaBase s) with
        | some r =>
            rw [hres] at hsector
            exact ⟨some r, _, rfl, h₁, hq₁,
              iff_of_true rfl ⟨s, le_refl s, by omega, Or.inr (hsector.mp rfl)⟩⟩
        | none =>
            rw [hres] at hsector
            obtain ⟨r, v', hrest, h', hq', hr⟩ := ih h₁ (s + 1)
            refine ⟨r, v', hrest, h', hq₁.trans hq', hr.trans ?_⟩
            constructor
            · rintro ⟨k, hlo, hhi, hk⟩
              exact ⟨k, by omega, by omega, hk⟩
            · rintro ⟨k, hlo, hhi, hk⟩
              rcases Nat.eq_or_lt_of_le hlo with rfl | hlt
              · rcases hk with hk | hk
                · exact absurd hk hfar
                · exact absurd (hsector.mpr hk) (by simp)
              · exact ⟨k, by omega, by omega, hk⟩

theorem Vol.Served.scanBody (h : v.Served)
    (hvisit : ∀ look, (visit look).isSome ↔ stop look.entry) (onFail : ρ) (hc : ¬Ends c) :
    ∃ r v', MyOS.Fat32.scanSectors visit onFail (clusterToLba v.geo c) v.geo.sectorsPerCluster 0 v =
      (r, v') ∧ v'.Served ∧ Quiet v v' ∧ (r.isSome ↔ ScanEnds stop v.geo v.ata.disk c) := by
  obtain ⟨r, v', hres, h', hquiet, hr⟩ := h.scanSectors hvisit onFail
    (clusterToLba v.geo c) v.geo.sectorsPerCluster 0
  refine ⟨r, v', hres, h', hquiet, hr.trans ?_⟩
  simp only [ScanEnds, hc, false_or, Nat.zero_le, true_and, Nat.zero_add]

end Scan

/-- Every link can be looked up, whatever it is. -/
def Geometry.LinksReadable (g : Geometry) : Prop := g.fatStartLba + 2 ^ 23 ≤ 2 ^ 28

theorem Geometry.LinksReadable.fatSector_lt (hg : g.LinksReadable) (c : ℕ) :
    fatSector g c < 2 ^ 28 := by
  have hmul : Word.mul c 4 < 2 ^ 32 := Nat.mod_lt _ (by norm_num)
  rw [Geometry.LinksReadable] at hg
  rw [fatSector, Word.add_eq (by omega)]
  omega

section ScanLoop

variable {ρ : Type} {visit : DirLookup → Option ρ} {onFail onEnd : ρ} {stop : Dirent → Prop}
  (hvisit : ∀ look, (visit look).isSome ↔ stop look.entry)

include hvisit

theorem scanLoop_stop (fuel c : ℕ) (w : Vol) (hw : w.Served ∧ Quiet v w)
    (hc : ScanEnds stop v.geo v.ata.disk c) :
    ∃ r, scanLoop visit onFail onEnd (fuel + 1) c w = .done r := by
  rw [scanLoop]
  by_cases hend : Ends c
  · rw [if_neg fun hgo ↦ hend hgo.symm]
    exact ⟨_, rfl⟩
  · obtain ⟨r, v', hres, -, -, hr⟩ := hw.1.scanBody hvisit onFail hend
    rw [hw.2.geo, hw.2.disk] at hr
    obtain ⟨r, rfl⟩ := Option.isSome_iff_exists.mp (hr.mpr hc)
    rw [if_pos (not_not.mp hend).symm, hres]
    exact ⟨_, rfl⟩

theorem scanLoop_go (hg : v.geo.LinksReadable) (fuel c : ℕ) (w : Vol) (hw : w.Served ∧ Quiet v w)
    (hc : ¬ScanEnds stop v.geo v.ata.disk c) :
    ∃ w', (w'.Served ∧ Quiet v w') ∧ scanLoop visit onFail onEnd (fuel + 1) c w =
      scanLoop visit onFail onEnd fuel (link v.geo v.ata.disk c) w' := by
  have hend : ¬Ends c := fun hend ↦ hc (Or.inl hend)
  obtain ⟨r, v₁, hres, hv₁, hquiet, hr⟩ := hw.1.scanBody hvisit onFail hend
  rw [hw.2.geo, hw.2.disk] at hr
  obtain rfl : r = none := by
    rw [← Option.not_isSome_iff_eq_none, hr]
    exact hc
  have hquiet := hw.2.trans hquiet
  obtain ⟨v₂, hnext, hv₂, hquiet₂⟩ := hv₁.nextCluster (c := c) (by
    rw [hquiet.geo]
    exact hg.fatSector_lt c)
  rw [hquiet.geo, hquiet.disk] at hnext
  refine ⟨v₂, ⟨hv₂, hquiet.trans hquiet₂⟩, ?_⟩
  rw [scanLoop, if_pos (not_not.mp hend).symm, hres]
  dsimp only
  rw [hnext]

variable (h : v.Served) (hg : v.geo.LinksReadable)

include h hg

theorem scanDir_done_iff (start : ℕ) : (∃ r, scanDir visit onFail onEnd v start = .done r) ↔
    ∃ n, ScanEnds stop v.geo v.ata.disk ((link v.geo v.ata.disk)^[n] start) :=
  Outcome.loop_done_iff (fun _ _ ↦ rfl) (scanLoop_stop hvisit) (scanLoop_go hvisit hg)
    (link_lt _ _) (by rw [walkFuel]; norm_num) ⟨h, .refl v⟩

theorem scanLoop_spin
    (hnone : ∀ n, ¬ScanEnds stop v.geo v.ata.disk ((link v.geo v.ata.disk)^[n] start)) (fuel : ℕ) :
    scanLoop visit onFail onEnd fuel start v = .spin :=
  Outcome.loop_spin (fun _ _ ↦ rfl) (scanLoop_stop hvisit) (scanLoop_go hvisit hg)
    ⟨h, .refl v⟩ hnone fuel

end ScanLoop

theorem searchVisit_isSome (target : List UInt8) (look : DirLookup) :
    (searchVisit target look).isSome ↔ look.entry.EndsSearch target := by
  unfold searchVisit Dirent.EndsSearch Dirent.Live Dirent.Used
  split_ifs <;> simp_all

theorem freeVisit_isSome (look : DirLookup) :
    (freeVisit look).isSome ↔ look.entry.EndsSlotSearch := by
  rw [freeVisit, Dirent.EndsSlotSearch, Dirent.Used, not_and_or, not_not, not_not]
  split_ifs with hfree
  · exact iff_of_true rfl hfree
  · exact iff_of_false (by simp) hfree

theorem emptyVisit_isSome (look : DirLookup) :
    (emptyVisit look).isSome ↔ look.entry.EndsEmptyTest := by
  unfold emptyVisit Dirent.EndsEmptyTest Dirent.Live Dirent.Used
  split_ifs <;> simp_all

/-! ## Listing -/

section List

variable {σ : Type} {visit : σ → Dirent → σ} {ctx : σ}

theorem listEntries_ends (visit : σ → Dirent → σ) (buf : Bytes) (n i : ℕ) (ctx : σ) :
    (listEntries visit buf n i ctx).1 = true ↔
      ∃ k, i ≤ k ∧ k < i + n ∧ (direntAt buf (32 * k)).EndsListing := by
  induction n generalizing i ctx with
  | zero => simp [listEntries]; omega
  | succ n ih =>
      have hskip : ¬(direntAt buf (32 * i)).EndsListing →
          ((∃ k, i + 1 ≤ k ∧ k < i + 1 + n ∧ (direntAt buf (32 * k)).EndsListing) ↔
            ∃ k, i ≤ k ∧ k < i + (n + 1) ∧ (direntAt buf (32 * k)).EndsListing) := by
        intro hi
        refine exists_congr fun k ↦ ⟨?_, ?_⟩
        · rintro ⟨hlo, hhi, hk⟩
          exact ⟨by omega, by omega, hk⟩
        · rintro ⟨hlo, hhi, hk⟩
          refine ⟨lt_of_le_of_ne hlo ?_, by omega, hk⟩
          rintro rfl
          exact hi hk
      rw [listEntries]
      split_ifs with hmark
      · exact iff_of_true rfl ⟨i, le_refl i, by omega, hmark⟩
      · exact (ih (i + 1) _).trans (hskip hmark)
      · exact (ih (i + 1) _).trans (hskip hmark)
      · exact (ih (i + 1) _).trans (hskip hmark)
      · exact (ih (i + 1) _).trans (hskip hmark)

/-- A round of the loop, at a cluster that can be read. -/
theorem Vol.Served.listRound (h : v.Served) (hc : ¬Ends c) (hnear : clusterToLba v.geo c < 2 ^ 28)
    (visit : σ → Dirent → σ) (ctx : σ) :
    ∃ buf v', readCluster v c = (true, buf, v') ∧ v'.Served ∧ Quiet v v' ∧
      ((listEntries visit buf (v'.geo.sectorsPerCluster * 512 / 32) 0 ctx).1 = true ↔
        ListEnds v.geo v.ata.disk c) := by
  rw [readCluster, Vol.ataRead_eq h.reliable hnear]
  refine ⟨_, _, rfl, ⟨h.reliable, h.cache⟩, ⟨⟨rfl, rfl, rfl⟩, rfl, rfl⟩, ?_⟩
  have hentries : v.geo.sectorsPerCluster * 512 / 32 = 16 * v.geo.sectorsPerCluster := by omega
  have hfar : ¬2 ^ 28 ≤ clusterToLba v.geo c := by omega
  have hentry : ∀ i < 16 * v.geo.sectorsPerCluster,
      direntAt (blank.blit 0 (512 * v.geo.sectorsPerCluster) fun i ↦
        v.ata.disk (512 * clusterToLba v.geo c + i)) (32 * i) =
      direntAt v.ata.disk (512 * clusterToLba v.geo c + 32 * i) := by
    refine fun i hi ↦ direntAt_congr fun k hk ↦ ?_
    rw [blit_apply (Nat.zero_le _) (by omega)]
    congr 1
    omega
  refine (listEntries_ends visit _ _ 0 ctx).trans ?_
  simp only [ListEnds, hc, hfar, false_or, Nat.zero_le, true_and, Nat.zero_add]
  constructor
  · rintro ⟨i, hi, hmark⟩
    have hi : i < 16 * v.geo.sectorsPerCluster := hentries ▸ hi
    rw [hentry i hi] at hmark
    exact ⟨i, hi, hmark⟩
  · rintro ⟨i, hi, hmark⟩
    rw [← hentry i hi] at hmark
    exact ⟨i, hentries.symm ▸ hi, hmark⟩

theorem listLoop_stop (hspc : 1 ≤ v.geo.sectorsPerCluster) (fuel c : ℕ) (t : Vol × σ)
    (ht : t.1.Served ∧ Quiet v t.1) (hc : ListEnds v.geo v.ata.disk c) :
    ∃ r, listLoop visit (fuel + 1) c t.1 t.2 = .done r := by
  rw [listLoop]
  by_cases hend : Ends c
  · rw [if_neg fun hgo ↦ hend hgo.symm]
    exact ⟨_, rfl⟩
  · rw [if_pos (not_not.mp hend).symm]
    by_cases hnear : clusterToLba t.1.geo c < 2 ^ 28
    · obtain ⟨buf, v', hread, -, -, hlist⟩ := ht.1.listRound hend hnear visit t.2
      rw [ht.2.geo, ht.2.disk] at hlist
      rw [hread]
      dsimp only
      obtain ⟨mark, ctx, hmark⟩ : ∃ mark ctx,
          listEntries visit buf (v'.geo.sectorsPerCluster * 512 / 32) 0 t.2 = (mark, ctx) :=
        ⟨_, _, rfl⟩
      rw [hmark] at hlist ⊢
      obtain rfl : mark = true := hlist.mpr hc
      exact ⟨_, rfl⟩
    · have hlba : clusterToLba t.1.geo c < 2 ^ 32 := Nat.mod_lt _ (by norm_num)
      rw [← ht.2.geo] at hspc
      have hread : readCluster t.1 c = (false, blank, t.1) := by
        rw [readCluster, Vol.ataRead, Ata.ataRead, if_neg (by omega),
          if_pos (Ata.lba28_mask_ne (by omega) hlba)]
      rw [hread]
      exact ⟨_, rfl⟩

theorem listLoop_go (hg : v.geo.LinksReadable) (fuel c : ℕ) (t : Vol × σ)
    (ht : t.1.Served ∧ Quiet v t.1) (hc : ¬ListEnds v.geo v.ata.disk c) :
    ∃ t' : Vol × σ, (t'.1.Served ∧ Quiet v t'.1) ∧ listLoop visit (fuel + 1) c t.1 t.2 =
      listLoop visit fuel (link v.geo v.ata.disk c) t'.1 t'.2 := by
  have hend : ¬Ends c := fun hend ↦ hc (Or.inl hend)
  have hnear : clusterToLba t.1.geo c < 2 ^ 28 := by
    rw [ht.2.geo]
    by_contra hfar
    exact hc (Or.inr (Or.inl (by omega)))
  obtain ⟨buf, v₁, hread, hv₁, hquiet, hlist⟩ := ht.1.listRound hend hnear visit t.2
  rw [ht.2.geo, ht.2.disk] at hlist
  have hquiet := ht.2.trans hquiet
  obtain ⟨mark, ctx, hmark⟩ : ∃ mark ctx,
      listEntries visit buf (v₁.geo.sectorsPerCluster * 512 / 32) 0 t.2 = (mark, ctx) :=
    ⟨_, _, rfl⟩
  rw [hmark] at hlist
  obtain rfl : mark = false := Bool.eq_false_iff.mpr fun hm ↦ hc (hlist.mp hm)
  obtain ⟨v₂, hnext, hv₂, hquiet₂⟩ := hv₁.nextCluster (c := c) (by
    rw [hquiet.geo]
    exact hg.fatSector_lt c)
  rw [hquiet.geo, hquiet.disk] at hnext
  refine ⟨(v₂, ctx), ⟨hv₂, hquiet.trans hquiet₂⟩, ?_⟩
  rw [listLoop, if_pos (not_not.mp hend).symm, hread]
  dsimp only
  rw [hmark]
  dsimp only
  rw [hnext]

theorem listLoop_spin (hg : v.geo.LinksReadable) (hspc : 1 ≤ v.geo.sectorsPerCluster)
    (h : v.Served)
    (hnone : ∀ n, ¬ListEnds v.geo v.ata.disk ((link v.geo v.ata.disk)^[n] start)) (fuel : ℕ) :
    listLoop visit fuel start v ctx = .spin :=
  Outcome.loop_spin (L := fun fuel c (t : Vol × σ) ↦ listLoop visit fuel c t.1 t.2) (t := (v, ctx))
    (fun _ _ ↦ rfl) (listLoop_stop hspc) (listLoop_go hg) ⟨h, .refl v⟩ hnone fuel

end List

/-! ## The four loops -/

/-- On a drive without failures a loop along a directory ends exactly if its way along the links
comes to a place where it stops. -/
theorem directory_loops_end_iff {σ : Type} (h : v.Served) (hg : v.geo.LinksReadable)
    (hspc : 1 ≤ v.geo.sectorsPerCluster) (hmounted : v.mounted = true) (start : ℕ)
    (target : List UInt8) (visit : σ → Dirent → σ) (ctx : σ) :
    ((∃ r, fat32Listdir visit v start ctx = .done r) ↔
      ∃ n, ListEnds v.geo v.ata.disk ((link v.geo v.ata.disk)^[n] start)) ∧
    ((∃ r, searchDir v start target = .done r) ↔
      ∃ n, ScanEnds (Dirent.EndsSearch target) v.geo v.ata.disk
        ((link v.geo v.ata.disk)^[n] start)) ∧
    ((∃ r, findFreeDirentIn v start = .done r) ↔
      ∃ n, ScanEnds Dirent.EndsSlotSearch v.geo v.ata.disk
        ((link v.geo v.ata.disk)^[n] start)) ∧
    ((∃ r, dirIsEmpty v start = .done r) ↔
      ∃ n, ScanEnds Dirent.EndsEmptyTest v.geo v.ata.disk
        ((link v.geo v.ata.disk)^[n] start)) := by
  refine ⟨?_, scanDir_done_iff (searchVisit_isSome target) h hg start,
    scanDir_done_iff freeVisit_isSome h hg start, scanDir_done_iff emptyVisit_isSome h hg start⟩
  rw [fat32Listdir, if_pos hmounted]
  exact Outcome.loop_done_iff (L := fun fuel c (t : Vol × σ) ↦ listLoop visit fuel c t.1 t.2)
    (t := (v, ctx)) (fun _ _ ↦ rfl) (listLoop_stop hspc) (listLoop_go hg) (link_lt _ _)
    (by rw [walkFuel]; norm_num) ⟨h, .refl v⟩

/-- The clusters of the directory are a cycle, but there is an end mark in the first one. -/
theorem directory_loops_end_iff_cycle : ∃ r, searchDir cycleVol 3 (toShortName [0x41]) = .done r :=
  (directory_loops_end_iff (v := cycleVol) ⟨fun _ ↦ rfl, Or.inl rfl⟩ (by norm_num
    [Geometry.LinksReadable, cycleVol, smallVol, smallGeometry]) (le_refl 1) rfl 3
    (toShortName [0x41]) (fun u _ ↦ u) ()).2.1.mpr ⟨0, by decide +kernel⟩

/-- A root directory that links to itself and is full of entries `.`. -/
def selfVol : Vol :=
  smallVol 1 [(2, 2)] ((List.range 16).map fun i ↦ ((2, i), newDirent dotName fatAttrDirectory 2 0))

theorem selfVol_iterate (n : ℕ) : (link selfVol.geo selfVol.ata.disk)^[n] 2 = 2 :=
  Function.iterate_fixed (by decide +kernel) n

/-- None of the four loops ever ends there. -/
theorem directory_loops_spin : selfVol.Served ∧ ∀ fuel,
    listLoop (fun u _ ↦ u) fuel 2 selfVol () = .spin ∧
    scanLoop (searchVisit (toShortName [0x41])) none none fuel 2 selfVol = .spin ∧
    scanLoop freeVisit none none fuel 2 selfVol = .spin ∧
    scanLoop emptyVisit false true fuel 2 selfVol = .spin := by
  have hserved : selfVol.Served := ⟨fun _ ↦ rfl, Or.inl rfl⟩
  have hg : selfVol.geo.LinksReadable := by
    norm_num [Geometry.LinksReadable, selfVol, smallVol, smallGeometry]
  refine ⟨hserved, fun fuel ↦ ⟨?_, ?_, ?_, ?_⟩⟩
  · refine listLoop_spin hg (le_refl 1) hserved (fun n ↦ ?_) fuel
    rw [selfVol_iterate]
    decide +kernel
  · refine scanLoop_spin (searchVisit_isSome _) hserved hg (fun n ↦ ?_) fuel
    rw [selfVol_iterate]
    decide +kernel
  · refine scanLoop_spin freeVisit_isSome hserved hg (fun n ↦ ?_) fuel
    rw [selfVol_iterate]
    decide +kernel
  · refine scanLoop_spin emptyVisit_isSome hserved hg (fun n ↦ ?_) fuel
    rw [selfVol_iterate]
    decide +kernel

end MyOS.Fat32
