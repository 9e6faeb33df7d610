import MyOS.Fat32.Acts
import MyOS.Fat32.Spares

/-!
# Drives that fail

Any sector that is read or written may fail, and the driver goes on with what it has.  A link
that cannot be read ends its chain; an entry of the FAT may reach the first copies and not the
others, and the FAT cache is then out of date.  What can still be said of a call on such a
drive is said here, for volumes whose cached links can be trusted where it matters.
-/

namespace MyOS.Fat32

open Bytes

variable {v v' w : Vol} {S : Set ℕ} {c s x lba : ℕ} {l : List ℕ}

/-! ## Links -/

/-- A link comes from the cached sector, or from the disk if its sector can be read. -/
theorem nextCluster_any (v : Vol) (hlt : fatSector v.geo c < 2 ^ 28) :
    nextCluster v c =
      if fatSector v.geo c = v.fatSectorCachedLba then
        (v.fatSectorBuf.read32 (Word.mul c 4 % 512) &&& 0x0FFFFFFF, v)
      else if v.ata.ready v.ata.polls = true then
        ((sectorOf v.ata.disk (fatSector v.geo c) v.fatSectorBuf).read32 (Word.mul c 4 % 512) &&&
            0x0FFFFFFF,
          { v.onDisk 1 v.ata.disk with
            fatSectorBuf := sectorOf v.ata.disk (fatSector v.geo c) v.fatSectorBuf
            fatSectorCachedLba := fatSector v.geo c })
      else (0x0FFFFFFF, v.onDisk 1 v.ata.disk) := by
  rcases nextCluster_cases v c with ⟨hhit, hnext⟩ | ⟨hmiss, ok, buf, v₁, hread, hres⟩
  · rw [hnext, if_pos hhit]
  · rw [if_neg hmiss]
    rw [v.readSector_any hlt] at hread
    cases hready : v.ata.ready v.ata.polls with
    | false =>
        rw [hready] at hread
        cases hread
        rcases hres with ⟨-, hnext⟩ | ⟨hok, -⟩
        · rw [hnext]
          rfl
        · cases hok
    | true =>
        rw [hready] at hread
        cases hread
        rcases hres with ⟨hok, -⟩ | ⟨-, hnext⟩
        · cases hok
        · rw [hnext]
          rfl

/-! ## Volumes whose cache can be trusted -/

/-- A mounted volume, with the cached links of the clusters in `S` those on the disk. -/
structure Vol.Trusts (v : Vol) (S : Set ℕ) : Prop where
  mounted : v.mounted = true
  geo : v.geo.Consistent
  hint : v.allocHint ≤ v.geo.totalClusters + 2
  cache : ∀ c ∈ S, c < v.geo.totalClusters + 2 → fatSector v.geo c = v.fatSectorCachedLba →
    v.fatSectorBuf.read32 (Word.mul c 4 % 512) &&& 0x0FFFFFFF = v.image.fat c

theorem image_fat_of_sector (hg : v.geo.Consistent) (hc : c < v.geo.totalClusters + 2)
    {buf : Bytes} (hbuf : ∀ i < 512, buf i = v.ata.disk (512 * fatSector v.geo c + i)) :
    buf.read32 (Word.mul c 4 % 512) &&& 0x0FFFFFFF = v.image.fat c := by
  obtain ⟨hlba, -, -, haddr, hoff⟩ := hg.fatLba_zero hc
  rw [fatSector, hlba] at hbuf
  simp only [image_fat hc, ← haddr, read32, readLE_window hbuf hoff]

theorem Vol.Ready.trusts (h : v.Ready) (S : Set ℕ) : v.Trusts S := by
  refine ⟨h.mounted, h.geo, h.hint, fun c _ hc hcached ↦ ?_⟩
  obtain ⟨hlba, hlt, -⟩ := h.geo.fatLba_zero hc
  rcases h.cache with hno | ⟨-, hbuf⟩
  · rw [fatSector, hlba, hno, noLba] at hcached
    omega
  · rw [← hcached] at hbuf
    exact image_fat_of_sector h.geo hc hbuf

namespace Vol.Trusts

variable {T : Set ℕ}

theorem mono (h : v.Trusts S) (hT : T ⊆ S) : v.Trusts T :=
  ⟨h.mounted, h.geo, h.hint, fun c hc ↦ h.cache c (hT hc)⟩

/-- Without a cached sector everything can be trusted. -/
theorem of_noLba (h : v.Trusts S) (hkeep : Keeps v v') (hhint : v'.allocHint = v.allocHint)
    (hno : v'.fatSectorCachedLba = noLba) (T : Set ℕ) : v'.Trusts T := by
  refine ⟨hkeep.mounted.trans h.mounted, hkeep.geo ▸ h.geo, ?_, fun c _ hc hcached ↦ ?_⟩
  · rw [hhint, hkeep.geo]
    exact h.hint
  · rw [hkeep.geo] at hc hcached
    obtain ⟨hlba, hlt, -⟩ := h.geo.fatLba_zero hc
    rw [fatSector, hlba, hno, noLba] at hcached
    omega

/-- A change to the disk that keeps the links. -/
theorem congr (h : v.Trusts S) (hkeep : Keeps v v') (hhint : v'.allocHint = v.allocHint)
    (hbuf : v'.fatSectorBuf = v.fatSectorBuf)
    (hlba : v'.fatSectorCachedLba = v.fatSectorCachedLba)
    (hfat : ∀ c ∈ S, v'.image.fat c = v.image.fat c) : v'.Trusts S := by
  refine ⟨hkeep.mounted.trans h.mounted, hkeep.geo ▸ h.geo, ?_, fun c hS hc hcached ↦ ?_⟩
  · rw [hhint, hkeep.geo]
    exact h.hint
  · rw [hkeep.geo] at hc
    rw [hkeep.geo, hlba] at hcached
    rw [hbuf, h.cache c hS hc hcached, hfat c hS]

theorem sector_lt (h : v.Trusts S) (hc : c < v.geo.totalClusters + 2) :
    fatSector v.geo c < 2 ^ 28 := by
  obtain ⟨hlba, hlt, -⟩ := h.geo.fatLba_zero hc
  rwa [fatSector, hlba]

/-- The link of a trusted cluster is the one on the disk, or its sector cannot be read. -/
theorem nextCluster (h : v.Trusts S) (hc : c < v.geo.totalClusters + 2) :
    ∃ x v', MyOS.Fat32.nextCluster v c = (x, v') ∧ Quiet v v' ∧ Later v v' ∧ v'.Trusts S ∧
      (c ∈ S → x = v.image.fat c ∧ ¬Missed v v' ∨ x = 0x0FFFFFFF ∧ Missed v v') := by
  have hquiet := nextCluster_quiet v c
  have hlater := nextCluster_later v c
  have hnext := nextCluster_any v (h.sector_lt hc)
  refine ⟨(MyOS.Fat32.nextCluster v c).1, (MyOS.Fat32.nextCluster v c).2, rfl, hquiet, hlater, ?_⟩
  by_cases hhit : fatSector v.geo c = v.fatSectorCachedLba
  · rw [if_pos hhit] at hnext
    rw [hnext]
    exact ⟨h, fun hS ↦ Or.inl ⟨h.cache c hS hc hhit, not_missed_refl v⟩⟩
  · rw [if_neg hhit] at hnext
    cases hready : v.ata.ready v.ata.polls with
    | false =>
        rw [if_neg (by simp [hready])] at hnext
        rw [hnext]
        exact ⟨h.congr ⟨rfl, rfl, rfl⟩ rfl rfl rfl fun _ _ ↦ rfl,
          fun _ ↦ Or.inr ⟨rfl, (missed_read v).mpr hready⟩⟩
    | true =>
        rw [if_pos hready] at hnext
        rw [hnext]
        have hbuf := sectorOf_apply v.ata.disk (fatSector v.geo c) v.fatSectorBuf
        refine ⟨⟨h.mounted, h.geo, h.hint, fun c' _ hc' hcached ↦ ?_⟩, fun _ ↦ Or.inl ⟨?_, ?_⟩⟩
        · have hcached : fatSector v.geo c' = fatSector v.geo c := hcached
          rw [← hcached] at hbuf ⊢
          exact image_fat_of_sector h.geo hc' hbuf
        · exact image_fat_of_sector h.geo hc hbuf
        · intro hmissed
          rw [(missed_read v).mp hmissed] at hready
          cases hready

/-- An entry of the FAT that is set is set on the disk or not, and the other links can be
trusted as before. -/
theorem setFatEntry (h : v.Trusts S) (hc : c < v.geo.totalClusters + 2) (hx : x < 2 ^ 28) :
    ∃ ok v', MyOS.Fat32.setFatEntry v c x = (ok, v') ∧ Keeps v v' ∧ Later v v' ∧
      v'.allocHint = v.allocHint ∧ v'.Trusts (S \ {c}) ∧
      (v.fatSectorCachedLba = noLba → v'.fatSectorCachedLba = noLba) ∧
      (v'.image = v.image ∨ v'.image = v.image.setFat c x) ∧
      (ok = true → v'.fatSectorCachedLba = noLba ∧ v'.image = v.image.setFat c x) := by
  obtain ⟨hlater, hkeep, hhint⟩ := setFatEntry_keeps v c x
  obtain ⟨k, m, hk, hcopies, -⟩ := setFatCopies_any h.geo.fatsInRange
    (h.geo.hasEntry hc) x v.geo.numFats 0 (Nat.zero_add _).le
  have himage : (v.onDisk m (putLinks v.geo c x k 0 v.ata.disk)).image =
      if k = 0 then v.image else v.image.setFat c x := by
    rw [Vol.onDisk_image]
    cases k with
    | zero => rfl
    | succ k =>
        rw [imageOf_putLinks h.geo hc hk, Nat.mod_eq_of_lt hx]
        rfl
  by_cases hall : k = v.geo.numFats
  · have hset : MyOS.Fat32.setFatEntry v c x = (true,
        { v.onDisk m (putLinks v.geo c x k 0 v.ata.disk) with fatSectorCachedLba := noLba }) := by
      simp only [MyOS.Fat32.setFatEntry, hcopies, decide_eq_true hall]
    rw [hset] at hlater hkeep hhint
    have hpos := h.geo.fats_pos
    rw [if_neg (by omega)] at himage
    exact ⟨_, _, hset, hkeep, hlater, hhint, h.of_noLba hkeep hhint rfl _, fun _ ↦ rfl,
      Or.inr himage, fun _ ↦ ⟨rfl, himage⟩⟩
  · have hset : MyOS.Fat32.setFatEntry v c x =
        (false, v.onDisk m (putLinks v.geo c x k 0 v.ata.disk)) := by
      simp only [MyOS.Fat32.setFatEntry, hcopies, decide_eq_false hall]
    rw [hset] at hlater hkeep hhint
    refine ⟨_, _, hset, hkeep, hlater, hhint, ?_, fun hno ↦ hno, ?_, fun hok ↦ by cases hok⟩
    · refine (h.mono Set.sdiff_subset).congr hkeep hhint rfl rfl fun c' hc' ↦ ?_
      rw [himage]
      split_ifs
      · rfl
      · exact Function.update_of_ne hc'.2 _ _
    · rw [himage]
      split_ifs
      · exact Or.inl rfl
      · exact Or.inr rfl

end Vol.Trusts

/-! ## Writing to the data area -/

/-- A change within one cluster. -/
theorem imageOf_congr {g : Geometry} {disk disk' : Bytes} (hg : g.Consistent) (hlo : 2 ≤ c)
    (hsame : ∀ i, i < clusterAddr g c ∨ clusterAddr g c + clusterBytes g ≤ i → disk' i = disk i) :
    (imageOf g disk').fat = (imageOf g disk).fat ∧
      ∀ c' ≠ c, (imageOf g disk').data c' = (imageOf g disk).data c' := by
  have hdata := Geometry.Consistent.data_le_cluster (g := g) (c := c)
  simp only [imageOf]
  constructor
  · funext c'
    by_cases hc' : c' < g.totalClusters + 2
    · obtain ⟨hend, hle⟩ := hg.fat_lt_data hg.fats_pos hc'
      rw [if_pos hc', if_pos hc', read32, readLE_congr fun i _ hi ↦ hsame i (by omega)]
    · rw [if_neg hc', if_neg hc']
  · intro c' hne
    funext i
    by_cases hin : 2 ≤ c' ∧ c' < g.totalClusters + 2 ∧ i < clusterBytes g
    · rw [if_pos hin, if_pos hin]
      apply hsame
      rcases lt_or_gt_of_ne hne with hlt | hgt
      · have := Geometry.Consistent.cluster_sep (g := g) hin.1 hlt
        omega
      · have := Geometry.Consistent.cluster_sep (g := g) hlo hgt
        omega
    · rw [if_neg hin, if_neg hin]

/-- What a write to cluster `c` leaves as it was. -/
structure Touched (v v' : Vol) (c : ℕ) : Prop extends Keeps v v' where
  later : Later v v'
  hint : v'.allocHint = v.allocHint
  buf : v'.fatSectorBuf = v.fatSectorBuf
  lba : v'.fatSectorCachedLba = v.fatSectorCachedLba
  fat : v'.image.fat = v.image.fat
  data : ∀ c' ≠ c, v'.image.data c' = v.image.data c'

namespace Touched

theorem trusts (h : Touched v v' c) (hv : v.Trusts S) : v'.Trusts S :=
  hv.congr h.toKeeps h.hint h.buf h.lba fun c' _ ↦ congrFun h.fat c'

theorem agree {O : Set ℕ} (h : Touched v v' c) (hc : c ∉ O) : Image.Agree O v.image v'.image := by
  have hgeo := h.geo
  refine ⟨?_, ?_, ?_, fun c' _ ↦ congrFun h.fat c', fun c' hc' ↦ h.data c' ?_⟩
  · simp only [Vol.image, imageOf, hgeo]
  · simp only [Vol.image, imageOf, hgeo]
  · simp only [Vol.image, imageOf, hgeo]
  · rintro rfl
    exact hc hc'

theorem of_disk (hg : v.geo.Consistent) (hlo : 2 ≤ c) (n : ℕ) {disk : Bytes}
    (hsame : ∀ i, i < clusterAddr v.geo c ∨ clusterAddr v.geo c + clusterBytes v.geo ≤ i →
      disk i = v.ata.disk i) : Touched v (v.onDisk n disk) c := by
  obtain ⟨hfat, hdata⟩ := imageOf_congr hg hlo hsame
  exact ⟨⟨rfl, rfl, rfl⟩, ⟨rfl, rfl, rfl, Nat.le_add_right _ n⟩, rfl, rfl, rfl, hfat, hdata⟩

end Touched

/-- A cluster is written, with a failure maybe only in part. -/
theorem writeCluster_any (hg : v.geo.Consistent) (hlo : 2 ≤ c)
    (hhi : c < v.geo.totalClusters + 2) (buf : Bytes) :
    ∃ ok v', v.ataWrite (clusterToLba v.geo c) v.geo.sectorsPerCluster buf = (ok, v') ∧
      Touched v v' c ∧
      (ok = true → v'.image = v.image.patch c 0 (clusterBytes v.geo) buf) := by
  have hlba := hg.clusterToLba_eq hlo hhi
  have haddr : 512 * clusterToLba v.geo c = clusterAddr v.geo c := by rw [hlba, clusterAddr]
  refine ⟨(v.ataWrite (clusterToLba v.geo c) v.geo.sectorsPerCluster buf).1,
    (v.ataWrite (clusterToLba v.geo c) v.geo.sectorsPerCluster buf).2, rfl, ?_, fun hok ↦ ?_⟩
  · have hsame : ∀ i, i < clusterAddr v.geo c ∨ clusterAddr v.geo c + clusterBytes v.geo ≤ i →
        (v.ataWrite (clusterToLba v.geo c) v.geo.sectorsPerCluster buf).2.ata.disk i =
          v.ata.disk i := by
      intro i hi
      refine Ata.ataWrite_disk _ _ buf v.ata ?_
      rw [Nat.mul_add, haddr]
      exact hi
    obtain ⟨hfat, hdata⟩ := imageOf_congr hg hlo hsame
    exact ⟨⟨rfl, rfl, rfl⟩, (ataWrite_driven v _ _ buf).later, rfl, rfl, rfl, hfat, hdata⟩
  · have hdisk : (v.ataWrite (clusterToLba v.geo c) v.geo.sectorsPerCluster buf).2.ata.disk =
        v.ata.disk.blit (clusterAddr v.geo c + 0) (clusterBytes v.geo) buf := by
      rw [Nat.add_zero, ← haddr]
      exact Ata.ataWrite_true _ _ buf v.ata hok
    have hfits : 0 + clusterBytes v.geo ≤ clusterBytes v.geo := (Nat.zero_add _).le
    have hpatch := imageOf_patch hg v.ata.disk buf 0 hlo hhi hfits
    rw [← hdisk] at hpatch
    exact hpatch

theorem patchSector_any (v : Vol) (hlba : lba < 2 ^ 28) {off n : ℕ} (hoff : off + n ≤ 512)
    (src : Bytes) :
    patchSector v lba off n src = (false, v.onDisk 1 v.ata.disk) ∨
      patchSector v lba off n src = (false, v.onDisk 2 v.ata.disk) ∨
      patchSector v lba off n src =
        (true, v.onDisk 2 (v.ata.disk.blit (512 * lba + off) n src)) := by
  have hread := v.readSector_any hlba blank
  cases hready : v.ata.ready v.ata.polls with
  | false =>
      rw [hready] at hread
      refine Or.inl ?_
      simp only [patchSector, hread]
  | true =>
      rw [hready, if_pos rfl] at hread
      have hwrite := v.patchSector_any hlba hoff blank src
      simp only [patchSector, hread, hwrite]
      cases v.ata.ready (v.ata.polls + 1) with
      | false => exact Or.inr (Or.inl rfl)
      | true => exact Or.inr (Or.inr rfl)

/-- A slot is changed, or left as it is. -/
theorem patchSlot_any (hg : v.geo.Consistent) {p : Pos} (hp : v.HasSlot p) {n : ℕ} (hn : n ≤ 32)
    (src : Bytes) :
    ∃ ok v', patchSector v (v.lookAt p).lba (v.lookAt p).offset n src = (ok, v') ∧
      Touched v v' p.1 ∧ (ok = true → v'.image = v.image.patch p.1 (32 * p.2) n src) ∧
      (ok = false → v'.image = v.image) := by
  obtain ⟨-, hlt, haddr, hoff⟩ := lookAt_addr hg hp
  have hfits := HasSlot.fits hp
  have hsame : ∀ k, Touched v (v.onDisk k v.ata.disk) p.1 :=
    fun k ↦ .of_disk hg hp.lo k fun _ _ ↦ rfl
  rcases patchSector_any v hlt (show (v.lookAt p).offset + n ≤ 512 by omega) src with
    hres | hres | hres
  · exact ⟨false, _, hres, hsame 1, nofun, fun _ ↦ rfl⟩
  · exact ⟨false, _, hres, hsame 2, nofun, fun _ ↦ rfl⟩
  · rw [haddr] at hres
    refine ⟨true, _, hres, .of_disk hg hp.lo 2 fun i hi ↦ ?_, fun _ ↦ ?_, nofun⟩
    · exact blit_apply_of_notMem (by omega)
    · exact imageOf_patch hg _ _ _ hp.lo hp.hi (by omega)

theorem writeDirent_any (hg : v.geo.Consistent) {p : Pos} (hp : v.HasSlot p) (e : Dirent) :
    ∃ ok v', writeDirent v (v.lookAt p).lba (v.lookAt p).offset e = (ok, v') ∧ Touched v v' p.1 ∧
      (ok = true → v'.image = v.image.patch p.1 (32 * p.2) 32 e) ∧
      (ok = false → v'.image = v.image) :=
  patchSlot_any hg hp (le_refl 32) e

/-! ## Allocating and releasing -/

/-- An allocation takes a cluster outside `S`, or it fails; it may then have marked one. -/
def AllocTried (S : Set ℕ) (v : Vol) (c : ℕ) (v' : Vol) : Prop :=
  Keeps v v' ∧ Later v v' ∧
    (c = 0 ∧ v'.Trusts S ∧ Image.Agree S v.image v'.image ∨
      2 ≤ c ∧ c < v.geo.totalClusters + 2 ∧ c ∉ S ∧ v'.Trusts Set.univ ∧
        v'.fatSectorCachedLba = noLba ∧ v'.image = v.image.setFat c 0x0FFFFFFF)

theorem allocLoop_any (h : v.Trusts S) (hS : ∀ c ∈ S, v.image.fat c ≠ 0) (hlo : 2 ≤ v.allocHint)
    (n i : ℕ) (hn : n + i ≤ v.geo.totalClusters) :
    ∃ c v', allocLoop n i v = (c, v') ∧ AllocTried S v c v' := by
  induction n generalizing i v with
  | zero => exact ⟨0, v, rfl, .refl v, .refl v, Or.inl ⟨rfl, h, .refl S _⟩⟩
  | succ n ih =>
      have hsmall := h.geo.total_small
      have hcand := candidate_eq (i := i) hsmall h.hint (by omega)
      obtain ⟨hclo, hchi⟩ := candidate_range (i := i) hlo h.hint (by omega)
      obtain ⟨x, v₁, hnext, hquiet, hlater, h₁, hx⟩ := h.nextCluster hchi
      simp only [allocLoop, hcand, hnext]
      generalize candidate v.geo.totalClusters v.allocHint i = c at *
      by_cases hfree : x = 0
      · have hcS : c ∉ S := by
          intro hcS
          rcases hx hcS with ⟨hfat, -⟩ | ⟨hend, -⟩
          · exact hS c hcS (hfat.symm.trans hfree)
          · omega
        have hchi₁ : c < v₁.geo.totalClusters + 2 := by rwa [hquiet.geo]
        obtain ⟨ok, v₂, hset, hkeep, hlater₂, hhint, h₂, -, himage, hok⟩ :=
          h₁.setFatEntry (x := 0x0FFFFFFF) hchi₁ (by norm_num)
        simp only [hfree, hset, if_true]
        rw [hquiet.image] at himage hok
        have hkeeps := hquiet.toKeeps.trans hkeep
        cases ok with
        | false =>
            refine ⟨0, v₂, rfl, hkeeps, hlater.trans hlater₂, Or.inl ⟨rfl, ?_, ?_⟩⟩
            · rwa [Set.sdiff_singleton_eq_self hcS] at h₂
            · rcases himage with himage | himage
              · rw [himage]
                exact .refl S _
              · rw [himage]
                exact .setFat hcS _
        | true =>
            obtain ⟨hno, himage⟩ := hok rfl
            rw [badCluster] at hsmall
            have hhint' : Word.add c 1 ≤ v₂.geo.totalClusters + 2 := by
              rw [hkeeps.geo, Word.add_eq (by omega)]
              omega
            have htrust : Vol.Trusts { v₂ with allocHint := Word.add c 1 } Set.univ :=
              ⟨h₂.mounted, h₂.geo, hhint', (h₂.of_noLba (.refl v₂) rfl hno Set.univ).cache⟩
            have hall := hlater.trans hlater₂
            exact ⟨c, _, rfl, ⟨hkeeps.geo, hkeeps.cwd, hkeeps.mounted⟩,
              ⟨hall.geo, hall.mounted, hall.ready, hall.polls⟩,
              Or.inr ⟨hclo, hchi, hcS, htrust, hno, himage⟩⟩
      · rw [if_neg hfree]
        have hS₁ : ∀ c ∈ S, v₁.image.fat c ≠ 0 := by rwa [hquiet.image]
        obtain ⟨c', v', hloop, hkeep, hlater', hres⟩ := ih h₁ hS₁ (by rwa [hquiet.hint]) (i + 1)
          (by rw [hquiet.geo]; omega)
        rw [hquiet.image, hquiet.geo] at hres
        exact ⟨c', v', hloop, hquiet.toKeeps.trans hkeep, hlater.trans hlater', hres⟩

theorem allocCluster_any (h : v.Trusts S) (hS : ∀ c ∈ S, v.image.fat c ≠ 0) :
    ∃ c v', allocCluster v = (c, v') ∧ AllocTried S v c v' := by
  rw [allocCluster]
  by_cases hzero : v.geo.totalClusters = 0
  · rw [if_pos hzero]
    exact ⟨0, v, rfl, .refl v, .refl v, Or.inl ⟨rfl, h, .refl S _⟩⟩
  · rw [if_neg hzero]
    by_cases hhint : v.allocHint < 2
    · simp only [if_pos hhint]
      have h₁ : Vol.Trusts { v with allocHint := 2 } S :=
        ⟨h.mounted, h.geo, by simp only; omega, h.cache⟩
      obtain ⟨c, v', hloop, hkeep, hlater, hres⟩ := allocLoop_any h₁ hS (le_refl 2)
        v.geo.totalClusters 0 (le_refl _)
      exact ⟨c, v', hloop, ⟨hkeep.geo, hkeep.cwd, hkeep.mounted⟩,
        ⟨hlater.geo, hlater.mounted, hlater.ready, hlater.polls⟩, hres⟩
    · simp only [if_neg hhint]
      exact allocLoop_any h hS (by omega) v.geo.totalClusters 0 (le_refl _)

/-- What the release of a chain `l` leaves as it was. -/
structure Released (S : Set ℕ) (v v' : Vol) (l : List ℕ) : Prop extends Keeps v v' where
  later : Later v v'
  trusts : v'.Trusts (S \ {c | c ∈ l})
  agree : Image.Agree {c | c ∉ l} v.image v'.image

theorem Released.refl (h : v.Trusts S) (l : List ℕ) : Released S v v l :=
  ⟨.refl v, .refl v, h.mono Set.sdiff_subset, .refl _ _⟩

theorem freeLoop_any (l : List ℕ) {fuel : ℕ} (h : v.Trusts S) (hS : ∀ c ∈ l, c ∈ S)
    (hl : v.image.Trail s l) (hnodup : l.Nodup) (hfuel : l.length < fuel) :
    ∃ v', freeLoop fuel s v = .done v' ∧ Released S v v' l := by
  induction l generalizing s v fuel S with
  | nil =>
      have hz : isEoc s = true := hl
      obtain ⟨fuel, rfl⟩ : ∃ k, fuel = k + 1 := ⟨fuel - 1, by simp at hfuel; omega⟩
      refine ⟨v, ?_, .refl h []⟩
      rw [freeLoop, if_neg (by simp [hz])]
  | cons c l ih =>
      obtain ⟨rfl, hlo, hhi, heoc, hrest⟩ := hl
      obtain ⟨fuel, rfl⟩ : ∃ k, fuel = k + 1 := ⟨fuel - 1, by simp at hfuel; omega⟩
      have hfuel : l.length < fuel := Nat.lt_of_succ_lt_succ hfuel
      obtain ⟨hnotMem, hnodup⟩ := List.nodup_cons.mp hnodup
      obtain ⟨x, v₁, hnext, hquiet, hlater₁, h₁, hx⟩ := h.nextCluster hhi
      have hhi₁ : c < v₁.geo.totalClusters + 2 := by rwa [hquiet.geo]
      obtain ⟨ok, v₂, hset, hkeep, hlater₂, -, h₂, -, himage, -⟩ := h₁.setFatEntry hhi₁ (x := 0)
        (by norm_num)
      rw [hquiet.image] at himage
      have hkeeps := hquiet.toKeeps.trans hkeep
      have hlater := hlater₁.trans hlater₂
      have hagree : Image.Agree {x | x ≠ c} v.image v₂.image := by
        rcases himage with himage | himage
        · rw [himage]
          exact .refl _ _
        · rw [himage]
          exact .setFat (by simp) 0
      have hstep : freeLoop (fuel + 1) c v = freeLoop fuel x v₂ := by
        rw [freeLoop, if_pos ⟨hlo, by simp [heoc]⟩]
        simp only [hnext, hset]
      have hfinish : ∀ v', Released (S \ {c}) v₂ v' l → Released S v v' (c :: l) := by
        intro v' hrel
        refine ⟨hkeeps.trans hrel.toKeeps, hlater.trans hrel.later, hrel.trusts.mono ?_, ?_⟩
        · rintro y ⟨hy, hyl⟩
          simp only [Set.mem_ofPred_eq, List.mem_cons, not_or] at hyl
          exact ⟨⟨hy, hyl.1⟩, hyl.2⟩
        · refine (hagree.mono fun y hy ↦ ?_).trans (hrel.agree.mono fun y hy ↦ ?_)
          · exact fun hyc ↦ hy (hyc ▸ List.mem_cons_self)
          · exact fun hyl ↦ hy (List.mem_cons_of_mem c hyl)
      rw [hstep]
      rcases hx (hS c List.mem_cons_self) with ⟨rfl, -⟩ | ⟨rfl, -⟩
      · obtain ⟨v', hloop, hrel⟩ := ih h₂ (fun y hy ↦ ⟨hS y (List.mem_cons_of_mem c hy),
            fun hyc ↦ hnotMem (hyc ▸ hy)⟩)
          (hrest.congr hagree.total fun y hy ↦ hagree.fat y fun hyc ↦ hnotMem (hyc ▸ hy)) hnodup
          hfuel
        exact ⟨v', hloop, hfinish v' hrel⟩
      · obtain ⟨fuel, rfl⟩ : ∃ k, fuel = k + 1 := ⟨fuel - 1, by omega⟩
        refine ⟨v₂, ?_, hfinish v₂ (.refl h₂ l)⟩
        rw [freeLoop, if_neg (by decide)]

theorem freeChain_any (h : v.Trusts S) (hl : v.image.Chain s l) (hS : ∀ c ∈ l, c ∈ S) :
    ∃ v', freeChain v s = .done v' ∧ Released S v v' l := by
  have hsmall := h.geo.total_small
  exact freeLoop_any l h hS (hl.trail hsmall) hl.nodup (hl.length_lt_walkFuel hsmall)

/-! ## Scanning directories -/

theorem links_trusts (S : Set ℕ) : Links (fun v ↦ v.Trusts S) S where
  geo := fun _ h ↦ h.geo
  read := fun _ h ↦ h.congr ⟨rfl, rfl, rfl⟩ rfl rfl rfl fun _ _ ↦ rfl
  next := fun _ _ h hc ↦ h.nextCluster hc

/-- A search that finds something has found the entry; one that finds nothing may have missed
it. -/
theorem searchDir_any (h : v.Trusts S) (hl : v.image.Chain s l) (hS : ∀ c ∈ l, c ∈ S)
    (hends : v.image.Ended l) (target : List UInt8) :
    ∃ r v', searchDir v s target = .done (r, v') ∧ Quiet v v' ∧ Later v v' ∧ v'.Trusts S ∧
      (r = none ∧ ((∀ p ∈ v.image.slotsOf l, (v.image.entry p).Live →
          (v.image.entry p).name ≠ target) ∨ Missed v v') ∨
        ¬Missed v v' ∧ ∃ p ∈ v.image.slotsOf l, r = some (v.lookAt p) ∧ (v.image.entry p).Live ∧
          (v.image.entry p).name = target) := by
  obtain ⟨r, v', hscan, hquiet, hlater, h', hr⟩ := scanDir_any (searchVisit target) none none
    (links_trusts S) h hl hS
  refine ⟨r, v', hscan, hquiet, hlater, h', ?_⟩
  rcases hr with ⟨rfl, hno⟩ | ⟨hnone, hmissed⟩
  · exact (search_result hends target).imp (fun hnone ↦ ⟨hnone.1, Or.inl hnone.2⟩)
      fun hfound ↦ ⟨hno, hfound⟩
  · exact Or.inl ⟨hnone.elim id id, Or.inr hmissed⟩

theorem findFreeDirentIn_any (h : v.Trusts S) (hl : v.image.Chain s l) (hS : ∀ c ∈ l, c ∈ S) :
    ∃ r v', findFreeDirentIn v s = .done (r, v') ∧ Quiet v v' ∧ Later v v' ∧ v'.Trusts S ∧
      (r = none ∨ ∃ pre p post, r = some (v.lookAt p) ∧ v.image.slotsOf l = pre ++ p :: post ∧
        ¬(v.image.entry p).Used ∧ ∀ q ∈ pre, (v.image.entry q).Used) := by
  obtain ⟨r, v', hscan, hquiet, hlater, h', hr⟩ := scanDir_any freeVisit none none (links_trusts S)
    h hl hS
  refine ⟨r, v', hscan, hquiet, hlater, h', ?_⟩
  rcases hr with ⟨rfl, -⟩ | ⟨hnone, -⟩
  · exact (free_result v l).imp_left And.left
  · exact Or.inl (hnone.elim id id)

end MyOS.Fat32
