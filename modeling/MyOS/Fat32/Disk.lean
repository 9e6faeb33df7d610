import MyOS.Fat32.Edit

/-!
# The FAT and the clusters on the disk

The image of a volume is read off its sectors: the links from the first copy of the FAT and
the contents of the clusters from the data area.  On a drive without failures each of the
driver's sector functions has one effect on the image, and none on anything else.
-/

namespace MyOS.Fat32

open Bytes

/-- The areas that the boot sector describes do not overlap and are within reach. -/
structure Geometry.Consistent (g : Geometry) : Prop where
  spc_pos : 1 ≤ g.sectorsPerCluster
  spc_le : g.sectorsPerCluster ≤ 128
  fats_pos : 1 ≤ g.numFats
  data_start : g.dataStartLba = g.fatStartLba + g.numFats * g.fatSize
  fat_covers : 4 * (g.totalClusters + 2) ≤ 512 * g.fatSize
  in_lba28 : g.dataStartLba + g.totalClusters * g.sectorsPerCluster ≤ 2 ^ 28

/-- The copies of the FAT can be addressed. -/
structure Geometry.FatsInRange (g : Geometry) : Prop where
  fats_pos : 1 ≤ g.numFats
  in_lba28 : g.fatStartLba + g.numFats * g.fatSize ≤ 2 ^ 28

/-- The FAT has an entry `c`; a link has 28 bits. -/
def Geometry.HasEntry (g : Geometry) (c : ℕ) : Prop := c < 128 * g.fatSize ∧ c < 2 ^ 28

def clusterBytes (g : Geometry) : ℕ := 512 * g.sectorsPerCluster

/-- The address of entry `c` in copy `f` of the FAT. -/
def fatAddr (g : Geometry) (f c : ℕ) : ℕ := 512 * (g.fatStartLba + f * g.fatSize) + 4 * c

def clusterAddr (g : Geometry) (c : ℕ) : ℕ :=
  512 * (g.dataStartLba + (c - 2) * g.sectorsPerCluster)

def imageOf (g : Geometry) (disk : Bytes) : Image where
  total := g.totalClusters
  slots := 16 * g.sectorsPerCluster
  root := g.rootCluster
  fat c := if c < g.totalClusters + 2 then disk.read32 (fatAddr g 0 c) % 2 ^ 28 else 0
  data c i :=
    if 2 ≤ c ∧ c < g.totalClusters + 2 ∧ i < clusterBytes g then disk (clusterAddr g c + i) else 0

def Vol.image (v : Vol) : Image := imageOf v.geo v.ata.disk

theorem Vol.image_congr {v v' : Vol} (hgeo : v'.geo = v.geo) (hdisk : v'.ata.disk = v.ata.disk) :
    v'.image = v.image := by
  rw [Vol.image, Vol.image, hgeo, hdisk]

/-- What holds of the mount state and of the drive between two calls. -/
structure Vol.Ready (v : Vol) : Prop where
  mounted : v.mounted = true
  geo : v.geo.Consistent
  reliable : v.ata.Reliable
  hint : v.allocHint ≤ v.geo.totalClusters + 2
  cache : v.fatSectorCachedLba = noLba ∨ v.fatSectorCachedLba < v.geo.dataStartLba ∧
    ∀ i < 512, v.fatSectorBuf i = v.ata.disk (512 * v.fatSectorCachedLba + i)

/-- Going from `v` to `v'` left the mount state alone, the allocation hint and the FAT cache
excepted. -/
structure Keeps (v v' : Vol) : Prop where
  geo : v'.geo = v.geo
  cwd : v'.cwdCluster = v.cwdCluster
  mounted : v'.mounted = v.mounted

/-- `v'` is `v` after reads: at most the FAT cache has changed. -/
structure Quiet (v v' : Vol) : Prop extends Keeps v v' where
  hint : v'.allocHint = v.allocHint
  disk : v'.ata.disk = v.ata.disk

namespace Keeps

variable {u v w : Vol}

theorem refl (v : Vol) : Keeps v v := ⟨rfl, rfl, rfl⟩

theorem trans (h : Keeps u v) (h' : Keeps v w) : Keeps u w :=
  ⟨h'.geo.trans h.geo, h'.cwd.trans h.cwd, h'.mounted.trans h.mounted⟩

end Keeps

namespace Quiet

variable {u v w : Vol}

theorem refl (v : Vol) : Quiet v v := ⟨.refl v, rfl, rfl⟩

theorem trans (h : Quiet u v) (h' : Quiet v w) : Quiet u w :=
  ⟨h.toKeeps.trans h'.toKeeps, h'.hint.trans h.hint, h'.disk.trans h.disk⟩

theorem image (h : Quiet u v) : v.image = u.image := Vol.image_congr h.geo h.disk

end Quiet

/-- `v'` is the volume `v` some time later. -/
structure Later (v v' : Vol) : Prop where
  geo : v'.geo = v.geo
  mounted : v'.mounted = v.mounted
  ready : v'.ata.ready = v.ata.ready
  polls : v.ata.polls ≤ v'.ata.polls

/-- A poll between `v` and `v'` has failed. -/
def Missed (v v' : Vol) : Prop :=
  ∃ k, v.ata.polls ≤ k ∧ k < v'.ata.polls ∧ v.ata.ready k = false

section Polls

variable {u v w : Vol}

theorem Later.refl (v : Vol) : Later v v := ⟨rfl, rfl, rfl, le_refl _⟩

theorem Later.trans (h : Later u v) (h' : Later v w) : Later u w :=
  ⟨h'.geo.trans h.geo, h'.mounted.trans h.mounted, h'.ready.trans h.ready, h.polls.trans h'.polls⟩

theorem not_missed_refl (v : Vol) : ¬Missed v v := by
  rintro ⟨k, hlo, hhi, -⟩
  exact absurd hhi (not_lt.mpr hlo)

/-- A poll that fails does so before a point of the run or behind it. -/
theorem missed_iff (h : Later u v) (h' : Later v w) : Missed u w ↔ Missed u v ∨ Missed v w := by
  constructor
  · rintro ⟨k, hlo, hhi, hready⟩
    rcases lt_or_ge k v.ata.polls with hk | hk
    · exact Or.inl ⟨k, hlo, hk, hready⟩
    · exact Or.inr ⟨k, hk, hhi, h.ready ▸ hready⟩
  · rintro (⟨k, hlo, hhi, hready⟩ | ⟨k, hlo, hhi, hready⟩)
    · exact ⟨k, hlo, hhi.trans_le h'.polls, hready⟩
    · exact ⟨k, h.polls.trans hlo, hhi, h.ready ▸ hready⟩

theorem Vol.Ready.not_missed (h : v.Ready) : ¬Missed v w := by
  rintro ⟨k, -, -, hready⟩
  rw [h.reliable k] at hready
  cases hready

end Polls

/-! ## Addresses -/

/-- The sector of entry `c` in copy `f` of the FAT, and its place there. -/
theorem Geometry.FatsInRange.fatLba_eq {g : Geometry} {c f : ℕ} (hg : g.FatsInRange)
    (hf : f < g.numFats) (hc : g.HasEntry c) :
    Word.add (Word.add g.fatStartLba (Word.mul f g.fatSize)) (Word.mul c 4 / 512) =
      g.fatStartLba + f * g.fatSize + 4 * c / 512 ∧
    g.fatStartLba + f * g.fatSize + 4 * c / 512 < 2 ^ 28 ∧
    512 * (g.fatStartLba + f * g.fatSize + 4 * c / 512) + Word.mul c 4 % 512 = fatAddr g f c ∧
    Word.mul c 4 % 512 + 4 ≤ 512 := by
  obtain ⟨hc, hsmall⟩ := hc
  have hlba := hg.in_lba28
  have hcopies : (f + 1) * g.fatSize ≤ g.numFats * g.fatSize := Nat.mul_le_mul_right _ hf
  rw [Nat.succ_mul] at hcopies
  rw [fatAddr, Word.mul_eq (a := c) (by omega), Nat.mul_comm c 4, Word.mul_eq (by omega),
    Word.add_eq (a := g.fatStartLba) (by omega), Word.add_eq (by omega)]
  omega

namespace Geometry.Consistent

variable {g : Geometry} {c c' f : ℕ}

theorem fat_lt_data (hg : g.Consistent) (hf : f < g.numFats) (hc : c < g.totalClusters + 2) :
    fatAddr g f c + 4 ≤ 512 * (g.fatStartLba + (f + 1) * g.fatSize) ∧
      g.fatStartLba + (f + 1) * g.fatSize ≤ g.dataStartLba := by
  have hcovers := hg.fat_covers
  have hcopies : (f + 1) * g.fatSize ≤ g.numFats * g.fatSize := Nat.mul_le_mul_right _ hf
  have hsucc : (f + 1) * g.fatSize = f * g.fatSize + g.fatSize := Nat.succ_mul f _
  rw [hg.data_start, fatAddr]
  omega

theorem total_small (hg : g.Consistent) : g.totalClusters + 2 ≤ badCluster := by
  have hcovers := hg.fat_covers
  have hone : g.totalClusters * 1 ≤ g.totalClusters * g.sectorsPerCluster :=
    Nat.mul_le_mul_left _ hg.spc_pos
  have hcopy : 1 * g.fatSize ≤ g.numFats * g.fatSize := Nat.mul_le_mul_right _ hg.fats_pos
  have hlba := hg.in_lba28
  rw [hg.data_start] at hlba
  rw [badCluster]
  omega

theorem cluster_end (hg : g.Consistent) (hlo : 2 ≤ c) (hhi : c < g.totalClusters + 2) :
    g.dataStartLba + (c - 2) * g.sectorsPerCluster + g.sectorsPerCluster ≤ 2 ^ 28 := by
  have hle : (c - 2 + 1) * g.sectorsPerCluster ≤ g.totalClusters * g.sectorsPerCluster :=
    Nat.mul_le_mul_right _ (by omega)
  have hlba := hg.in_lba28
  rw [Nat.succ_mul] at hle
  omega

theorem clusterToLba_eq (hg : g.Consistent) (hlo : 2 ≤ c) (hhi : c < g.totalClusters + 2) :
    clusterToLba g c = g.dataStartLba + (c - 2) * g.sectorsPerCluster := by
  have hend := hg.cluster_end hlo hhi
  have hsmall := hg.total_small
  rw [badCluster] at hsmall
  rw [clusterToLba, Word.sub_eq hlo (by omega), Word.mul_eq (by omega), Word.add_eq (by omega)]

theorem cluster_sep (hlo : 2 ≤ c) (hlt : c < c') :
    clusterAddr g c + clusterBytes g ≤ clusterAddr g c' := by
  have hle : (c - 2 + 1) * g.sectorsPerCluster ≤ (c' - 2) * g.sectorsPerCluster :=
    Nat.mul_le_mul_right _ (by omega)
  rw [Nat.succ_mul] at hle
  rw [clusterAddr, clusterAddr, clusterBytes]
  omega

theorem data_le_cluster : 512 * g.dataStartLba ≤ clusterAddr g c := by
  rw [clusterAddr]
  omega

theorem hasEntry (hg : g.Consistent) (hc : c < g.totalClusters + 2) : g.HasEntry c := by
  have hcovers := hg.fat_covers
  have hsmall := hg.total_small
  rw [badCluster] at hsmall
  constructor <;> omega

theorem fatsInRange (hg : g.Consistent) : g.FatsInRange := by
  refine ⟨hg.fats_pos, ?_⟩
  have hlba := hg.in_lba28
  rw [hg.data_start] at hlba
  omega

theorem fatLba_eq (hg : g.Consistent) (hf : f < g.numFats) (hc : c < g.totalClusters + 2) :
    Word.add (Word.add g.fatStartLba (Word.mul f g.fatSize)) (Word.mul c 4 / 512) =
      g.fatStartLba + f * g.fatSize + 4 * c / 512 ∧
    g.fatStartLba + f * g.fatSize + 4 * c / 512 < 2 ^ 28 ∧
    512 * (g.fatStartLba + f * g.fatSize + 4 * c / 512) + Word.mul c 4 % 512 = fatAddr g f c ∧
    Word.mul c 4 % 512 + 4 ≤ 512 := hg.fatsInRange.fatLba_eq hf (hg.hasEntry hc)

theorem fatLba_zero (hg : g.Consistent) (hc : c < g.totalClusters + 2) :
    Word.add g.fatStartLba (Word.mul c 4 / 512) = g.fatStartLba + 4 * c / 512 ∧
    g.fatStartLba + 4 * c / 512 < 2 ^ 28 ∧
    g.fatStartLba + 4 * c / 512 < g.dataStartLba ∧
    512 * (g.fatStartLba + 4 * c / 512) + Word.mul c 4 % 512 = fatAddr g 0 c ∧
    Word.mul c 4 % 512 + 4 ≤ 512 := by
  obtain ⟨hlba, hlt, haddr, hoff⟩ := hg.fatLba_eq hg.fats_pos hc
  obtain ⟨hend, hdata⟩ := hg.fat_lt_data hg.fats_pos hc
  rw [fatAddr] at hend
  have hmul : Word.mul 0 g.fatSize = 0 := by simp [Word.mul]
  rw [hmul, Word.add_eq (a := g.fatStartLba) (by omega), zero_mul, Nat.add_zero] at hlba
  rw [zero_mul, Nat.add_zero] at hlt haddr
  refine ⟨hlba, hlt, ?_, haddr, hoff⟩
  omega

end Geometry.Consistent

/-! ## Links -/

section Links

variable {v : Vol} {g : Geometry} {disk : Bytes} {lba c f x : ℕ}

/-- `v` after `n` polls and with another disk. -/
def Vol.onDisk (v : Vol) (n : ℕ) (disk : Bytes) : Vol :=
  { v with ata := { v.ata with polls := v.ata.polls + n, disk := disk } }

theorem Vol.onDisk_image (v : Vol) (n : ℕ) (disk : Bytes) :
    (v.onDisk n disk).image = imageOf v.geo disk := rfl

theorem Vol.ataRead_eq (hv : v.ata.Reliable) (hlba : lba < 2 ^ 28) (count : ℕ) (buf : Bytes) :
    v.ataRead lba count buf =
      (true, buf.blit 0 (512 * count) fun i ↦ v.ata.disk (512 * lba + i),
        v.onDisk count v.ata.disk) := by
  rw [Vol.ataRead, Ata.ataRead_reliable hv hlba]
  rfl

theorem Vol.ataWrite_eq (hv : v.ata.Reliable) (hlba : lba < 2 ^ 28) (count : ℕ) (buf : Bytes) :
    v.ataWrite lba count buf =
      (true, v.onDisk count (v.ata.disk.blit (512 * lba) (512 * count) buf)) := by
  rw [Vol.ataWrite, Ata.ataWrite_reliable hv hlba]
  rfl

/-- The sector that a read into `buf` delivers. -/
def sectorOf (disk : Bytes) (lba : ℕ) (buf : Bytes) : Bytes :=
  buf.blit 0 (512 * 1) fun i ↦ disk (512 * lba + i)

theorem sectorOf_apply (disk : Bytes) (lba : ℕ) (buf : Bytes) :
    ∀ i < 512, sectorOf disk lba buf i = disk (512 * lba + i) := by
  intro i hi
  rw [sectorOf, blit_apply (Nat.zero_le i) (by omega), Nat.sub_zero]

theorem Vol.readSector_eq (hv : v.ata.Reliable) (hlba : lba < 2 ^ 28) (buf : Bytes) :
    v.ataRead lba 1 buf = (true, sectorOf v.ata.disk lba buf, v.onDisk 1 v.ata.disk) :=
  Vol.ataRead_eq hv hlba 1 buf

theorem Vol.readSector_any (v : Vol) (hlba : lba < 2 ^ 28) (buf : Bytes) :
    v.ataRead lba 1 buf = (v.ata.ready v.ata.polls,
      if v.ata.ready v.ata.polls = true then sectorOf v.ata.disk lba buf else buf,
      v.onDisk 1 v.ata.disk) := by
  rw [Vol.ataRead, Ata.ataRead_one _ _ hlba]
  cases v.ata.ready v.ata.polls with
  | false => rfl
  | true => rfl

/-- A sector that is read, changed from `off` on and written back. -/
theorem Vol.patchSector_any (v : Vol) (hlba : lba < 2 ^ 28) {off n : ℕ} (hoff : off + n ≤ 512)
    (buf src : Bytes) :
    (v.onDisk 1 v.ata.disk).ataWrite lba 1 ((sectorOf v.ata.disk lba buf).blit off n src) =
      (v.ata.ready (v.ata.polls + 1), v.onDisk 2 (if v.ata.ready (v.ata.polls + 1) = true then
        v.ata.disk.blit (512 * lba + off) n src else v.ata.disk)) := by
  have hpatch := blit_patch v.ata.disk src (sectorOf_apply v.ata.disk lba buf) hoff
  rw [Vol.ataWrite, Ata.ataWrite_one _ _ hlba]
  cases hready : v.ata.ready (v.ata.polls + 1) with
  | false =>
      simp only [Vol.onDisk, hready]
      rfl
  | true =>
      simp only [Vol.onDisk, hready, if_true, hpatch]

theorem Vol.patchSector_eq (hv : v.ata.Reliable) (hlba : lba < 2 ^ 28) {off n : ℕ}
    (hoff : off + n ≤ 512) (buf src : Bytes) :
    (v.onDisk 1 v.ata.disk).ataWrite lba 1 ((sectorOf v.ata.disk lba buf).blit off n src) =
      (true, v.onDisk 2 (v.ata.disk.blit (512 * lba + off) n src)) := by
  rw [v.patchSector_any hlba hoff, hv]
  rfl

/-- A sector is read while the drive answers. -/
theorem missed_read (v : Vol) :
    Missed v (v.onDisk 1 v.ata.disk) ↔ v.ata.ready v.ata.polls = false := by
  constructor
  · rintro ⟨k, hlo, hhi, hready⟩
    obtain rfl : k = v.ata.polls := le_antisymm (Nat.lt_succ_iff.mp hhi) hlo
    exact hready
  · exact fun hready ↦ ⟨v.ata.polls, le_refl _, Nat.lt_succ_self _, hready⟩

theorem image_fat (hc : c < v.geo.totalClusters + 2) :
    v.image.fat c = v.ata.disk.read32 (fatAddr v.geo 0 c) &&& 0x0FFFFFFF := by
  have hmask := Nat.and_two_pow_sub_one_eq_mod (v.ata.disk.read32 (fatAddr v.geo 0 c)) 28
  simp only [Vol.image, imageOf, if_pos hc]
  exact hmask.symm

theorem nextCluster_spec (hv : v.Ready) (hc : c < v.geo.totalClusters + 2) :
    ∃ v', nextCluster v c = (v.image.fat c, v') ∧ Quiet v v' ∧ v'.Ready := by
  obtain ⟨hlba, hlt, hdata, haddr, hoff⟩ := hv.geo.fatLba_zero hc
  rw [nextCluster]
  simp only [hlba]
  by_cases hcached : v.geo.fatStartLba + 4 * c / 512 = v.fatSectorCachedLba
  · -- a hit: the cached sector is the one on the disk
    rw [if_neg (not_not_intro hcached)]
    refine ⟨v, Prod.ext ?_ rfl, .refl v, hv⟩
    rcases hv.cache with hno | ⟨-, hcache⟩
    · rw [hno, noLba] at hcached
      omega
    · rw [← hcached] at hcache
      simp only [image_fat hc, ← haddr, read32, readLE_window hcache hoff]
  · rw [if_pos hcached]
    simp only [Vol.readSector_eq hv.reliable hlt]
    refine ⟨_, Prod.ext ?_ rfl, ⟨⟨rfl, rfl, rfl⟩, rfl, rfl⟩, hv.mounted, hv.geo, hv.reliable,
      hv.hint, Or.inr ⟨hdata, sectorOf_apply _ _ _⟩⟩
    simp only [image_fat hc, ← haddr, read32, readLE_window (sectorOf_apply _ _ _) hoff]

/-- The new word of an entry: the upper four bits are kept. -/
def fatWord (old x : ℕ) : ℕ := old &&& 0xF0000000 ||| x &&& 0x0FFFFFFF

theorem fatWord_lt (old x : ℕ) : fatWord old x < 2 ^ 32 := by
  apply Nat.or_lt_two_pow
  · exact Nat.and_lt_two_pow old (by norm_num)
  · exact Nat.and_lt_two_pow x (by norm_num)

theorem fatWord_mod (old x : ℕ) : fatWord old x % 2 ^ 28 = x % 2 ^ 28 := by
  have hlow : ∀ y, y &&& 0x0FFFFFFF = y % 2 ^ 28 := fun y ↦ Nat.and_two_pow_sub_one_eq_mod y 28
  have hdisj : (0xF0000000 &&& 0x0FFFFFFF : ℕ) = 0 := by decide
  rw [← hlow, fatWord, Nat.and_or_distrib_right, Nat.and_assoc, hdisj, Nat.and_zero,
    Nat.and_assoc, Nat.and_self, Nat.zero_or, hlow]

/-- The disk after entry `c` is set to `x` in the copies `f, f + 1, …`, `n` of them. -/
def putLinks (g : Geometry) (c x : ℕ) : ℕ → ℕ → Bytes → Bytes
  | 0, _, disk => disk
  | n + 1, f, disk =>
      putLinks g c x n (f + 1)
        (disk.write32 (fatAddr g f c) (fatWord (disk.read32 (fatAddr g f c)) x))

/-- An entry is set in some copies of the FAT, in all of them unless a poll fails, and in the first
one if two polls do not. -/
theorem setFatCopies_any (hg : v.geo.FatsInRange) (hc : v.geo.HasEntry c) (x n f : ℕ)
    (hf : f + n ≤ v.geo.numFats) : ∃ k m, k ≤ n ∧
      setFatCopies c x n f v =
        (decide (k = n), v.onDisk m (putLinks v.geo c x k f v.ata.disk)) ∧
      (k < n → Missed v (v.onDisk m (putLinks v.geo c x k f v.ata.disk))) ∧
      (0 < n → v.ata.ready v.ata.polls = true → v.ata.ready (v.ata.polls + 1) = true →
        0 < k ∧ 2 ≤ m) := by
  induction n generalizing f v with
  | zero =>
      exact ⟨0, 0, le_refl 0, rfl, fun h ↦ absurd h (lt_irrefl 0),
        fun h ↦ absurd h (lt_irrefl 0)⟩
  | succ n ih =>
      obtain ⟨hlba, hlt, haddr, hoff⟩ := hg.fatLba_eq (f := f) (by omega) hc
      have hword := readLE_window (sectorOf_apply v.ata.disk
        (v.geo.fatStartLba + f * v.geo.fatSize + 4 * c / 512) blank) hoff
      have hpatch := v.patchSector_any hlt hoff blank
        (ofWord (fatWord (v.ata.disk.read32 (fatAddr v.geo f c)) x))
      rw [haddr] at hword hpatch
      simp only [setFatCopies, hlba, v.readSector_any hlt]
      cases hread : v.ata.ready v.ata.polls with
      | false =>
          refine ⟨0, 1, Nat.zero_le _, ?_, fun _ ↦ ⟨v.ata.polls, le_refl _, ?_, hread⟩, ?_⟩
          · simp only [putLinks]
            rfl
          · exact Nat.lt_succ_self _
          · intro _ hready
            cases hready
      | true =>
          simp only [if_true, hword, read32]
          rw [← fatWord, write32, writeLE, hpatch]
          cases hwrite : v.ata.ready (v.ata.polls + 1) with
          | false =>
              refine ⟨0, 2, Nat.zero_le _, rfl,
                fun _ ↦ ⟨v.ata.polls + 1, Nat.le_succ _, ?_, hwrite⟩, ?_⟩
              · exact Nat.lt_succ_self _
              · intro _ _ hready
                cases hready
          | true =>
              obtain ⟨k, m, hk, hrest, hmissed, -⟩ := ih (v := v.onDisk 2 (v.ata.disk.write32
                (fatAddr v.geo f c) (fatWord (v.ata.disk.read32 (fatAddr v.geo f c)) x))) hg hc
                (f + 1) (by simp only [Vol.onDisk]; omega)
              refine ⟨k + 1, 2 + m, by omega, ?_, fun hlt ↦ ?_, fun _ _ _ ↦ ⟨k.succ_pos, by omega⟩⟩
              · refine hrest.trans ?_
                simp only [Vol.onDisk, putLinks, Nat.add_assoc, Nat.add_right_cancel_iff]
              · obtain ⟨j, hlo, hhi, hready⟩ := hmissed (by omega)
                simp only [Vol.onDisk] at hlo hhi hready
                exact ⟨j, by omega, by simp only [Vol.onDisk]; omega, hready⟩

theorem setFatCopies_spec (hg : v.geo.FatsInRange) (hv : v.ata.Reliable)
    (hc : v.geo.HasEntry c) (n f : ℕ) (hf : f + n = v.geo.numFats) :
    ∃ k, setFatCopies c x n f v = (true, v.onDisk k (putLinks v.geo c x n f v.ata.disk)) := by
  obtain ⟨k, m, hk, hcopies, hmissed, -⟩ := setFatCopies_any hg hc x n f hf.le
  rcases hk.lt_or_eq with hlt | rfl
  · obtain ⟨j, -, -, hready⟩ := hmissed hlt
    rw [hv j] at hready
    cases hready
  · rw [decide_eq_true rfl] at hcopies
    exact ⟨m, hcopies⟩

theorem putLinks_apply {i : ℕ} (n f : ℕ) (disk : Bytes)
    (h : ∀ f', f ≤ f' → f' < f + n → i < fatAddr g f' c ∨ fatAddr g f' c + 4 ≤ i) :
    putLinks g c x n f disk i = disk i := by
  induction n generalizing f disk with
  | zero => rfl
  | succ n ih =>
      rw [putLinks, ih (f + 1) _ fun f' hlo hhi ↦ h f' (by omega) (by omega)]
      exact writeLE_apply_of_notMem (h f (le_refl f) (by omega))

/-- The image follows the first copy of the FAT. -/
theorem imageOf_putLinks (hg : g.Consistent) (hc : c < g.totalClusters + 2) {n : ℕ}
    (hn : n < g.numFats) (disk : Bytes) :
    imageOf g (putLinks g c x (n + 1) 0 disk) = (imageOf g disk).setFat c (x % 2 ^ 28) := by
  -- the other copies lie behind the first one
  have hcopies : ∀ f', 1 ≤ f' → fatAddr g 1 0 ≤ fatAddr g f' c := by
    intro f' hf'
    have hle : 1 * g.fatSize ≤ f' * g.fatSize := Nat.mul_le_mul_right _ hf'
    rw [fatAddr, fatAddr]
    omega
  have hfirst : ∀ c' < g.totalClusters + 2, fatAddr g 0 c' + 4 ≤ fatAddr g 1 0 := by
    intro c' hc'
    have hcovers := hg.fat_covers
    rw [fatAddr, fatAddr, zero_mul, one_mul]
    omega
  have hlink : ∀ c' < g.totalClusters + 2,
      (putLinks g c x (n + 1) 0 disk).read32 (fatAddr g 0 c') =
        if c' = c then fatWord (disk.read32 (fatAddr g 0 c)) x
        else disk.read32 (fatAddr g 0 c') := by
    intro c' hc'
    rw [putLinks]
    have hrest := readLE_congr (n := 4) (a := fatAddr g 0 c') fun i hlo hhi ↦
      putLinks_apply (g := g) (x := x) (c := c) (i := i) n (0 + 1)
        (disk.write32 (fatAddr g 0 c) (fatWord (disk.read32 (fatAddr g 0 c)) x))
        fun f' hf' _ ↦ Or.inl (by have := hcopies f' hf'; have := hfirst c' hc'; omega)
    rw [read32, hrest]
    by_cases hsame : c' = c
    · rw [if_pos hsame, hsame]
      exact read32_write32 (fatWord_lt _ _)
    · rw [if_neg hsame]
      apply readLE_writeLE_of_disjoint
      rw [fatAddr, fatAddr]
      omega
  have hdata : ∀ i, 512 * g.dataStartLba ≤ i → putLinks g c x (n + 1) 0 disk i = disk i := by
    intro i hi
    apply putLinks_apply
    intro f' _ hf'
    obtain ⟨hend, hle⟩ := hg.fat_lt_data (f := f') (by omega) hc
    exact Or.inr (by omega)
  simp only [imageOf, Image.setFat, Image.mk.injEq, true_and]
  constructor
  · funext c'
    by_cases hc' : c' < g.totalClusters + 2
    · rw [if_pos hc', hlink c' hc', Function.update_apply]
      by_cases hsame : c' = c
      · rw [if_pos hsame, if_pos hsame, fatWord_mod]
      · rw [if_neg hsame, if_neg hsame, if_pos hc']
    · have hne : c' ≠ c := fun hsame ↦ hc' (hsame ▸ hc)
      rw [if_neg hc', Function.update_of_ne hne, if_neg hc']
  · funext c' i
    have hle := Geometry.Consistent.data_le_cluster (g := g) (c := c')
    rw [hdata _ (by omega)]

theorem setFatEntry_spec (hv : v.Ready) (hc : c < v.geo.totalClusters + 2) (hx : x < 2 ^ 28) :
    ∃ v', setFatEntry v c x = (true, v') ∧ v'.Ready ∧ Keeps v v' ∧ v'.allocHint = v.allocHint ∧
      v'.image = v.image.setFat c x := by
  obtain ⟨k, hcopies⟩ := setFatCopies_spec (x := x) hv.geo.fatsInRange hv.reliable
    (hv.geo.hasEntry hc) v.geo.numFats 0 (Nat.zero_add _)
  simp only [setFatEntry, hcopies]
  refine ⟨_, rfl, ⟨hv.mounted, hv.geo, hv.reliable, hv.hint, Or.inl rfl⟩, ⟨rfl, rfl, rfl⟩, rfl, ?_⟩
  have hlast : v.geo.numFats - 1 < v.geo.numFats := Nat.sub_one_lt_of_lt hv.geo.fats_pos
  have himage := imageOf_putLinks (x := x) hv.geo hc hlast v.ata.disk
  rw [Nat.sub_add_cancel hv.geo.fats_pos, Nat.mod_eq_of_lt hx] at himage
  exact himage

end Links

/-! ## Clusters and slots -/

section Clusters

variable {v : Vol} {g : Geometry} {src : Bytes} {c n : ℕ} {p : Pos}

theorem imageOf_patch (hg : g.Consistent) (disk src : Bytes) (off : ℕ) (hlo : 2 ≤ c)
    (hhi : c < g.totalClusters + 2) (hoff : off + n ≤ clusterBytes g) :
    imageOf g (disk.blit (clusterAddr g c + off) n src) = (imageOf g disk).patch c off n src := by
  have hdata := Geometry.Consistent.data_le_cluster (g := g) (c := c)
  simp only [imageOf, Image.patch, Image.mk.injEq, true_and]
  constructor
  · funext c'
    by_cases hc' : c' < g.totalClusters + 2
    · obtain ⟨hend, hle⟩ := hg.fat_lt_data hg.fats_pos hc'
      rw [if_pos hc', if_pos hc', read32, readLE_blit_of_disjoint (Or.inl (by omega))]
    · rw [if_neg hc', if_neg hc']
  · funext c' i
    by_cases hsame : c' = c
    · subst hsame
      rw [Function.update_self]
      by_cases hi : i < clusterBytes g
      · rw [if_pos ⟨hlo, hhi, hi⟩]
        by_cases hin : off ≤ i ∧ i < off + n
        · rw [blit_apply (by omega) (by omega), blit_apply hin.1 hin.2]
          congr 1
          omega
        · rw [blit_apply_of_notMem (by omega), blit_apply_of_notMem (by omega),
            if_pos ⟨hlo, hhi, hi⟩]
      · rw [if_neg (by omega), blit_apply_of_notMem (by omega), if_neg (by omega)]
    · rw [Function.update_of_ne hsame]
      by_cases hin : 2 ≤ c' ∧ c' < g.totalClusters + 2 ∧ i < clusterBytes g
      · rw [if_pos hin, if_pos hin]
        apply blit_apply_of_notMem
        rcases lt_or_gt_of_ne hsame with hlt | hgt
        · have := Geometry.Consistent.cluster_sep (g := g) hin.1 hlt
          omega
        · have := Geometry.Consistent.cluster_sep (g := g) hlo hgt
          omega
      · rw [if_neg hin, if_neg hin]

/-- A write into the data area leaves the FAT cache valid. -/
theorem Vol.Ready.onDisk (hv : v.Ready) {a : ℕ} (ha : 512 * v.geo.dataStartLba ≤ a) (k : ℕ) :
    (v.onDisk k (v.ata.disk.blit a n src)).Ready := by
  refine ⟨hv.mounted, hv.geo, hv.reliable, hv.hint, ?_⟩
  refine hv.cache.imp_right fun ⟨hlt, hbuf⟩ ↦ ⟨hlt, fun i hi ↦ ?_⟩
  have hlow : 512 * v.fatSectorCachedLba + i < a := by omega
  rw [show (v.onDisk k (v.ata.disk.blit a n src)).fatSectorBuf i = v.fatSectorBuf i from rfl,
    hbuf i hi]
  exact (blit_apply_of_notMem (Or.inl hlow)).symm

theorem writeCluster_spec (hv : v.Ready) (hlo : 2 ≤ c) (hhi : c < v.geo.totalClusters + 2)
    (buf : Bytes) :
    ∃ v', v.ataWrite (clusterToLba v.geo c) v.geo.sectorsPerCluster buf = (true, v') ∧ v'.Ready ∧
      Keeps v v' ∧ v'.allocHint = v.allocHint ∧
      v'.image = v.image.patch c 0 (clusterBytes v.geo) buf := by
  have hlba := hv.geo.clusterToLba_eq hlo hhi
  have hend := hv.geo.cluster_end hlo hhi
  have hspc := hv.geo.spc_pos
  have hlt : clusterToLba v.geo c < 2 ^ 28 := by omega
  have haddr : 512 * clusterToLba v.geo c = clusterAddr v.geo c + 0 := by
    rw [hlba, clusterAddr, Nat.add_zero]
  have hwrite := Vol.ataWrite_eq hv.reliable hlt v.geo.sectorsPerCluster buf
  rw [haddr, ← clusterBytes] at hwrite
  refine ⟨_, hwrite, hv.onDisk ?_ _, ⟨rfl, rfl, rfl⟩, rfl, ?_⟩
  · exact Geometry.Consistent.data_le_cluster
  · have hfits : 0 + clusterBytes v.geo ≤ clusterBytes v.geo := (Nat.zero_add _).le
    rw [Vol.onDisk_image, imageOf_patch hv.geo v.ata.disk buf 0 hlo hhi hfits, Vol.image]

/-- Where a scan finds slot `p`, and what it finds there. -/
def Vol.lookAt (v : Vol) (p : Pos) : DirLookup :=
  ⟨v.image.entry p, Word.add (clusterToLba v.geo p.1) (p.2 / 16), p.2 % 16 * 32⟩

/-- The slot is one of the volume. -/
structure Vol.HasSlot (v : Vol) (p : Pos) : Prop where
  lo : 2 ≤ p.1
  hi : p.1 < v.geo.totalClusters + 2
  slot : p.2 < 16 * v.geo.sectorsPerCluster

theorem lookAt_addr (hg : v.geo.Consistent) (hp : v.HasSlot p) :
    (v.lookAt p).lba = clusterToLba v.geo p.1 + p.2 / 16 ∧ (v.lookAt p).lba < 2 ^ 28 ∧
      512 * (v.lookAt p).lba + (v.lookAt p).offset = clusterAddr v.geo p.1 + 32 * p.2 ∧
      (v.lookAt p).offset + 32 ≤ 512 := by
  have hlba := hg.clusterToLba_eq hp.lo hp.hi
  have hend := hg.cluster_end hp.lo hp.hi
  have hslot := hp.slot
  simp only [Vol.lookAt, clusterAddr]
  rw [Word.add_eq (by omega)]
  omega

theorem HasSlot.fits (hp : v.HasSlot p) : 32 * p.2 + 32 ≤ clusterBytes v.geo := by
  have hslot := hp.slot
  rw [clusterBytes]
  omega

theorem data_le_slot (g : Geometry) (p : Pos) :
    512 * g.dataStartLba ≤ clusterAddr g p.1 + 32 * p.2 :=
  Geometry.Consistent.data_le_cluster.trans (Nat.le_add_right _ _)

/-- A sector is read, changed from `off` on and written back. -/
def patchSector (v : Vol) (lba off n : ℕ) (src : Bytes) : Bool × Vol :=
  match v.ataRead lba 1 blank with
  | (false, _, v) => (false, v)
  | (true, sec, v) => v.ataWrite lba 1 (sec.blit off n src)

theorem patchSlot_spec (hv : v.Ready) (hp : v.HasSlot p) {n : ℕ} (hn : n ≤ 32) (src : Bytes) :
    ∃ v', patchSector v (v.lookAt p).lba (v.lookAt p).offset n src = (true, v') ∧ v'.Ready ∧
      Keeps v v' ∧ v'.allocHint = v.allocHint ∧ v'.image = v.image.patch p.1 (32 * p.2) n src := by
  obtain ⟨-, hlt, haddr, hoff⟩ := lookAt_addr hv.geo hp
  have hbytes : (v.lookAt p).offset + n ≤ 512 := by omega
  have hpatch := Vol.patchSector_eq hv.reliable hlt hbytes blank src
  have hfits := HasSlot.fits hp
  rw [haddr] at hpatch
  rw [patchSector, Vol.readSector_eq hv.reliable hlt]
  dsimp only
  rw [hpatch]
  refine ⟨_, rfl, hv.onDisk (data_le_slot v.geo p) 2, ⟨rfl, rfl, rfl⟩, rfl, ?_⟩
  rw [Vol.onDisk_image, imageOf_patch hv.geo _ _ _ hp.lo hp.hi (by omega), Vol.image]

theorem writeDirent_spec (hv : v.Ready) (hp : v.HasSlot p) (e : Dirent) :
    ∃ v', writeDirent v (v.lookAt p).lba (v.lookAt p).offset e = (true, v') ∧ v'.Ready ∧
      Keeps v v' ∧ v'.allocHint = v.allocHint ∧ v'.image = v.image.patch p.1 (32 * p.2) 32 e :=
  patchSlot_spec hv hp (le_refl 32) e

theorem markDeleted_spec (hv : v.Ready) (hp : v.HasSlot p) :
    ∃ v', markDeleted v (v.lookAt p).lba (v.lookAt p).offset = (true, v') ∧ v'.Ready ∧
      Keeps v v' ∧ v'.allocHint = v.allocHint ∧
      v'.image = v.image.patch p.1 (32 * p.2) 1 fun _ ↦ 0xE5 :=
  patchSlot_spec hv hp (by norm_num) fun _ ↦ 0xE5

end Clusters

/-! ## Single steps -/

/-- The sector of the first copy of the FAT that holds entry `c`. -/
def fatSector (g : Geometry) (c : ℕ) : ℕ := Word.add g.fatStartLba (Word.mul c 4 / 512)

/-- The ways `next_cluster` can go: a hit, a read that fails and one that does not. -/
theorem nextCluster_cases (v : Vol) (c : ℕ) :
    fatSector v.geo c = v.fatSectorCachedLba ∧
        nextCluster v c = (v.fatSectorBuf.read32 (Word.mul c 4 % 512) &&& 0x0FFFFFFF, v) ∨
      fatSector v.geo c ≠ v.fatSectorCachedLba ∧ ∃ ok buf v₁,
        v.ataRead (fatSector v.geo c) 1 v.fatSectorBuf = (ok, buf, v₁) ∧
        (ok = false ∧ nextCluster v c = (0x0FFFFFFF, { v₁ with fatSectorBuf := buf }) ∨
          ok = true ∧ nextCluster v c = (buf.read32 (Word.mul c 4 % 512) &&& 0x0FFFFFFF,
            { v₁ with fatSectorBuf := buf, fatSectorCachedLba := fatSector v.geo c })) := by
  by_cases hcached : fatSector v.geo c = v.fatSectorCachedLba
  · refine Or.inl ⟨hcached, ?_⟩
    rw [nextCluster]
    exact if_neg (not_not_intro hcached)
  · have hmiss : Word.add v.geo.fatStartLba (Word.mul c 4 / 512) ≠ v.fatSectorCachedLba := hcached
    refine Or.inr ⟨hcached, ?_⟩
    rw [nextCluster, fatSector]
    rcases hread : v.ataRead (Word.add v.geo.fatStartLba (Word.mul c 4 / 512)) 1 v.fatSectorBuf with
      ⟨_ | _, buf, v₁⟩
    · simp only [if_pos hmiss]
      exact ⟨false, buf, v₁, rfl, Or.inl ⟨rfl, rfl⟩⟩
    · simp only [if_pos hmiss]
      exact ⟨true, buf, v₁, rfl, Or.inr ⟨rfl, rfl⟩⟩

theorem ataRead_quiet (v : Vol) (lba n : ℕ) (buf : Bytes) :
    Quiet v (v.ataRead lba n buf).2.2 :=
  ⟨⟨rfl, rfl, rfl⟩, rfl, (Ata.ataRead_frame lba n buf v.ata).1⟩

theorem ataRead_later (v : Vol) (lba n : ℕ) (buf : Bytes) :
    Later v (v.ataRead lba n buf).2.2 := by
  obtain ⟨-, hready, hpolls⟩ := Ata.ataRead_frame lba n buf v.ata
  exact ⟨rfl, rfl, hready, hpolls⟩

/-- A link is followed without a change but to the FAT cache. -/
theorem nextCluster_quiet (v : Vol) (c : ℕ) : Quiet v (nextCluster v c).2 := by
  rcases nextCluster_cases v c with ⟨-, hnext⟩ | ⟨-, ok, buf, v₁, hread, hres⟩
  · rw [hnext]
    exact .refl v
  · have hquiet := ataRead_quiet v (fatSector v.geo c) 1 v.fatSectorBuf
    rw [hread] at hquiet
    rcases hres with ⟨-, hnext⟩ | ⟨-, hnext⟩
    · rw [hnext]
      exact ⟨⟨hquiet.geo, hquiet.cwd, hquiet.mounted⟩, hquiet.hint, hquiet.disk⟩
    · rw [hnext]
      exact ⟨⟨hquiet.geo, hquiet.cwd, hquiet.mounted⟩, hquiet.hint, hquiet.disk⟩

theorem nextCluster_later (v : Vol) (c : ℕ) : Later v (nextCluster v c).2 := by
  rcases nextCluster_cases v c with ⟨-, hnext⟩ | ⟨-, ok, buf, v₁, hread, hres⟩
  · rw [hnext]
    exact .refl v
  · have hlater := ataRead_later v (fatSector v.geo c) 1 v.fatSectorBuf
    rw [hread] at hlater
    rcases hres with ⟨-, hnext⟩ | ⟨-, hnext⟩
    · rw [hnext]
      exact ⟨hlater.geo, hlater.mounted, hlater.ready, hlater.polls⟩
    · rw [hnext]
      exact ⟨hlater.geo, hlater.mounted, hlater.ready, hlater.polls⟩

/-- The cluster that `alloc_cluster` looks at in round `i`. -/
def allocCandidate (g : Geometry) (hint i : ℕ) : ℕ :=
  if Word.add g.totalClusters 2 ≤ Word.add hint i then
    Word.add 2 (Word.sub (Word.add hint i) (Word.add g.totalClusters 2))
  else Word.add hint i

theorem allocLoop_succ (n i : ℕ) (v : Vol) :
    allocLoop (n + 1) i v =
      if (nextCluster v (allocCandidate v.geo v.allocHint i)).1 = 0 then
        match setFatEntry (nextCluster v (allocCandidate v.geo v.allocHint i)).2
            (allocCandidate v.geo v.allocHint i) 0x0FFFFFFF with
        | (false, v) => (0, v)
        | (true, v₁) => (allocCandidate v.geo v.allocHint i,
            { v₁ with allocHint := Word.add (allocCandidate v.geo v.allocHint i) 1 })
      else allocLoop n (i + 1) (nextCluster v (allocCandidate v.geo v.allocHint i)).2 := rfl

end MyOS.Fat32
