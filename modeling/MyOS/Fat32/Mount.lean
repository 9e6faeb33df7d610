import MyOS.Fat32.Disk

/-!
# The geometry that mounting accepts

`fat32_mount` takes the sizes of the areas from the boot sector and checks none of them
against another.  Whether the FAT has an entry for every cluster that `alloc_cluster` can hand
out, and whether the clusters lie inside the volume, depends on the boot sector alone.
-/

namespace MyOS.Fat32

open Bytes

variable {v v' : Vol} {g : Geometry} {c x f i n hint T : ℕ}

/-- The sector of copy `f` of the FAT that `set_fat_entry` reads, changes and writes. -/
def fatEntryLba (g : Geometry) (f c : ℕ) : ℕ :=
  fatSector { g with fatStartLba := Word.add g.fatStartLba (Word.mul f g.fatSize) } c

/-- `alloc_cluster` can return `c`: it does so for some disk, some pattern of failures and some
allocation hint. -/
def CanReturn (g : Geometry) (c : ℕ) : Prop :=
  ∃ v v' : Vol, v.geo = g ∧ 2 ≤ v.allocHint ∧ v.allocHint ≤ g.totalClusters + 2 ∧
    v.allocHint < 2 ^ 32 ∧ allocCluster v = (c, v') ∧ c ≠ 0

/-! ## What a successful allocation tells -/

theorem fatEntryLba_lt_word (g : Geometry) (f c : ℕ) : fatEntryLba g f c < 2 ^ 32 :=
  Word.add_lt _ _

theorem Vol.ataRead_far (buf : Bytes) {lba : ℕ} (hlo : 2 ^ 28 ≤ lba) (hhi : lba < 2 ^ 32) :
    v.ataRead lba 1 buf = (false, buf, v) := by
  rw [Vol.ataRead, Ata.ataRead_far _ _ hlo hhi]

theorem Vol.ataRead_geo (v : Vol) (lba n : ℕ) (buf : Bytes) :
    (v.ataRead lba n buf).2.2.geo = v.geo := rfl

theorem Vol.ataWrite_geo (v : Vol) (lba n : ℕ) (buf : Bytes) :
    (v.ataWrite lba n buf).2.geo = v.geo := rfl

theorem setFatCopies_succ (c x n f : ℕ) (v : Vol) :
    setFatCopies c x (n + 1) f v =
      match v.ataRead (fatEntryLba v.geo f c) 1 blank with
      | (false, _, v₁) => (false, v₁)
      | (true, buf, v₁) =>
          match v₁.ataWrite (fatEntryLba v.geo f c) 1 (buf.write32 (Word.mul c 4 % 512)
              (buf.read32 (Word.mul c 4 % 512) &&& 0xF0000000 ||| x &&& 0x0FFFFFFF)) with
          | (false, v₂) => (false, v₂)
          | (true, v₂) => setFatCopies c x n (f + 1) v₂ := rfl

/-- Every copy that `set_fat_entry` has written is within reach of the drive. -/
theorem lba_of_setFatCopies (n f : ℕ) (h : setFatCopies c x n f v = (true, v')) :
    ∀ j, f ≤ j → j < f + n → fatEntryLba v.geo j c < 2 ^ 28 := by
  induction n generalizing f v with
  | zero =>
      intro j hlo hhi
      omega
  | succ n ih =>
      intro j hlo hhi
      rw [setFatCopies_succ] at h
      rcases hread : v.ataRead (fatEntryLba v.geo f c) 1 blank with ⟨_ | _, buf, v₁⟩
      · simp [hread] at h
      have hgeo₁ : v₁.geo = v.geo := by rw [← v.ataRead_geo _ 1 blank, hread]
      simp only [hread] at h
      split at h
      · cases h
      next v₂ hwrite =>
        have hgeo₂ : v₂.geo = v.geo := by rw [← hgeo₁, ← v₁.ataWrite_geo, hwrite]
        rcases Nat.eq_or_lt_of_le hlo with rfl | hlt
        · by_contra hfar
          rw [Vol.ataRead_far blank (Nat.le_of_not_lt hfar) (fatEntryLba_lt_word _ _ _)] at hread
          cases hread
        · rw [← hgeo₂]
          exact ih (f + 1) h j hlt (by omega)

/-- An allocated cluster is a candidate of some round, and its FAT entries are within reach. -/
theorem candidate_of_allocLoop (n i : ℕ) (h : allocLoop n i v = (c, v')) (hc : c ≠ 0) :
    ∃ j, i ≤ j ∧ j < i + n ∧ c = allocCandidate v.geo v.allocHint j ∧
      ∀ f < v.geo.numFats, fatEntryLba v.geo f c < 2 ^ 28 := by
  induction n generalizing i v with
  | zero => exact absurd (congrArg Prod.fst h).symm hc
  | succ n ih =>
      rw [allocLoop_succ] at h
      have hquiet := nextCluster_quiet v (allocCandidate v.geo v.allocHint i)
      have hgeo := hquiet.geo
      have hhint := hquiet.hint
      generalize nextCluster v (allocCandidate v.geo v.allocHint i) = a at h hgeo hhint
      split_ifs at h with hfree
      · split at h
        · exact absurd (congrArg Prod.fst h).symm hc
        next v₁ hset =>
          obtain rfl : allocCandidate v.geo v.allocHint i = c := congrArg Prod.fst h
          refine ⟨i, le_refl i, by omega, rfl, fun f hf ↦ ?_⟩
          rw [setFatEntry] at hset
          split at hset
          · cases hset
          next v₂ hcopies =>
            rw [hgeo] at hcopies
            have hreach := lba_of_setFatCopies _ _ hcopies f (Nat.zero_le f) (by omega)
            rwa [hgeo] at hreach
      · obtain ⟨j, hlo, hhi, hcand, hreach⟩ := ih (i + 1) h
        rw [hgeo, hhint] at hcand
        rw [hgeo] at hreach
        exact ⟨j, by omega, by omega, hcand, hreach⟩

theorem CanReturn.candidate (h : CanReturn g c) :
    ∃ hint j, 2 ≤ hint ∧ hint ≤ g.totalClusters + 2 ∧ hint < 2 ^ 32 ∧ j < g.totalClusters ∧
      c = allocCandidate g hint j ∧ c ≠ 0 ∧ ∀ f < g.numFats, fatEntryLba g f c < 2 ^ 28 := by
  obtain ⟨v, v', rfl, hlo, hhi, hword, hrun, hc⟩ := h
  rw [allocCluster] at hrun
  split_ifs at hrun with htotal hlow
  · exact absurd (congrArg Prod.fst hrun).symm hc
  · omega
  · obtain ⟨j, -, hj, hcand, hreach⟩ := candidate_of_allocLoop _ _ hrun hc
    exact ⟨v.allocHint, j, hlo, hhi, hword, by omega, hcand, hc, hreach⟩

/-! ## Every candidate within reach can be returned -/

/-- All reads fail for `n` polls, and the disk behind them is empty. -/
def waitingVol (g : Geometry) (hint n : ℕ) : Vol where
  geo := g
  cwdCluster := 0
  allocHint := hint
  mounted := true
  fatSectorBuf := blank
  fatSectorCachedLba := noLba
  ata := { disk := blank, polls := 0, ready := fun k ↦ n ≤ k }

/-- A drive that answers from now on writes every copy that is within reach. -/
theorem setFatCopies_of_ready (n f : ℕ) (hready : ∀ k, v.ata.polls ≤ k → v.ata.ready k = true)
    (hreach : ∀ j, f ≤ j → j < f + n → fatEntryLba v.geo j c < 2 ^ 28) :
    ∃ v', setFatCopies c x n f v = (true, v') := by
  induction n generalizing f v with
  | zero => exact ⟨v, rfl⟩
  | succ n ih =>
      have hlba := hreach f (le_refl f) (by omega)
      rw [setFatCopies_succ, Vol.ataRead, Ata.ataRead_one _ _ hlba, if_pos (hready _ (le_refl _))]
      simp only [Vol.ataWrite]
      rw [Ata.ataWrite_one _ _ hlba, if_pos (hready _ (Nat.le_succ _))]
      simp only
      apply ih
      · intro k hk
        exact hready k (by simp only at hk; omega)
      · intro j hlo hhi
        exact hreach j (by omega) (by omega)

theorem fatLba_word (hR : g.fatStartLba < 2 ^ 16) (c : ℕ) : fatSector g c < 2 ^ 28 := by
  have hmul := Word.mul_lt c 4
  rw [fatSector, Word.add_eq (by omega)]
  omega

/-- While the drive does not answer, the search goes on. -/
theorem allocLoop_waiting (hR : v.geo.fatStartLba < 2 ^ 16) (hcache : v.fatSectorCachedLba = noLba)
    (k : ℕ) (hdead : ∀ j, v.ata.polls ≤ j → j < v.ata.polls + k → v.ata.ready j = false) :
    allocLoop (k + n) i v = allocLoop n (i + k)
      { v with ata := { v.ata with polls := v.ata.polls + k } } := by
  induction k generalizing i v with
  | zero => simp
  | succ k ih =>
      have hlba := fatLba_word hR (allocCandidate v.geo v.allocHint i)
      rw [fatSector] at hlba
      have hne : Word.add v.geo.fatStartLba
          (Word.mul (allocCandidate v.geo v.allocHint i) 4 / 512) ≠ v.fatSectorCachedLba := by
        rw [hcache, noLba]
        omega
      have hnext : nextCluster v (allocCandidate v.geo v.allocHint i) =
          (0x0FFFFFFF, { v with ata := { v.ata with polls := v.ata.polls + 1 } }) := by
        rw [nextCluster]
        simp only [if_pos hne, Vol.ataRead, Ata.ataRead_one _ _ hlba,
          hdead _ (le_refl _) (by omega), Bool.false_eq_true, if_false]
      rw [Nat.add_right_comm, allocLoop_succ, hnext, if_neg (by norm_num)]
      rw [ih (v := { v with ata := { v.ata with polls := v.ata.polls + 1 } }) hR hcache
        fun j hlo hhi ↦ hdead j (by simp only at hlo; omega) (by simp only at hhi; omega)]
      simp only [Nat.add_assoc, Nat.add_comm 1 k]

theorem canReturn_candidate (hint i : ℕ) (hR : g.fatStartLba < 2 ^ 16) (hlo : 2 ≤ hint)
    (hhi : hint ≤ g.totalClusters + 2) (hword : hint < 2 ^ 32) (hi : i < g.totalClusters)
    (hc : allocCandidate g hint i ≠ 0)
    (hreach : ∀ f < g.numFats, fatEntryLba g f (allocCandidate g hint i) < 2 ^ 28) :
    CanReturn g (allocCandidate g hint i) := by
  -- the first `i` reads fail, then the drive answers and finds an empty FAT
  obtain ⟨n, hn⟩ : ∃ n, g.totalClusters = i + (n + 1) := ⟨g.totalClusters - i - 1, by omega⟩
  have hwait := allocLoop_waiting (v := waitingVol g hint i) (n := n + 1) (i := 0) hR rfl i
    fun j _ hj ↦ by
      simp only [waitingVol, decide_eq_false_iff_not] at hj ⊢
      omega
  generalize hw : ({ waitingVol g hint i with
    ata := { (waitingVol g hint i).ata with
      polls := (waitingVol g hint i).ata.polls + i } } : Vol) = w at hwait
  have hgeo : w.geo = g := by rw [← hw]; rfl
  have hhint : w.allocHint = hint := by rw [← hw]; rfl
  have hcache : w.fatSectorCachedLba = noLba := by rw [← hw]; rfl
  have hdisk : w.ata.disk = blank := by rw [← hw]; rfl
  have hready : ∀ k, w.ata.polls ≤ k → w.ata.ready k = true := by
    intro k hk
    rw [← hw] at hk ⊢
    simp only [waitingVol, decide_eq_true_eq] at hk ⊢
    omega
  have hlba := fatLba_word hR (allocCandidate g hint i)
  rw [fatSector] at hlba
  have hne : Word.add w.geo.fatStartLba (Word.mul (allocCandidate g hint i) 4 / 512) ≠
      w.fatSectorCachedLba := by
    rw [hcache, noLba, hgeo]
    omega
  obtain ⟨w₁, hnext, hgeo₁, hready₁⟩ : ∃ w₁, nextCluster w (allocCandidate g hint i) = (0, w₁) ∧
      w₁.geo = g ∧ ∀ k, w₁.ata.polls ≤ k → w₁.ata.ready k = true := by
    rw [nextCluster]
    rw [hgeo] at hne ⊢
    simp only [if_pos hne, Vol.ataRead, Ata.ataRead_one _ _ hlba, hready _ (le_refl _), if_true,
      hdisk]
    refine ⟨_, Prod.ext ?_ rfl, hgeo, fun k hk ↦ hready k (by simp only at hk; omega)⟩
    have hzero : (w.fatSectorBuf.blit 0 512 fun _ ↦ blank 0).read32
        (Word.mul (allocCandidate g hint i) 4 % 512) = 0 := by
      have hoff : Word.mul (allocCandidate g hint i) 4 % 512 + 4 ≤ 512 := by
        simp only [Word.mul]
        omega
      rw [read32, readLE_window (m := blank) (a := 0) (N := 512) (fun k hk ↦ ?_) hoff]
      · simp [readLE, blank]
      · rw [blit_apply (Nat.zero_le k) (by omega)]
        rfl
    have hblank : (fun k ↦ blank (512 * Word.add g.fatStartLba
        (Word.mul (allocCandidate g hint i) 4 / 512) + k)) = fun _ ↦ blank 0 := rfl
    rw [hblank, hzero]
    rfl
  obtain ⟨w₂, hcopies⟩ := setFatCopies_of_ready (c := allocCandidate g hint i) (x := 0x0FFFFFFF)
    g.numFats 0 hready₁ (fun f _ hf ↦ by
      rw [hgeo₁]
      exact hreach f (by omega))
  refine ⟨waitingVol g hint i, { w₂ with
    fatSectorCachedLba := noLba
    allocHint := Word.add (allocCandidate g hint i) 1 }, rfl, hlo, hhi, hword, ?_, hc⟩
  have htotal : (waitingVol g hint i).geo.totalClusters = i + (n + 1) := hn
  rw [allocCluster, if_neg (by omega)]
  simp only [show ¬(waitingVol g hint i).allocHint < 2 from Nat.not_lt.mpr hlo, if_false]
  rw [htotal, hwait, Nat.zero_add, allocLoop_succ, hgeo, hhint, hnext, if_pos rfl, setFatEntry,
    hgeo₁, hcopies]

/-! ## Boot sectors -/

/-- The number of sectors that a boot sector states. -/
def totalSectors (boot : Bytes) : ℕ :=
  if boot.read32 0x20 ≠ 0 then boot.read32 0x20 else boot.read16 0x13

theorem totalSectors_lt (boot : Bytes) : totalSectors boot < 2 ^ 32 := by
  have h16 : boot.read16 0x13 < 256 ^ 2 := readLE_lt boot 0x13 2
  rw [totalSectors]
  split
  · exact read32_lt boot 0x20
  · omega

/-- What every accepted boot sector gives, for a volume of `T` sectors. -/
structure Geometry.Mounted (g : Geometry) (T : ℕ) : Prop where
  spc_pos : 1 ≤ g.sectorsPerCluster
  fats_lt : g.numFats < 2 ^ 8
  start_lt : g.fatStartLba < 2 ^ 16
  size_pos : 1 ≤ g.fatSize
  size_lt : g.fatSize < 2 ^ 32
  data_start : g.dataStartLba = Word.add g.fatStartLba (Word.mul g.numFats g.fatSize)
  total : g.totalClusters = Word.sub T g.dataStartLba / g.sectorsPerCluster
  sectors_lt : T < 2 ^ 32

theorem fat32Mount_spec (h : fat32Mount v = (0, v')) :
    v'.geo.Mounted (totalSectors v.ata.disk) := by
  rw [fat32Mount, Vol.ataRead, Ata.ataRead_one _ _ (by norm_num)] at h
  split_ifs at h with hready
  swap
  · cases h
  simp only at h
  generalize hboot : (blank.blit 0 512 fun i ↦ v.ata.disk (512 * 0 + i)) = boot at h
  have hwindow : ∀ {off n : ℕ}, off + n ≤ 512 → boot.readLE off n = v.ata.disk.readLE off n := by
    intro off n hoff
    rw [readLE_window (m := v.ata.disk) (a := 0) (N := 512) (fun i hi ↦ ?_) hoff, Nat.zero_add]
    rw [← hboot, blit_apply (Nat.zero_le i) (by omega)]
    simp
  have htotal : totalSectors boot = totalSectors v.ata.disk := by
    rw [totalSectors, totalSectors, read32, read16, hwindow (by norm_num), hwindow (by norm_num)]
  have hsectors : (if boot.read32 0x20 ≠ 0 then boot.read32 0x20 else boot.read16 0x13) =
      totalSectors boot := rfl
  simp only [hsectors] at h
  split_ifs at h with hbytes hspc hsize hbig
  all_goals cases h
  refine ⟨?_, ?_, ?_, ?_, ?_, rfl, ?_, totalSectors_lt _⟩
  · exact Nat.one_le_iff_ne_zero.mpr hspc
  · exact UInt8.toNat_lt _
  · exact readLE_lt boot 0x0E 2
  · exact Nat.one_le_iff_ne_zero.mpr hsize
  · exact read32_lt boot 0x24
  · rw [← htotal]

/-- No computation of the mount has wrapped around, `set_fat_entry` stays in its copy of the
FAT for every cluster that can be allocated, and the cluster lies in the volume. -/
structure Geometry.Safe (g : Geometry) (T : ℕ) : Prop where
  no_wrap : g.fatStartLba + g.numFats * g.fatSize = g.dataStartLba ∧ g.dataStartLba ≤ T
  fat : ∀ c f, CanReturn g c → f < g.numFats →
    g.fatStartLba + f * g.fatSize ≤ fatEntryLba g f c ∧
      fatEntryLba g f c < g.fatStartLba + (f + 1) * g.fatSize
  data : ∀ c, CanReturn g c → g.dataStartLba ≤ clusterToLba g c ∧
    clusterToLba g c + g.sectorsPerCluster ≤ T

/-- The reserved sectors and the FATs fit into the volume, and one of: nothing can be
allocated, as the last FAT is out of reach of the drive; or the cluster numbers are small
enough to be searched without wrapping around, and there is no FAT, or it has an entry for
each of them, or for every number, or its end is out of reach. -/
def Geometry.Covers (g : Geometry) (T : ℕ) : Prop :=
  g.fatStartLba + g.numFats * g.fatSize ≤ T ∧
    (1 ≤ g.numFats ∧ 2 ^ 28 ≤ g.fatStartLba + (g.numFats - 1) * g.fatSize ∨
      (g.totalClusters < 2 ^ 31 ∨ g.totalClusters = 2 ^ 32 - 1) ∧
        (g.numFats = 0 ∨ g.totalClusters + 2 ≤ 128 * g.fatSize ∨ 2 ^ 23 ≤ g.fatSize ∨
          2 ^ 28 ≤ g.fatStartLba + g.numFats * g.fatSize))

/-- The clusters that can be allocated are those of the data area. -/
theorem CanReturn.range (hc : CanReturn g c)
    (hsmall : g.totalClusters < 2 ^ 31 ∨ g.totalClusters = 2 ^ 32 - 1) :
    2 ≤ c ∧ c < g.totalClusters + 2 := by
  obtain ⟨hint, j, hlo, hhi, hword, hj, hcand, hc0, -⟩ := hc.candidate
  rw [allocCandidate] at hcand
  rcases hsmall with hsmall | hfull
  · rw [Word.add_eq (a := g.totalClusters) (by omega), Word.add_eq (a := hint) (by omega)] at hcand
    split_ifs at hcand with hwrap
    · rw [Word.sub_eq hwrap (by omega), Word.add_eq (by omega)] at hcand
      omega
    · omega
  · rw [hfull] at hcand ⊢
    split_ifs at hcand with hwrap
    · simp only [Word.add, Word.sub] at hcand hwrap
      omega
    · simp only [Word.add] at hcand hwrap
      omega

namespace Geometry.Mounted

theorem data_start_eq (h : g.Mounted T) (hfit : g.fatStartLba + g.numFats * g.fatSize ≤ T) :
    g.dataStartLba = g.fatStartLba + g.numFats * g.fatSize := by
  have hT := h.sectors_lt
  rw [h.data_start, Word.mul_eq (by omega), Word.add_eq (by omega)]

theorem total_mul_le (h : g.Mounted T) (hdata : g.dataStartLba ≤ T) :
    g.totalClusters * g.sectorsPerCluster ≤ T - g.dataStartLba := by
  rw [h.total, Word.sub_eq hdata h.sectors_lt]
  exact Nat.div_mul_le_self _ _

/-- The sector of an entry, without wrapping around. -/
theorem fatEntryLba_eq (h : g.Mounted T) (hfit : g.fatStartLba + g.numFats * g.fatSize ≤ T)
    (hf : f < g.numFats) (c : ℕ) :
    fatEntryLba g f c = g.fatStartLba + f * g.fatSize + Word.mul c 4 / 512 := by
  have hmul := Word.mul_lt c 4
  have hT := h.sectors_lt
  have hN := h.fats_lt
  have hR := h.start_lt
  have hcopy : (f + 1) * g.fatSize ≤ g.numFats * g.fatSize := Nat.mul_le_mul_right _ hf
  rw [Nat.succ_mul] at hcopy
  have hsum : g.fatStartLba + f * g.fatSize + Word.mul c 4 / 512 < 2 ^ 32 := by
    by_cases hsize : g.fatSize < 2 ^ 23
    · have hle : f * g.fatSize ≤ 2 ^ 8 * 2 ^ 23 := Nat.mul_le_mul (by omega) (by omega)
      omega
    · omega
  rw [fatEntryLba, fatSector, Word.mul_eq (a := f) (by omega),
    Word.add_eq (a := g.fatStartLba) (by omega), Word.add_eq hsum]

theorem safe_of_covers (h : g.Mounted T) (hcover : g.Covers T) : g.Safe T := by
  obtain ⟨hfit, hcases⟩ := hcover
  have hstart := h.data_start_eq hfit
  have hdata : g.dataStartLba ≤ T := by omega
  have hT := h.sectors_lt
  -- when the last copy is out of reach, nothing can be allocated
  have hreach : ∀ c, CanReturn g c → ∀ f < g.numFats,
      g.fatStartLba + f * g.fatSize + Word.mul c 4 / 512 < 2 ^ 28 := by
    intro c hc f hf
    obtain ⟨hint, j, -, -, -, -, -, -, hlba⟩ := hc.candidate
    rw [← h.fatEntryLba_eq hfit hf]
    exact hlba f hf
  rcases hcases with ⟨hN, hfar⟩ | ⟨hsmall, hfats⟩
  · have hnone : ∀ c, ¬CanReturn g c := by
      intro c hc
      have hlast := hreach c hc (g.numFats - 1) (by omega)
      omega
    exact ⟨⟨hstart.symm, hdata⟩, fun c _ hc ↦ absurd hc (hnone c), fun c hc ↦ absurd hc (hnone c)⟩
  · refine ⟨⟨hstart.symm, hdata⟩, fun c f hc hf ↦ ?_, fun c hc ↦ ?_⟩
    · obtain ⟨hlo, hhi⟩ := hc.range hsmall
      have hentry : Word.mul c 4 / 512 < g.fatSize := by
        have hmul := Word.mul_lt c 4
        have hmod : Word.mul c 4 ≤ c * 4 := Nat.mod_le _ _
        rcases hfats with hzero | hcovers | hbig | hfar
        · omega
        · omega
        · omega
        · have hlast := hreach c hc (g.numFats - 1) (by omega)
          have hsucc : g.numFats * g.fatSize = (g.numFats - 1) * g.fatSize + g.fatSize := by
            obtain ⟨n, hn⟩ : ∃ n, g.numFats = n + 1 := ⟨g.numFats - 1, by omega⟩
            rw [hn, Nat.add_sub_cancel, Nat.succ_mul]
          omega
      rw [h.fatEntryLba_eq hfit hf, Nat.succ_mul]
      omega
    · obtain ⟨hlo, hhi⟩ := hc.range hsmall
      have hmul := h.total_mul_le hdata
      have hle : (c - 2 + 1) * g.sectorsPerCluster ≤ g.totalClusters * g.sectorsPerCluster :=
        Nat.mul_le_mul_right _ (by omega)
      rw [Nat.succ_mul] at hle
      have hpos := h.spc_pos
      have hword : c < 2 ^ 32 := by
        obtain ⟨hint, j, -, -, -, -, hcand, -⟩ := hc.candidate
        rw [hcand, allocCandidate]
        split
        · exact Word.add_lt _ _
        · exact Word.add_lt _ _
      rw [clusterToLba, Word.sub_eq hlo hword, Word.mul_eq (by omega), Word.add_eq (by omega)]
      omega

/-- With too many clusters the search wraps around and comes to cluster 1. -/
theorem canReturn_one (h : g.Mounted T) (hfit : g.fatStartLba + g.numFats * g.fatSize ≤ T)
    (hreach : g.numFats = 0 ∨ g.fatStartLba + (g.numFats - 1) * g.fatSize < 2 ^ 28)
    (hlo : 2 ^ 31 ≤ g.totalClusters) (hne : g.totalClusters ≠ 2 ^ 32 - 1)
    (hhi : g.totalClusters < 2 ^ 32) : CanReturn g 1 := by
  have hentry : ∀ f < g.numFats, fatEntryLba g f 1 < 2 ^ 28 := by
    intro f hf
    have hle : f * g.fatSize ≤ (g.numFats - 1) * g.fatSize := Nat.mul_le_mul_right _ (by omega)
    have hone : Word.mul 1 4 / 512 = 0 := by decide
    rw [h.fatEntryLba_eq hfit hf, hone]
    omega
  by_cases hlast : g.totalClusters = 2 ^ 32 - 2
  · have hcand : allocCandidate g (2 ^ 32 - 1) 0 = 1 := by
      rw [allocCandidate, hlast]
      decide
    have hreturn := canReturn_candidate (2 ^ 32 - 1) 0 h.start_lt
      (by norm_num) (by omega) (by norm_num) (by omega) (by rw [hcand]; norm_num)
      (by rwa [hcand])
    rwa [hcand] at hreturn
  · have hcand : allocCandidate g (g.totalClusters + 2) (2 ^ 32 - 1 - g.totalClusters) = 1 := by
      rw [allocCandidate, if_neg (by simp only [Word.add]; omega), Word.add]
      omega
    have hreturn := canReturn_candidate (g.totalClusters + 2)
      (2 ^ 32 - 1 - g.totalClusters) h.start_lt (by omega) (le_refl _) (by omega) (by omega)
      (by rw [hcand]; norm_num) (by rwa [hcand])
    rwa [hcand] at hreturn

theorem covers_of_safe (h : g.Mounted T) (hsafe : g.Safe T) : g.Covers T := by
  obtain ⟨hstart, hdata⟩ := hsafe.no_wrap
  have hfit : g.fatStartLba + g.numFats * g.fatSize ≤ T := by omega
  have hT := h.sectors_lt
  have hmul := h.total_mul_le hdata
  have hone : g.totalClusters * 1 ≤ g.totalClusters * g.sectorsPerCluster :=
    Nat.mul_le_mul_left _ h.spc_pos
  refine ⟨hfit, ?_⟩
  by_contra hnot
  obtain ⟨hreach, hbad⟩ := not_or.mp hnot
  have hreach' : g.numFats = 0 ∨ g.fatStartLba + (g.numFats - 1) * g.fatSize < 2 ^ 28 := by
    by_cases hN : g.numFats = 0
    · exact Or.inl hN
    · exact Or.inr (by
        by_contra hfar
        exact hreach ⟨by omega, by omega⟩)
  by_cases hsmall : g.totalClusters < 2 ^ 31 ∨ g.totalClusters = 2 ^ 32 - 1
  · -- the first cluster without an entry of its own
    obtain ⟨hN, hcovers, hbig, hnear⟩ : g.numFats ≠ 0 ∧ 128 * g.fatSize < g.totalClusters + 2 ∧
        g.fatSize < 2 ^ 23 ∧ g.fatStartLba + g.numFats * g.fatSize < 2 ^ 28 := by
      have hall := not_and.mp hbad hsmall
      simp only [not_or, not_le] at hall
      exact hall
    have hsize := h.size_pos
    have hpos : 1 * g.fatSize ≤ g.numFats * g.fatSize := Nat.mul_le_mul_right _ (by omega)
    have hcand : allocCandidate g 2 (128 * g.fatSize - 2) = 128 * g.fatSize := by
      rw [allocCandidate, if_neg (by simp only [Word.add]; omega), Word.add]
      omega
    have hword : Word.mul (128 * g.fatSize) 4 / 512 = g.fatSize := by
      rw [Word.mul_eq (by omega)]
      omega
    have hreturn := canReturn_candidate 2 (128 * g.fatSize - 2) h.start_lt
      (le_refl 2) (by omega) (by norm_num) (by omega) (by rw [hcand]; omega) (by
        intro f hf
        have hcopy : (f + 1) * g.fatSize ≤ g.numFats * g.fatSize := Nat.mul_le_mul_right _ hf
        rw [Nat.succ_mul] at hcopy
        rw [hcand, h.fatEntryLba_eq hfit hf, hword]
        omega)
    rw [hcand] at hreturn
    have hfat := (hsafe.fat _ 0 hreturn (by omega)).2
    rw [h.fatEntryLba_eq hfit (by omega), hword] at hfat
    omega
  · obtain ⟨hlo, hne⟩ := not_or.mp hsmall
    have hreturn := h.canReturn_one hfit hreach' (by omega) hne (by omega)
    obtain ⟨hlow, hhigh⟩ := hsafe.data 1 hreturn
    have hspc := h.spc_pos
    have hspc' : g.sectorsPerCluster < 2 ^ 32 := by
      by_contra hbig
      have hprod : 2 ^ 31 * 2 ^ 32 ≤ g.totalClusters * g.sectorsPerCluster :=
        Nat.mul_le_mul (by omega) (by omega)
      omega
    have hback : Word.mul (Word.sub 1 2) g.sectorsPerCluster = 2 ^ 32 - g.sectorsPerCluster := by
      have hsub : Word.sub 1 2 = 2 ^ 32 - 1 := by decide
      rw [hsub, Word.mul, Nat.sub_mul, Nat.one_mul]
      omega
    rw [clusterToLba, hback] at hlow hhigh
    simp only [Word.add] at hlow hhigh
    omega

end Geometry.Mounted

/-- The geometry of an accepted boot sector is safe exactly when the areas fit. -/
theorem mount_geometry_iff (h : fat32Mount v = (0, v')) :
    v'.geo.Safe (totalSectors v.ata.disk) ↔ v'.geo.Covers (totalSectors v.ata.disk) :=
  ⟨(fat32Mount_spec h).covers_of_safe, (fat32Mount_spec h).safe_of_covers⟩

/-- A volume of 200 sectors: one FAT of one sector, which is full, and 198 clusters. -/
def crampedVol : Vol where
  geo := ⟨0, 0, 0, 0, 0, 0, 0⟩
  cwdCluster := 0
  allocHint := 0
  mounted := false
  fatSectorBuf := blank
  fatSectorCachedLba := noLba
  ata :=
    { disk := ((((blank.write32 0x0B 0x01010200).write32 0x0F 0x0100).write32 0x13 200).write32 0x24
        1 |>.write32 0x2C 2).blit 512 512 fun _ ↦ 0xFF
      polls := 0
      ready := fun _ ↦ true }

theorem mount_geometry_iff_cramped : ∃ v', fat32Mount crampedVol = (0, v') ∧
    (v'.geo.Safe (totalSectors crampedVol.ata.disk) ↔
      v'.geo.Covers (totalSectors crampedVol.ata.disk)) := by
  have hmount : fat32Mount crampedVol = (0, (fat32Mount crampedVol).2) :=
    Prod.ext (by decide +kernel) rfl
  exact ⟨_, hmount, mount_geometry_iff hmount⟩

/-- The first free entry is that of cluster 128, which lies behind the FAT: allocating it
writes into the first sector of cluster 2. -/
theorem alloc_leaves_fat : ∃ v' w, fat32Mount crampedVol = (0, v') ∧ allocCluster v' = (128, w) ∧
    fatEntryLba v'.geo 0 128 = v'.geo.fatStartLba + v'.geo.fatSize ∧
    fatEntryLba v'.geo 0 128 = clusterToLba v'.geo 2 ∧
    ¬v'.geo.Safe (totalSectors crampedVol.ata.disk) := by
  have hmount : fat32Mount crampedVol = (0, (fat32Mount crampedVol).2) :=
    Prod.ext (by decide +kernel) rfl
  have halloc : allocCluster (fat32Mount crampedVol).2 =
      (128, (allocCluster (fat32Mount crampedVol).2).2) := Prod.ext (by decide +kernel) rfl
  have hbehind : fatEntryLba (fat32Mount crampedVol).2.geo 0 128 =
      (fat32Mount crampedVol).2.geo.fatStartLba + (fat32Mount crampedVol).2.geo.fatSize := by
    decide +kernel
  refine ⟨_, _, hmount, halloc, hbehind, by decide +kernel, fun hsafe ↦ ?_⟩
  have hreturn : CanReturn (fat32Mount crampedVol).2.geo 128 :=
    ⟨_, _, rfl, by decide +kernel, by decide +kernel, by decide +kernel, halloc, by norm_num⟩
  have hfat := (hsafe.fat 128 0 hreturn (by decide +kernel)).2
  rw [hbehind] at hfat
  omega

end MyOS.Fat32
