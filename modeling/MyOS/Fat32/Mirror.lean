import MyOS.Fat32.Requests

/-!
# The copies of the FAT

An entry of the FAT is changed in every copy, one sector after the other, and each sector holds
127 other entries.  On a drive without failures the copies stay alike in the 28 bits that hold
a link; the upper four bits of an entry and the two reserved entries keep their values.
-/

namespace MyOS.Fat32

open Bytes

variable {g : Geometry} {W : Prop} {v v' w : Vol} {disk disk' disk'' : Bytes} {c c' f f' x : ℕ}

/-! ## Entries -/

theorem fatWord_div (old x : ℕ) (hold : old < 2 ^ 32) : fatWord old x / 2 ^ 28 = old / 2 ^ 28 := by
  have hlow : (x &&& 0x0FFFFFFF) >>> 28 = 0 := by
    rw [Nat.shiftRight_eq_div_pow]
    exact Nat.div_eq_of_lt (Nat.and_lt_two_pow x (by norm_num))
  have hhigh : (0xF0000000 : ℕ) >>> 28 = 2 ^ 4 - 1 := by decide
  have hsmall : old >>> 28 < 2 ^ 4 := by
    rw [Nat.shiftRight_eq_div_pow]
    omega
  rw [← Nat.shiftRight_eq_div_pow, ← Nat.shiftRight_eq_div_pow, fatWord,
    Nat.shiftRight_or_distrib, hlow, Nat.or_zero, Nat.shiftRight_and_distrib, hhigh,
    Nat.and_two_pow_sub_one_eq_mod, Nat.mod_eq_of_lt hsmall]

/-- Entry `c` of copy `f` of the FAT. -/
def fatEntry (g : Geometry) (disk : Bytes) (f c : ℕ) : ℕ := disk.read32 (fatAddr g f c)

/-- Two entries of the FAT are the same or lie apart. -/
theorem fatAddr_sep (hc : c < 128 * g.fatSize) (hc' : c' < 128 * g.fatSize)
    (hne : ¬(f = f' ∧ c = c')) :
    fatAddr g f c + 4 ≤ fatAddr g f' c' ∨ fatAddr g f' c' + 4 ≤ fatAddr g f c := by
  rw [fatAddr, fatAddr]
  rcases Nat.lt_trichotomy f f' with hlt | rfl | hgt
  · have hle : (f + 1) * g.fatSize ≤ f' * g.fatSize := Nat.mul_le_mul_right _ hlt
    rw [Nat.succ_mul] at hle
    omega
  · have : c ≠ c' := fun h ↦ hne ⟨rfl, h⟩
    omega
  · have hle : (f' + 1) * g.fatSize ≤ f * g.fatSize := Nat.mul_le_mul_right _ hgt
    rw [Nat.succ_mul] at hle
    omega

/-- Setting entry `c` changes it in the copies that have been reached, and no other entry. -/
theorem fatEntry_putLinks (hc : c < 128 * g.fatSize) (hc' : c' < 128 * g.fatSize) (n f : ℕ)
    (disk : Bytes) (f' : ℕ) : fatEntry g (putLinks g c x n f disk) f' c' =
      if c' = c ∧ f ≤ f' ∧ f' < f + n then fatWord (fatEntry g disk f' c') x
      else fatEntry g disk f' c' := by
  induction n generalizing f disk with
  | zero => rw [putLinks, if_neg (by omega)]
  | succ n ih =>
      rw [putLinks, ih (f + 1)]
      have hput : fatEntry g (disk.write32 (fatAddr g f c)
          (fatWord (disk.read32 (fatAddr g f c)) x)) f' c' =
          if f' = f ∧ c' = c then fatWord (fatEntry g disk f' c') x else fatEntry g disk f' c' := by
        by_cases hsame : f' = f ∧ c' = c
        · obtain ⟨rfl, rfl⟩ := hsame
          rw [if_pos ⟨rfl, rfl⟩]
          exact read32_write32 (fatWord_lt _ _)
        · rw [if_neg hsame]
          exact read32_write32_of_disjoint (fatAddr_sep hc' hc hsame)
      rw [hput]
      by_cases hsame : c' = c
      · subst hsame
        by_cases hf : f' = f
        · subst hf
          rw [if_neg (by omega), if_pos ⟨rfl, rfl⟩, if_pos (by omega)]
        · rw [if_neg (by omega : ¬(f' = f ∧ c' = c'))]
          by_cases hlater : f + 1 ≤ f' ∧ f' < f + 1 + n
          · rw [if_pos ⟨rfl, hlater⟩, if_pos (by omega)]
          · rw [if_neg (by omega), if_neg (by omega)]
      · rw [if_neg (by omega), if_neg (by omega), if_neg (by omega)]

/-! ## What a run keeps -/

/-- All copies agree on the links of all entries. -/
def Mirrored (g : Geometry) (disk : Bytes) : Prop :=
  ∀ f < g.numFats, ∀ c < 128 * g.fatSize,
    fatEntry g disk f c % 2 ^ 28 = fatEntry g disk 0 c % 2 ^ 28

/-- What becomes of the FATs from one disk to the next. -/
structure FatKept (g : Geometry) (disk disk' : Bytes) : Prop where
  mirrored : Mirrored g disk → Mirrored g disk'
  top : ∀ f < g.numFats, ∀ c < 128 * g.fatSize,
    fatEntry g disk' f c / 2 ^ 28 = fatEntry g disk f c / 2 ^ 28
  reserved : ∀ f < g.numFats, ∀ c < 2, fatEntry g disk' f c = fatEntry g disk f c

namespace FatKept

theorem refl (g : Geometry) (disk : Bytes) : FatKept g disk disk :=
  ⟨fun h ↦ h, fun _ _ _ _ ↦ rfl, fun _ _ _ _ ↦ rfl⟩

theorem trans (h : FatKept g disk disk') (h' : FatKept g disk' disk'') : FatKept g disk disk'' :=
  ⟨fun hm ↦ h'.mirrored (h.mirrored hm),
    fun f hf c hc ↦ (h'.top f hf c hc).trans (h.top f hf c hc),
    fun f hf c hc ↦ (h'.reserved f hf c hc).trans (h.reserved f hf c hc)⟩

end FatKept

namespace Geometry.Consistent

theorem fatAddr_lt_data (hg : g.Consistent) (hf : f < g.numFats) (hc : c < 128 * g.fatSize) :
    fatAddr g f c + 4 ≤ 512 * g.dataStartLba := by
  have hcopies : (f + 1) * g.fatSize ≤ g.numFats * g.fatSize := Nat.mul_le_mul_right _ hf
  rw [Nat.succ_mul] at hcopies
  rw [hg.data_start, fatAddr]
  omega

/-- The data area does not reach into the FATs. -/
theorem fatKept_of_data (hg : g.Consistent)
    (hsame : ∀ i < 512 * g.dataStartLba, disk' i = disk i) : FatKept g disk disk' := by
  have hentry : ∀ f < g.numFats, ∀ c < 128 * g.fatSize,
      fatEntry g disk' f c = fatEntry g disk f c := by
    intro f hf c hc
    have hlt := hg.fatAddr_lt_data hf hc
    exact readLE_congr fun i _ hi ↦ hsame i (by omega)
  refine ⟨fun hm f hf c hc ↦ ?_, fun f hf c hc ↦ by rw [hentry f hf c hc], fun f hf c hc ↦ ?_⟩
  · rw [hentry f hf c hc, hentry 0 hg.fats_pos c hc]
    exact hm f hf c hc
  · exact hentry f hf c (hg.hasEntry (by omega)).1

theorem fatKept_putLinks (hg : g.Consistent) (hlo : 2 ≤ c) (hhi : c < g.totalClusters + 2)
    (x : ℕ) (disk : Bytes) : FatKept g disk (putLinks g c x g.numFats 0 disk) := by
  have hc := (hg.hasEntry hhi).1
  have hentry : ∀ f < g.numFats, ∀ c' < 128 * g.fatSize,
      fatEntry g (putLinks g c x g.numFats 0 disk) f c' =
        if c' = c then fatWord (fatEntry g disk f c') x else fatEntry g disk f c' := by
    intro f hf c' hc'
    rw [fatEntry_putLinks hc hc']
    simp [hf]
  refine ⟨fun hm f hf c' hc' ↦ ?_, fun f hf c' hc' ↦ ?_, fun f hf c' hc' ↦ ?_⟩
  · rw [hentry f hf c' hc', hentry 0 hg.fats_pos c' hc']
    split_ifs
    · rw [fatWord_mod, fatWord_mod]
    · exact hm f hf c' hc'
  · rw [hentry f hf c' hc']
    split_ifs
    · exact fatWord_div _ _ (read32_lt _ _)
    · rfl
  · rw [hentry f hf c' (by omega), if_neg (by omega)]

/-- A write to a cluster leaves everything before the data area alone. -/
theorem write_disk (hg : g.Consistent) (hc : hg.bounds.cluster c) {s n i : ℕ}
    (hs : s + n ≤ g.sectorsPerCluster) (v : Vol) (buf : Bytes) (hi : i < 512 * g.dataStartLba) :
    (v.ataWrite (Word.add (clusterToLba g c) s) n buf).2.ata.disk i = v.ata.disk i := by
  have hlba := hg.clusterToLba_eq hc.1 hc.2
  have hend := hg.cluster_end hc.1 hc.2
  refine Ata.ataWrite_disk _ n buf v.ata (Or.inl ?_)
  rw [Word.add_eq (by omega), hlba]
  omega

end Geometry.Consistent

/-- A relation between disks holds across acts on clusters of the volume if it holds across a
link that is set in every copy and across a change of the data area. -/
theorem Acts.disk_rule {R : Bytes → Bytes → Prop} (hg : g.Consistent)
    (htrans : ∀ {disk disk' disk''}, R disk disk' → R disk' disk'' → R disk disk'')
    (hlink : ∀ c x disk, hg.bounds.cluster c → R disk (putLinks g c x g.numFats 0 disk))
    (hdata : ∀ {disk disk'}, (∀ i < 512 * g.dataStartLba, disk' i = disk i) → R disk disk')
    (hgeo : v.geo = g) (hv : v.ata.Reliable) (h : Acts W hg.bounds v v') :
    R v.ata.disk v'.ata.disk := by
  have hsame : ∀ disk, R disk disk := fun disk ↦ hdata fun _ _ ↦ rfl
  induction h with
  | refl => exact hsame _
  | @tail u _ hacts hact ih =>
      have hlater := Acts.later hacts
      have hu : u.ata.Reliable := by
        intro k
        rw [hlater.ready]
        exact hv k
      refine htrans ih ?_
      cases hact with
      | read lba n buf =>
          have hdisk : (u.ataRead lba n buf).2.2.ata.disk = u.ata.disk :=
            (Ata.ataRead_frame lba n buf u.ata).1
          rw [hdisk]
          exact hsame _
      | @next c _ =>
          rw [(nextCluster_quiet u c).disk]
          exact hsame _
      | @link c x _ hc =>
          obtain rfl := hlater.geo.trans hgeo
          obtain ⟨k, hcopies⟩ := setFatCopies_spec (x := x) hg.fatsInRange hu
            (hg.hasEntry hc.2) u.geo.numFats 0 (Nat.zero_add _)
          simp only [setFatEntry, hcopies]
          exact hlink c x u.ata.disk hc
      | write buf _ hc hs => exact hdata fun i hi ↦ hg.write_disk hc hs u buf hi
      | hint _ _ => exact hsame _
      | cwd _ => exact hsame _

theorem Acts.fatKept (hg : g.Consistent) (hgeo : v.geo = g) (hv : v.ata.Reliable)
    (h : Acts W hg.bounds v v') : FatKept g v.ata.disk v'.ata.disk :=
  h.disk_rule hg .trans (fun _ x disk hc ↦ hg.fatKept_putLinks hc.1 hc.2 x disk)
    hg.fatKept_of_data hgeo hv

/-! ## Runs -/

/-- A call all of whose start clusters and links are clusters of the volume or marks. -/
def RangedStep (v w : Vol) : Prop :=
  ∃ req : Request, req.Follows (fun c ↦ 2 ≤ c ∧ c < v.geo.totalClusters + 2) v ∧
    req.run v = .done w

theorem fatKept_of_run (hg : g.Consistent) (hgeo : v.geo = g) (hv : v.ata.Reliable)
    (hh : v.allocHint ≤ g.totalClusters + 2) (hrun : Relation.ReflTransGen RangedStep v w) :
    w.geo = g ∧ w.ata.Reliable ∧ w.allocHint ≤ g.totalClusters + 2 ∧
      FatKept g v.ata.disk w.ata.disk := by
  induction hrun with
  | refl => exact ⟨hgeo, hv, hh, .refl g _⟩
  | @tail u w _ hstep ih =>
      obtain ⟨rfl, hu, hh, hkept⟩ := ih
      obtain ⟨req, hfollows, hreq⟩ := hstep
      have hacts : Acts True hg.bounds u w := req.acts (fun _ ↦ trivial) rfl hh hfollows hreq
      refine ⟨hacts.later.geo, fun k ↦ ?_, hacts.hint hh, hkept.trans (hacts.fatKept hg rfl hu)⟩
      rw [hacts.later.ready]
      exact hu k

/-- On a drive without failures, after every run of calls that follow clusters of the volume
only, the copies of the FAT agree if they did before, and the upper bits of all entries and the
first two entries are what they were. -/
theorem fats_stay_mirrored (hgeo : v.geo.Consistent) (hv : v.ata.Reliable)
    (hhint : v.allocHint ≤ v.geo.totalClusters + 2) (hmirrored : Mirrored v.geo v.ata.disk)
    (hrun : Relation.ReflTransGen RangedStep v w) :
    w.geo = v.geo ∧ Mirrored v.geo w.ata.disk ∧
      (∀ f < v.geo.numFats, ∀ c < 128 * v.geo.fatSize,
        fatEntry v.geo w.ata.disk f c / 2 ^ 28 = fatEntry v.geo v.ata.disk f c / 2 ^ 28) ∧
      ∀ f < v.geo.numFats, ∀ c < 2,
        fatEntry v.geo w.ata.disk f c = fatEntry v.geo v.ata.disk f c := by
  obtain ⟨hsame, -, -, hkept⟩ := fatKept_of_run hgeo rfl hv hhint hrun
  exact ⟨hsame, hkept.mirrored hmirrored, hkept.top, hkept.reserved⟩

/-- Three one-sector clusters behind two copies of the FAT, one sector each. -/
def twinGeometry : Geometry := { smallGeometry 3 with numFats := 2, dataStartLba := 3 }

theorem twinGeometry_consistent : twinGeometry.Consistent :=
  ⟨by decide, by decide, by decide, by decide, by decide, by decide⟩

/-- A volume whose root holds the file `A` in cluster 3. -/
def twinVol (ready : ℕ → Bool) : Vol where
  geo := twinGeometry
  cwdCluster := 2
  allocHint := 2
  mounted := true
  fatSectorBuf := blank
  fatSectorCachedLba := noLba
  ata :=
    { disk := ((((blank.write32 520 0x0FFFFFFF).write32 524 0x0FFFFFFF).write32 1032
        0x0FFFFFFF).write32 1036 0x0FFFFFFF).blit 1536 32 (newDirent (padTo 11 [0x41]) 0x20 3 512)
      polls := 0
      ready := ready }

/-- The search for `A` ends in cluster 2 and the chain of `A` in cluster 3. -/
theorem twinVol_follows : (Request.change (.remove [0x41])).Follows
    (fun c ↦ 2 ≤ c ∧ c < twinGeometry.totalClusters + 2) (twinVol fun _ ↦ true) := by
  have hends :
      scanBody (searchVisit (toShortName [0x41])) none 2 (twinVol fun _ ↦ true) = none := by
    rw [← Option.isNone_iff_eq_none]
    decide +kernel
  have hsearch : (searchDir (twinVol fun _ ↦ true) 2 (toShortName [0x41])).value?.map
      (fun x ↦ x.1.map fun look ↦ (look.entry.start, (nextCluster x.2 look.entry.start).1)) =
      some (some (3, 0x0FFFFFFF)) := by decide +kernel
  refine ⟨fun _ ↦ ⟨by decide, ?_⟩, fun look v₁ hfound _ _ ↦ ?_⟩
  · intro x hx
    cases hends.symm.trans hx
  · have hfound : searchDir (twinVol fun _ ↦ true) 2 (toShortName [0x41]) =
      .done (some look, v₁) := hfound
    rw [hfound] at hsearch
    simp only [Outcome.value?, Option.map_some, Option.some.injEq, Prod.mk.injEq] at hsearch
    obtain ⟨hstart, hnext⟩ := hsearch
    rw [hstart] at hnext
    rw [hstart]
    refine fun _ ↦ ⟨by decide, ?_⟩
    rintro x ⟨⟩
    dsimp only
    rw [hnext]
    exact fun hgoes ↦ absurd (by decide) hgoes.1

/-- The file `A` is removed: its entry is cleared in the second copy too. -/
theorem fats_stay_mirrored_remove : ∃ w,
    (Request.change (.remove [0x41])).run (twinVol fun _ ↦ true) = .done w ∧
      fatEntry twinGeometry w.ata.disk 1 3 = 0 ∧ Mirrored twinGeometry w.ata.disk := by
  have hcall : ((Request.change (.remove [0x41])).run (twinVol fun _ ↦ true)).value?.map
      (fun w ↦ fatEntry twinGeometry w.ata.disk 1 3) = some 0 := by decide +kernel
  obtain ⟨w, hvalue, hentry⟩ := Option.map_eq_some_iff.mp hcall
  have hrun := Outcome.value?_eq_some.mp hvalue
  have hmirrored : Mirrored (twinVol fun _ ↦ true).geo (twinVol fun _ ↦ true).ata.disk := by
    unfold Mirrored
    decide +kernel
  obtain ⟨-, hmirror, -⟩ := fats_stay_mirrored twinGeometry_consistent (fun _ ↦ rfl) (by decide)
    hmirrored (.single ⟨_, twinVol_follows, hrun⟩)
  exact ⟨w, hrun, hentry, hmirror⟩

end MyOS.Fat32
