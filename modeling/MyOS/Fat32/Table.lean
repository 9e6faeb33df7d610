import MyOS.Fat32.Cache

/-!
# The FAT as a table of links

What `alloc_cluster` and `free_chain` do does not depend on the directories.  On a drive without
failures the first copy of the FAT is a table of links, whatever it holds.  The allocation finds
a zero in the table if there is one.  The release of a chain clears one entry after the other
and stops at the first one that is zero already, so it ends on cycles too.
-/

namespace MyOS.Fat32

open Bytes

variable {g : Geometry} {disk : Bytes} {v v' : Vol} {c c' s x : ℕ}

/-- The word in which `next_cluster` looks for the link of cluster `c`, without its upper bits. -/
def link (g : Geometry) (disk : Bytes) (c : ℕ) : ℕ :=
  disk.read32 (512 * fatSector g c + Word.mul c 4 % 512) % 2 ^ 28

theorem link_lt (g : Geometry) (disk : Bytes) (c : ℕ) : link g disk c < 2 ^ 28 :=
  Nat.mod_lt _ (by norm_num)

theorem link_eq (hg : g.FatsInRange) (hc : g.HasEntry c) :
    link g disk c = fatEntry g disk 0 c % 2 ^ 28 := by
  obtain ⟨-, -, haddr, -⟩ := hg.fatSector_eq hc
  rw [link, haddr, fatEntry]

/-- A volume with any contents on a drive without failures. -/
structure Vol.Served (v : Vol) : Prop where
  reliable : v.ata.Reliable
  cache : Coherent v

namespace Vol.Served

theorem nextCluster (h : v.Served) (hlt : fatSector v.geo c < 2 ^ 28) :
    ∃ v', nextCluster v c = (link v.geo v.ata.disk c, v') ∧ v'.Served ∧ Quiet v v' := by
  have hmask := Nat.and_two_pow_sub_one_eq_mod
    (v.ata.disk.read32 (512 * fatSector v.geo c + Word.mul c 4 % 512)) 28
  have hoff : Word.mul c 4 % 512 + 4 ≤ 512 := by
    rw [Word.mul]
    omega
  rw [nextCluster_any v hlt, link, ← hmask, if_pos (h.reliable v.ata.polls)]
  by_cases hhit : fatSector v.geo c = v.fatSectorCachedLba
  · rw [if_pos hhit]
    refine ⟨v, Prod.ext ?_ rfl, h, .refl v⟩
    rcases h.cache with hno | hbuf
    · rw [hhit, hno, noLba] at hlt
      omega
    · rw [← hhit] at hbuf
      simp only [read32, readLE_window hbuf hoff]
  · rw [if_neg hhit]
    refine ⟨_, Prod.ext ?_ rfl, ⟨h.reliable, Or.inr (sectorOf_apply _ _ _)⟩,
      ⟨⟨rfl, rfl, rfl⟩, rfl, rfl⟩⟩
    simp only [read32, readLE_window (sectorOf_apply _ _ _) hoff]

theorem setFatEntry (h : v.Served) (hg : v.geo.FatsInRange) (hc : v.geo.HasEntry c) (x : ℕ) :
    ∃ v', setFatEntry v c x = (true, v') ∧ v'.Served ∧ Keeps v v' ∧ v'.allocHint = v.allocHint ∧
      v'.ata.disk = putLinks v.geo c x v.geo.numFats 0 v.ata.disk := by
  obtain ⟨k, hcopies⟩ := setFatCopies_spec (x := x) hg h.reliable hc v.geo.numFats 0
    (Nat.zero_add _)
  simp only [MyOS.Fat32.setFatEntry, hcopies]
  exact ⟨_, rfl, ⟨h.reliable, Or.inl rfl⟩, ⟨rfl, rfl, rfl⟩, rfl, rfl⟩

end Vol.Served

/-- One entry has been changed in every copy. -/
theorem fatEntry_set (hc : g.HasEntry c) (hc' : c' < 128 * g.fatSize) {f : ℕ} (hf : f < g.numFats) :
    fatEntry g (putLinks g c x g.numFats 0 disk) f c' =
      if c' = c then fatWord (fatEntry g disk f c') x else fatEntry g disk f c' := by
  rw [fatEntry_putLinks hc.1 hc']
  simp [hf]

/-! ## Allocation -/

/-- The clusters of the volume have entries in the FAT. -/
structure Geometry.Tabled (g : Geometry) : Prop extends g.FatsInRange where
  covers : g.totalClusters + 2 ≤ 128 * g.fatSize
  total_lt : g.totalClusters < 2 ^ 27

theorem Geometry.Tabled.hasEntry (hg : g.Tabled) (hc : c < g.totalClusters + 2) : g.HasEntry c := by
  have hcovers := hg.covers
  have htotal := hg.total_lt
  constructor <;> omega

theorem allocLoop_served (h : v.Served) (hg : v.geo.Tabled) (hlo : 2 ≤ v.allocHint)
    (hhi : v.allocHint ≤ v.geo.totalClusters + 2) :
    ∃ c v', allocLoop v.geo.totalClusters 0 v = (c, v') ∧ 2 ≤ v'.allocHint ∧
      v'.allocHint ≤ v.geo.totalClusters + 2 ∧
      (c = 0 ∧ v'.ata.disk = v.ata.disk ∧
          (∀ x, 2 ≤ x → x < v.geo.totalClusters + 2 → link v.geo v.ata.disk x ≠ 0) ∨
        2 ≤ c ∧ c < v.geo.totalClusters + 2 ∧ link v.geo v.ata.disk c = 0 ∧
          v'.ata.disk = putLinks v.geo c 0x0FFFFFFF v.geo.numFats 0 v.ata.disk) := by
  have htotal := hg.total_lt
  rcases allocLoop_search (P := fun w ↦ w.Served ∧ Quiet v w) (t := link v.geo v.ata.disk)
    (by rw [badCluster]; omega) hlo hhi (fun w hw ↦ ⟨by rw [hw.2.geo], hw.2.hint⟩)
    (fun w c hw _ hc ↦ by
      obtain ⟨-, hlt, -⟩ := hg.fatSector_eq (hg.hasEntry hc)
      rw [← hw.2.geo] at hlt
      obtain ⟨v', hnext, hv', hquiet⟩ := hw.1.nextCluster hlt
      rw [hw.2.geo, hw.2.disk] at hnext
      exact ⟨v', hnext, hv', hw.2.trans hquiet⟩)
    ⟨h, .refl v⟩ v.geo.totalClusters 0 rfl (fun j hj ↦ absurd hj (Nat.not_lt_zero j)) with
    ⟨v', hloop, ⟨-, hquiet⟩, hfull⟩ | ⟨c, v₁, hclo, hchi, hfree, ⟨hv₁, hquiet⟩, hloop⟩
  · refine ⟨0, v', hloop, ?_, ?_, Or.inl ⟨rfl, hquiet.disk, hfull⟩⟩
    · rwa [hquiet.hint]
    · rwa [hquiet.hint]
  · obtain ⟨v₂, hset, -, -, -, hdisk⟩ := hv₁.setFatEntry (c := c) (hquiet.geo ▸ hg.toFatsInRange)
      (hquiet.geo ▸ hg.hasEntry hchi) 0x0FFFFFFF
    simp only [takeCluster, hset] at hloop
    rw [hquiet.geo, hquiet.disk] at hdisk
    refine ⟨_, _, hloop, ?_, ?_, Or.inr ⟨hclo, hchi, hfree, hdisk⟩⟩
    · simp only
      rw [Word.add_eq (by omega)]
      omega
    · simp only
      rw [Word.add_eq (by omega)]
      omega

/-- The allocation of a cluster, for every contents of the FAT: it answers 0 exactly if no entry
is free, and otherwise it takes a free entry and changes nothing else. -/
theorem allocation_exact (h : v.Served) (hg : v.geo.Tabled) (htotal : 1 ≤ v.geo.totalClusters)
    (hhint : v.allocHint ≤ v.geo.totalClusters + 2) :
    ∃ c v', allocCluster v = (c, v') ∧
      (c = 0 ↔ ∀ x, 2 ≤ x → x < v.geo.totalClusters + 2 →
        fatEntry v.geo v.ata.disk 0 x % 2 ^ 28 ≠ 0) ∧
      (c = 0 → v'.ata.disk = v.ata.disk) ∧
      (c ≠ 0 → 2 ≤ c ∧ c < v.geo.totalClusters + 2 ∧
        fatEntry v.geo v.ata.disk 0 c % 2 ^ 28 = 0 ∧
        (∀ f < v.geo.numFats, fatEntry v.geo v'.ata.disk f c % 2 ^ 28 = 0x0FFFFFFF ∧
          fatEntry v.geo v'.ata.disk f c / 2 ^ 28 = fatEntry v.geo v.ata.disk f c / 2 ^ 28) ∧
        ∀ f < v.geo.numFats, ∀ x < 128 * v.geo.fatSize, x ≠ c →
          fatEntry v.geo v'.ata.disk f x = fatEntry v.geo v.ata.disk f x) ∧
      2 ≤ v'.allocHint ∧ v'.allocHint ≤ v.geo.totalClusters + 2 := by
  have hloop : ∃ w, w.Served ∧ w.geo = v.geo ∧ w.ata = v.ata ∧ 2 ≤ w.allocHint ∧
      w.allocHint ≤ w.geo.totalClusters + 2 ∧
      allocCluster v = allocLoop w.geo.totalClusters 0 w := by
    rw [allocCluster, if_neg (by omega)]
    by_cases hlow : v.allocHint < 2
    · rw [if_pos hlow]
      exact ⟨{ v with allocHint := 2 }, ⟨h.reliable, h.cache⟩, rfl, rfl, le_refl 2,
        by simp only; omega, rfl⟩
    · rw [if_neg hlow]
      exact ⟨v, h, rfl, rfl, by omega, hhint, rfl⟩
  obtain ⟨w, hw, hgeo, hata, hlo, hhi, hcall⟩ := hloop
  obtain ⟨c, v', hres, hlo', hhi', hc⟩ := allocLoop_served hw (hgeo ▸ hg) hlo hhi
  rw [hgeo, hata] at hc
  rw [hgeo] at hhi'
  have hlink : ∀ x, x < v.geo.totalClusters + 2 →
      link v.geo v.ata.disk x = fatEntry v.geo v.ata.disk 0 x % 2 ^ 28 :=
    fun x hx ↦ link_eq hg.toFatsInRange (hg.hasEntry hx)
  refine ⟨c, v', hcall.trans hres, ?_, ?_, ?_, hlo', hhi'⟩
  · rcases hc with ⟨rfl, -, hfull⟩ | ⟨hclo, hchi, hfree, -⟩
    · exact iff_of_true rfl fun x hx hxt ↦ hlink x hxt ▸ hfull x hx hxt
    · exact iff_of_false (by omega) fun hfull ↦ hfull c hclo hchi (hlink c hchi ▸ hfree)
  · rintro rfl
    rcases hc with ⟨-, hdisk, -⟩ | ⟨hclo, -⟩
    · exact hdisk
    · omega
  · intro hne
    rcases hc with ⟨rfl, -⟩ | ⟨hclo, hchi, hfree, hdisk⟩
    · exact absurd rfl hne
    · have hentry := hg.hasEntry hchi
      refine ⟨hclo, hchi, hlink c hchi ▸ hfree, fun f hf ↦ ?_, fun f hf x hx hxc ↦ ?_⟩
      · rw [hdisk, fatEntry_set hentry hentry.1 hf, if_pos rfl]
        exact ⟨fatWord_mod _ _, fatWord_div _ _ (read32_lt _ _)⟩
      · rw [hdisk, fatEntry_set hentry hx hf, if_neg hxc]

/-- Cluster 4 is the only free one, and the hint is behind the last cluster. -/
theorem allocation_exact_last :
    ∃ c v', allocCluster { twinVol fun _ ↦ true with allocHint := 5 } = (c, v') ∧ c ≠ 0 ∧
      2 ≤ v'.allocHint ∧ v'.allocHint ≤ 5 := by
  obtain ⟨c, v', hres, hzero, -, -, hlo, hhi⟩ :=
    allocation_exact (v := { twinVol fun _ ↦ true with allocHint := 5 }) ⟨fun _ ↦ rfl, Or.inl rfl⟩
      ⟨⟨by decide, by decide⟩, by decide, by decide⟩ (by decide) (by decide)
  refine ⟨c, v', hres, fun hc ↦ hzero.mp hc 4 (by decide) (by decide) ?_, hlo, hhi⟩
  decide +kernel

/-! ## Releasing a chain -/

/-- The loops along a chain stop at `c`. -/
def Ends (c : ℕ) : Prop := ¬(2 ≤ c ∧ ¬isEoc c)

instance (c : ℕ) : Decidable (Ends c) := inferInstanceAs (Decidable ¬_)

/-- The entries of the clusters in `L` have been cleared, in every copy. -/
def Cleared (g : Geometry) (disk disk' : Bytes) (L : List ℕ) : Prop :=
  ∀ f < g.numFats, ∀ x < 128 * g.fatSize, fatEntry g disk' f x =
    if x ∈ L then fatWord (fatEntry g disk f x) 0 else fatEntry g disk f x

theorem fatWord_zero_zero (old : ℕ) : fatWord (fatWord old 0) 0 = fatWord old 0 := by
  simp [fatWord, Nat.and_assoc]

section Clear

variable (hg : g.FatsInRange) (hc : g.HasEntry c)

include hg hc

end Clear

theorem Cleared.cons {disk' : Bytes} {L : List ℕ} (hc : g.HasEntry c)
    (h : Cleared g (putLinks g c 0 g.numFats 0 disk) disk' L) : Cleared g disk disk' (c :: L) := by
  intro f hf x hx
  rw [h f hf x hx, fatEntry_set hc hx hf]
  by_cases hxc : x = c
  · simp [hxc, fatWord_zero_zero]
  · simp [hxc]

/-- Word `j` from the start of the FAT on. -/
def tableWord (g : Geometry) (disk : Bytes) (j : ℕ) : ℕ :=
  disk.read32 (512 * g.fatStartLba + 4 * j)

/-- Words have been set to `x` or left alone. -/
def SetWords (g : Geometry) (x : ℕ) (disk disk' : Bytes) : Prop :=
  ∀ j, tableWord g disk' j = tableWord g disk j ∨ tableWord g disk' j % 2 ^ 28 = x % 2 ^ 28

theorem SetWords.trans {disk' disk'' : Bytes} (h : SetWords g x disk disk')
    (h' : SetWords g x disk' disk'') : SetWords g x disk disk'' := by
  intro j
  rcases h' j with hsame | hset
  · rw [hsame]
    exact h j
  · exact Or.inr hset

/-- Clusters 3 and 4 are a cycle. -/
def cycleVol : Vol := smallVol 3 [(2, 0x0FFFFFFF), (3, 4), (4, 3)] []

end MyOS.Fat32
