import MyOS.Fat32.Faults
import MyOS.Fat32.Mirror

/-!
# The FAT cache

`next_cluster` keeps the last sector of the FAT that it has read, and `set_fat_entry` drops it
when all copies have been written.  If it gives up before that, the first copy may be written
and the old sector kept.  In a run without such calls the cache is transparent.
-/

namespace MyOS.Fat32

open Bytes

variable {g : Geometry} {W : Prop} {u v v' w : Vol} {c : ℕ}

/-- No sector is cached, or the one that the disk has. -/
def Coherent (v : Vol) : Prop :=
  v.fatSectorCachedLba = noLba ∨
    ∀ i < 512, v.fatSectorBuf i = v.ata.disk (512 * v.fatSectorCachedLba + i)

/-- A coherent cache that a write to a cluster cannot make stale. -/
def Cached (v : Vol) : Prop :=
  v.fatSectorCachedLba = noLba ∨ v.fatSectorCachedLba < v.geo.dataStartLba ∧
    ∀ i < 512, v.fatSectorBuf i = v.ata.disk (512 * v.fatSectorCachedLba + i)

theorem Cached.coherent (h : Cached v) : Coherent v := h.imp_right And.right

/-! ## One link -/

theorem Geometry.FatsInRange.fatSector_eq (hg : g.FatsInRange) (hc : g.HasEntry c) :
    fatSector g c < g.fatStartLba + g.fatSize ∧ fatSector g c < 2 ^ 28 ∧
      512 * fatSector g c + Word.mul c 4 % 512 = fatAddr g 0 c ∧ Word.mul c 4 % 512 + 4 ≤ 512 := by
  obtain ⟨hlba, hlt, haddr, hoff⟩ := hg.fatLba_eq hg.fats_pos hc
  have hmul : Word.mul 0 g.fatSize = 0 := by simp [Word.mul]
  have hentry := hc.1
  rw [zero_mul, Nat.add_zero] at hlba hlt haddr
  rw [hmul, Word.add_eq (a := g.fatStartLba) (by omega), Nat.add_zero] at hlba
  rw [fatSector, hlba]
  exact ⟨by omega, hlt, haddr, hoff⟩

/-- With a coherent cache a link is the one on the disk, unless its sector cannot be read. -/
theorem Coherent.nextCluster_eq (h : Coherent v) (hg : v.geo.FatsInRange)
    (hc : v.geo.HasEntry c)
    (hread : fatSector v.geo c = v.fatSectorCachedLba ∨
      (v.ataRead (fatSector v.geo c) 1 v.fatSectorBuf).1 = true) :
    (nextCluster v c).1 = fatEntry v.geo v.ata.disk 0 c % 2 ^ 28 := by
  obtain ⟨-, hlt, haddr, hoff⟩ := hg.fatSector_eq hc
  have hmask := Nat.and_two_pow_sub_one_eq_mod (fatEntry v.geo v.ata.disk 0 c) 28
  rw [← hmask, nextCluster_any v hlt]
  by_cases hhit : fatSector v.geo c = v.fatSectorCachedLba
  · rw [if_pos hhit]
    rcases h with hno | hbuf
    · rw [hhit, hno, noLba] at hlt
      omega
    · rw [← hhit] at hbuf
      simp only [fatEntry, ← haddr, read32, readLE_window hbuf hoff]
  · rcases hread with hread | hread
    · exact absurd hread hhit
    · rw [v.readSector_any hlt] at hread
      dsimp only at hread
      rw [if_neg hhit, if_pos hread]
      simp only [fatEntry, ← haddr, read32, readLE_window (sectorOf_apply _ _ _) hoff]

/-! ## Acts -/

theorem Act.of_all {B : Bounds g} (h : Act W B v v') : Act True B v v' := by
  cases h with
  | read lba n buf => exact .read lba n buf
  | next hc => exact .next hc
  | link x _ hc => exact .link x trivial hc
  | write buf _ hc hs => exact .write buf trivial hc hs
  | hint _ hh => exact .hint trivial hh
  | cwd c => exact .cwd c

theorem Cached.congr (h : Cached v) (hgeo : v'.geo = v.geo)
    (hbuf : v'.fatSectorBuf = v.fatSectorBuf) (hlba : v'.fatSectorCachedLba = v.fatSectorCachedLba)
    (hdisk : ∀ i < 512 * v.geo.dataStartLba, v'.ata.disk i = v.ata.disk i) : Cached v' := by
  rw [Cached, hgeo, hbuf, hlba]
  refine h.imp_right fun ⟨hlow, hsame⟩ ↦ ⟨hlow, fun i hi ↦ ?_⟩
  rw [hsame i hi, hdisk _ (by omega)]

theorem Cached.nextCluster (h : Cached v) (hg : v.geo.Consistent)
    (hc : c < v.geo.totalClusters + 2) : Cached (nextCluster v c).2 := by
  obtain ⟨hlow, hlt, -⟩ := hg.fatsInRange.fatSector_eq (hg.hasEntry hc)
  have hcopy : 1 * v.geo.fatSize ≤ v.geo.numFats * v.geo.fatSize :=
    Nat.mul_le_mul_right _ hg.fats_pos
  have hdata : fatSector v.geo c < v.geo.dataStartLba := by
    rw [hg.data_start]
    omega
  rw [nextCluster_any v hlt]
  split_ifs
  · exact h
  · exact Or.inr ⟨hdata, sectorOf_apply _ _ _⟩
  · exact h.congr rfl rfl rfl fun _ _ ↦ rfl

/-- Setting an entry leaves the cache coherent, unless it ends between two copies. -/
theorem Cached.setFatEntry (h : Cached v) (hg : v.geo.Consistent)
    (hc : c < v.geo.totalClusters + 2) (x : ℕ)
    (hsafe : v.geo.numFats = 1 ∨ ¬Missed v (setFatEntry v c x).2) :
    Cached (setFatEntry v c x).2 := by
  obtain ⟨k, m, hk, hcopies, hmissed, -⟩ := setFatCopies_any hg.fatsInRange
    (hg.hasEntry hc) x v.geo.numFats 0 (Nat.zero_add _).le
  by_cases hall : k = v.geo.numFats
  · simp only [MyOS.Fat32.setFatEntry, hcopies, hall, decide_true]
    exact Or.inl rfl
  · have hlt : k < v.geo.numFats := lt_of_le_of_ne hk hall
    simp only [MyOS.Fat32.setFatEntry, hcopies, hall, decide_false] at hsafe ⊢
    rcases hsafe with hone | hfine
    · obtain rfl : k = 0 := by omega
      exact h.congr rfl rfl rfl fun _ _ ↦ rfl
    · exact absurd (hmissed hlt) hfine

theorem Act.cached (hg : g.Consistent) (hgeo : v.geo = g) (hv : Cached v)
    (hsafe : W → g.numFats = 1 ∨ ¬Missed v v') (h : Act W hg.bounds v v') : Cached v' := by
  subst hgeo
  cases h with
  | read lba n buf =>
      have hdisk : (v.ataRead lba n buf).2.2.ata.disk = v.ata.disk :=
        (Ata.ataRead_frame lba n buf v.ata).1
      exact hv.congr rfl rfl rfl fun i _ ↦ by rw [hdisk]
  | next hc => exact hv.nextCluster hg hc.2
  | link x hW hc => exact hv.setFatEntry hg hc.2 x (hsafe hW)
  | write buf _ hc hs => exact hv.congr rfl rfl rfl fun i hi ↦ hg.write_disk hc hs v buf hi
  | hint _ _ => exact hv.congr rfl rfl rfl fun _ _ ↦ rfl
  | cwd _ => exact hv.congr rfl rfl rfl fun _ _ ↦ rfl

/-- A call that does not end between two copies goes from one coherent state to the next. -/
theorem Acts.cached (hg : g.Consistent) (hgeo : v.geo = g) (hv : Cached v)
    (hsafe : W → g.numFats = 1 ∨ ¬Missed v v') (h : Acts W hg.bounds v v') :
    Cached v' ∧
      Relation.ReflTransGen (fun a b ↦ Act W hg.bounds a b ∧ Coherent b) v v' := by
  induction h with
  | refl => exact ⟨hv, .refl⟩
  | @tail u w hacts hact ih =>
      have hlater := Acts.later hacts
      rw [missed_iff hlater hact.later, not_or] at hsafe
      obtain ⟨hu, hpath⟩ := ih fun hW ↦ (hsafe hW).imp_right And.left
      have hw : Cached w := hact.cached hg (hlater.geo.trans hgeo) hu fun hW ↦
        (hsafe hW).imp_right And.right
      exact ⟨hw, hpath.tail ⟨hact, hw.coherent⟩⟩

/-! ## Runs -/

/-- A call that follows clusters of the volume and does not end between two copies of the FAT:
it only reads, or there is one copy, or no poll fails. -/
def WholeStep (v w : Vol) : Prop :=
  ∃ req : Request, req.Follows (fun c ↦ 2 ≤ c ∧ c < v.geo.totalClusters + 2) v ∧
    req.run v = .done w ∧ (req.ReadOnly ∨ v.geo.numFats = 1 ∨ ¬Missed v w)

theorem WholeStep.acts (hg : g.Consistent) (hgeo : v.geo = g) (hv : Cached v)
    (hh : v.allocHint ≤ g.totalClusters + 2) (hstep : WholeStep v w) :
    Later v w ∧ w.allocHint ≤ g.totalClusters + 2 ∧ Cached w ∧
      Relation.ReflTransGen (fun a b ↦ Act True hg.bounds a b ∧ Coherent b) v w := by
  subst hgeo
  obtain ⟨req, hfollows, hreq, hsafe⟩ := hstep
  have hacts : Acts (¬req.ReadOnly) hg.bounds v w :=
    req.acts (fun hchange ↦ hchange) rfl hh hfollows hreq
  obtain ⟨hw, hpath⟩ := hacts.cached hg rfl hv fun hchange ↦ hsafe.resolve_left hchange
  refine ⟨hacts.later, hacts.hint hh, hw, ?_⟩
  exact Relation.ReflTransGen.mono (fun _ _ hab ↦ ⟨hab.1.of_all, hab.2⟩) _ _ hpath

theorem cached_of_run (hg : g.Consistent) (hgeo : v.geo = g) (hv : Cached v)
    (hh : v.allocHint ≤ g.totalClusters + 2) (hrun : Relation.ReflTransGen WholeStep v w) :
    w.geo = g ∧ w.allocHint ≤ g.totalClusters + 2 ∧ Cached w := by
  induction hrun with
  | refl => exact ⟨hgeo, hh, hv⟩
  | tail _ hstep ih =>
      obtain ⟨hu, hh, hcached⟩ := ih
      obtain ⟨hlater, hh', hw, -⟩ := hstep.acts hg hu hcached hh
      exact ⟨hlater.geo.trans hu, hh', hw⟩

/-- In every state that a run of such calls reaches, and in every state between two acts of such
a call, the cache is coherent, and links are those of the first copy of the FAT. -/
theorem cache_stays_coherent (hgeo : v.geo.Consistent) (hcache : v.fatSectorCachedLba = noLba)
    (hhint : v.allocHint ≤ v.geo.totalClusters + 2)
    (hrun : Relation.ReflTransGen WholeStep v w) :
    Coherent w ∧
      (∀ c < 128 * v.geo.fatSize, c < 2 ^ 28 →
        (fatSector v.geo c = w.fatSectorCachedLba ∨
          (w.ataRead (fatSector v.geo c) 1 w.fatSectorBuf).1 = true) →
        (nextCluster w c).1 = fatEntry v.geo w.ata.disk 0 c % 2 ^ 28) ∧
      ∀ u, WholeStep w u →
        Relation.ReflTransGen (fun a b ↦ Act True hgeo.bounds a b ∧ Coherent b) w u := by
  obtain ⟨hsame, hh, hw⟩ := cached_of_run hgeo rfl (Or.inl hcache) hhint hrun
  refine ⟨hw.coherent, fun c hc hsmall hread ↦ ?_, fun u hstep ↦ ?_⟩
  · rw [← hsame] at hc hread ⊢
    exact hw.coherent.nextCluster_eq (hsame ▸ hgeo.fatsInRange) ⟨hc, hsmall⟩ hread
  · exact (hstep.acts hgeo hsame hw hh).2.2.2

/-- The file `A` is removed on a drive without failures. -/
theorem cache_stays_coherent_remove : ∃ w,
    (Request.change (.remove [0x41])).run (twinVol fun _ ↦ true) = .done w ∧ Coherent w := by
  have hcall : ((Request.change (.remove [0x41])).run (twinVol fun _ ↦ true)).value?.map
      (fun w ↦ fatEntry twinGeometry w.ata.disk 1 3) = some 0 := by decide +kernel
  obtain ⟨w, hvalue, -⟩ := Option.map_eq_some_iff.mp hcall
  have hrun := Outcome.value?_eq_some.mp hvalue
  obtain ⟨hcoherent, -⟩ := cache_stays_coherent twinGeometry_consistent rfl (by decide)
    (.single ⟨_, twinVol_follows, hrun, Or.inr (Or.inr fun ⟨_, _, _, hready⟩ ↦ nomatch hready)⟩)
  exact ⟨w, hrun, hcoherent⟩

/-- The second copy of the FAT cannot be read when a directory takes cluster 4.  The entry in
the first copy is set, and the cached sector still has the cluster free. -/
theorem cache_of_torn_entry : ∃ w,
    (Request.change (.mkdir [0x42])).run (twinVol fun k ↦ k ≠ 5) = .done w ∧ ¬Coherent w ∧
      (nextCluster w 4).1 = 0 ∧ fatEntry twinGeometry w.ata.disk 0 4 = 0x0FFFFFFF := by
  have hcall : ((Request.change (.mkdir [0x42])).run (twinVol fun k ↦ k ≠ 5)).value?.map
      (fun w ↦ (decide (w.fatSectorCachedLba = noLba), w.fatSectorBuf 16,
        w.ata.disk (512 * w.fatSectorCachedLba + 16), (nextCluster w 4).1,
        fatEntry twinGeometry w.ata.disk 0 4)) =
      some (false, 0, 0xFF, 0, 0x0FFFFFFF) := by decide +kernel
  obtain ⟨w, hvalue, hstate⟩ := Option.map_eq_some_iff.mp hcall
  simp only [Prod.mk.injEq] at hstate
  obtain ⟨hlba, hbuf, hdisk, hnext, hentry⟩ := hstate
  refine ⟨w, Outcome.value?_eq_some.mp hvalue, ?_, hnext, hentry⟩
  rintro (hno | hsame)
  · exact of_decide_eq_false hlba hno
  · have hbyte := hsame 16 (by norm_num)
    rw [hbuf, hdisk] at hbyte
    exact absurd hbyte (by decide)

end MyOS.Fat32
