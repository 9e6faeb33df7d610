import MyOS.Fat32.Polls
import MyOS.Fat32.Requests

/-!
# A drive that stops

The power of the drive goes off at some poll, and no sector is read or written from then on.  Up
to that poll a call does what it does on a drive that works; what it does afterwards leaves the
disk alone.  So the disk that a call leaves on such a drive is the one on which the call was
interrupted, between two of its writes.
-/

namespace MyOS.Fat32

variable {v v' : Vol} {n c fuel : ℕ}

/-- The volume on a drive that works up to poll `n` and no longer. -/
def Vol.cut (v : Vol) (n : ℕ) : Vol :=
  { v with ata := { v.ata with ready := fun k ↦ decide (k < n) } }

/-! ## After the last poll -/

/-- No poll to come succeeds. -/
def Vol.Dead (v : Vol) : Prop := ∀ k, v.ata.polls ≤ k → v.ata.ready k = false

theorem Vol.Dead.later (h : v.Dead) (hlater : Later v v') : v'.Dead := by
  intro k hk
  rw [hlater.ready]
  exact h k (hlater.polls.trans hk)

/-- A drive that has failed once stays off. -/
theorem dead_of_missed (h : Missed (v.cut n) v') (hlater : Later (v.cut n) v') : v'.Dead := by
  obtain ⟨j, -, hj, hready⟩ := h
  intro k hk
  rw [hlater.ready]
  have hn : ¬j < n := of_decide_eq_false hready
  exact decide_eq_false (by omega)

theorem dead_of_le (hlater : Later (v.cut n) v') (hn : n ≤ v'.ata.polls) : v'.Dead := by
  intro k hk
  rw [hlater.ready]
  exact decide_eq_false (by omega)

theorem Vol.Dead.ataRead (h : v.Dead) (lba : ℕ) (buf : Bytes) :
    (v.ataRead lba 1 buf).1 = false := Ata.ataRead_dead lba buf v.ata (h _ (le_refl _))

theorem Vol.Dead.ataWrite (h : v.Dead) (lba n : ℕ) (buf : Bytes) :
    (v.ataWrite lba n buf).2.ata.disk = v.ata.disk :=
  Ata.ataWrite_dead lba n buf v.ata (h _ (le_refl _))

theorem Vol.Dead.setFatCopies (h : v.Dead) (c x n f : ℕ) :
    (setFatCopies c x n f v).2.ata.disk = v.ata.disk := by
  cases n with
  | zero => rfl
  | succ n =>
      rw [MyOS.Fat32.setFatCopies]
      generalize Word.add (Word.add v.geo.fatStartLba (Word.mul f v.geo.fatSize))
        (Word.mul c 4 / 512) = lba
      have hread := h.ataRead lba blank
      have hdisk := (ataRead_quiet v lba 1 blank).disk
      rcases hres : v.ataRead lba 1 blank with ⟨_ | _, buf, v₁⟩
      · rw [hres] at hdisk
        exact hdisk
      · rw [hres] at hread
        cases hread

section Acts

variable {g : Geometry} {W : Prop} {B : Bounds g}

theorem Act.inert (h : Act W B v v') (hdead : v.Dead) : v'.ata.disk = v.ata.disk := by
  cases h with
  | read lba n buf => exact (ataRead_quiet v lba n buf).disk
  | next _ => exact (nextCluster_quiet v _).disk
  | @link c x _ _ =>
      obtain ⟨ok, v₁, hcopies, -, hset⟩ := setFatEntry_cases v c x
      have hdisk := hdead.setFatCopies c x v.geo.numFats 0
      rw [hcopies] at hdisk
      rw [hset]
      split_ifs
      · exact hdisk
      · exact hdisk
  | write buf _ _ _ => exact hdead.ataWrite _ _ buf
  | hint _ _ => rfl
  | cwd c => rfl

theorem Acts.inert (h : Acts W B v v') (hdead : v.Dead) : v'.ata.disk = v.ata.disk := by
  induction h with
  | refl => rfl
  | tail hacts hact ih => exact (hact.inert (hdead.later (Acts.later hacts))).trans ih

end Acts

/-- A chain that is freed on a dead drive stays. -/
theorem freeLoop_inert (hrun : freeLoop fuel c v = .done v') (hdead : v.Dead) :
    Later v v' ∧ v'.ata.disk = v.ata.disk := by
  have hacts : Acts True (Bounds.all v.geo) v v' :=
    freeLoop_acts trivial (follows_of_forall (fun _ ↦ trivial) _ _ _) hrun
  exact ⟨Acts.later hacts, Acts.inert hacts hdead⟩

theorem freeChain_inert (hrun : freeChain v c = .done v') (hdead : v.Dead) :
    Later v v' ∧ v'.ata.disk = v.ata.disk := freeLoop_inert hrun hdead

theorem patchSector_inert (hdead : v.Dead) (lba off n : ℕ) (src : Bytes) :
    Quiet v (patchSector v lba off n src).2 := by
  have hread := hdead.ataRead lba blank
  have hquiet := ataRead_quiet v lba 1 blank
  rw [patchSector]
  rcases hres : v.ataRead lba 1 blank with ⟨_ | _, sec, v₁⟩
  · rw [hres] at hquiet
    exact hquiet
  · rw [hres] at hread
    cases hread

theorem markDeleted_inert (hdead : v.Dead) (lba offset : ℕ) :
    Quiet v (markDeleted v lba offset).2 := patchSector_inert hdead lba offset 1 _

theorem writeDirent_inert (hdead : v.Dead) (lba offset : ℕ) (e : Dirent) :
    Quiet v (writeDirent v lba offset e).2 := patchSector_inert hdead lba offset 32 e

/-- A scan on a dead drive fails in its first sector. -/
theorem scanLoop_inert {ρ : Type} (visit : DirLookup → Option ρ) (onFail onEnd : ρ)
    (hdead : v.Dead) (hg : v.geo.Consistent) (hlo : 2 ≤ c) (hhi : c < v.geo.totalClusters + 2)
    (hfuel : 0 < fuel) :
    ∃ v', scanLoop visit onFail onEnd fuel c v = .done (onFail, v') ∧ Quiet v v' := by
  have heoc : isEoc c = false := Image.not_isEoc (I := v.image) hg.total_small hhi
  have hspc := hg.spc_pos
  obtain ⟨m, hm⟩ : ∃ m, v.geo.sectorsPerCluster = m + 1 := ⟨v.geo.sectorsPerCluster - 1, by omega⟩
  obtain ⟨fuel, rfl⟩ : ∃ k, fuel = k + 1 := ⟨fuel - 1, by omega⟩
  have hread := hdead.ataRead (Word.add (clusterToLba v.geo c) 0) blank
  have hquiet := ataRead_quiet v (Word.add (clusterToLba v.geo c) 0) 1 blank
  have hsectors : scanSectors visit onFail (clusterToLba v.geo c) (m + 1) 0 v =
      (some onFail, (v.ataRead (Word.add (clusterToLba v.geo c) 0) 1 blank).2.2) := by
    rw [scanSectors]
    rcases hres : v.ataRead (Word.add (clusterToLba v.geo c) 0) 1 blank with ⟨_ | _, sec, v₁⟩
    · rfl
    · rw [hres] at hread
      cases hread
  refine ⟨_, ?_, hquiet⟩
  rw [scanLoop, if_pos ⟨by simp [heoc], hlo⟩, hm, hsectors]

/-! ## Up to the last poll -/

section Follows

variable {ρ : Type} {visit : DirLookup → Option ρ} {onFail onEnd r : ρ} (hv : v.ata.Reliable)

include hv

theorem samePolls_cut (hn : v'.ata.polls ≤ n) : SamePolls (fun k ↦ decide (k < n)) v v' := by
  intro k _ hk
  rw [hv k]
  exact decide_eq_true (hk.trans_le hn)

theorem nextCluster_cut (hn : (nextCluster v c).2.ata.polls ≤ n) :
    nextCluster (v.cut n) c = ((nextCluster v c).1, (nextCluster v c).2.cut n) := by
  obtain ⟨-, hsame⟩ := nextCluster_alike (fun k ↦ decide (k < n)) v c _ rfl
  exact Outcome.done.inj (hsame (samePolls_cut hv hn))

theorem scanLoop_cut (hrun : scanLoop visit onFail onEnd fuel c v = .done (r, v'))
    (hn : v'.ata.polls ≤ n) :
    scanLoop visit onFail onEnd fuel c (v.cut n) = .done (r, v'.cut n) := by
  obtain ⟨-, hsame⟩ := scanLoop_alike (fun k ↦ decide (k < n)) v visit onFail onEnd fuel c _ hrun
  exact hsame (samePolls_cut hv hn)

end Follows

/-! ## The first link of a chain -/

theorem Vol.Trusts.cut {S : Set ℕ} (h : v.Trusts S) (n : ℕ) : (v.cut n).Trusts S :=
  ⟨h.mounted, h.geo, h.hint, h.cache⟩

/-- With two polls left an entry of the FAT is set in the first copy. -/
theorem setFatEntry_first (hg : v.geo.Consistent) (hc : c < v.geo.totalClusters + 2)
    (hread : v.ata.ready v.ata.polls = true) (hwrite : v.ata.ready (v.ata.polls + 1) = true) :
    (setFatEntry v c 0).2.image = v.image.setFat c 0 ∧
      v.ata.polls + 2 ≤ (setFatEntry v c 0).2.ata.polls := by
  obtain ⟨k, m, hk, hcopies, -, hfirst⟩ := setFatCopies_any hg.fatsInRange
    (hg.hasEntry hc) 0 v.geo.numFats 0 (Nat.zero_add _).le
  obtain ⟨hpos, hm⟩ := hfirst hg.fats_pos hread hwrite
  obtain ⟨k, rfl⟩ : ∃ j, k = j + 1 := ⟨k - 1, by omega⟩
  have himage : (v.onDisk m (putLinks v.geo c 0 (k + 1) 0 v.ata.disk)).image =
      v.image.setFat c 0 := by
    rw [Vol.onDisk_image, imageOf_putLinks hg hc hk]
    rfl
  obtain ⟨ok, v₁, hcopies', -, hset⟩ := setFatEntry_cases v c 0
  rw [hcopies] at hcopies'
  cases hcopies'
  rw [hset]
  have hpolls : v.ata.polls + 2 ≤ v.ata.polls + m := Nat.add_le_add_left hm _
  split_ifs
  · exact ⟨himage, hpolls⟩
  · exact ⟨himage, hpolls⟩

theorem freeLoop_start (hfuel : 0 < fuel) (hlo : 2 ≤ c) (heoc : isEoc c = false)
    (hrun : freeLoop fuel c v = .done v') : ∃ fuel',
      freeLoop fuel' (nextCluster v c).1 (setFatEntry (nextCluster v c).2 c 0).2 = .done v' := by
  obtain ⟨fuel, rfl⟩ : ∃ k, fuel = k + 1 := ⟨fuel - 1, by omega⟩
  rw [freeLoop, if_pos ⟨hlo, by simp [heoc]⟩] at hrun
  exact ⟨fuel, hrun⟩

/-- The power goes off when the first link of a chain has been cleared in the first copy of the
FAT. -/
theorem freeChain_cut {s : ℕ} {l : List ℕ} (hv : v.Ready) (hl : v.image.Chain s l) :
    ∃ n w, v.ata.polls ≤ n ∧ freeChain (v.cut n) s = .done w ∧ Keeps (v.cut n) w ∧ w.Dead ∧
      w.image = v.image.setFat s 0 := by
  obtain ⟨hlo, hhi⟩ := hl.range s hl.start_mem
  have hhi : s < v.geo.totalClusters + 2 := hhi
  have heoc : isEoc s = false := Image.not_isEoc (I := v.image) hv.geo.total_small hhi
  obtain ⟨v₁, hnext, hquiet, hv₁⟩ := nextCluster_spec hv hhi
  have hpolls := (nextCluster_later v s).polls
  rw [hnext] at hpolls
  have hn : v.ata.polls ≤ v₁.ata.polls + 2 := by
    dsimp only at hpolls
    omega
  have hnext' := nextCluster_cut hv.reliable (c := s) (n := v₁.ata.polls + 2)
    (by rw [hnext]; exact Nat.le_add_right _ 2)
  rw [hnext] at hnext'
  obtain ⟨himage, hpolls'⟩ := setFatEntry_first (v := v₁.cut (v₁.ata.polls + 2)) (c := s) hv₁.geo
    (show s < v₁.geo.totalClusters + 2 by rwa [hquiet.geo])
    (decide_eq_true (Nat.lt_add_of_pos_right (by norm_num))) (decide_eq_true (Nat.lt_succ_self _))
  obtain ⟨w, hfree, hrel⟩ := freeChain_any ((hv.trusts Set.univ).cut (v₁.ata.polls + 2)) hl
    fun _ _ ↦ Set.mem_univ _
  -- behind the first link the loop runs on a dead drive
  obtain ⟨fuel, hrest⟩ := freeLoop_start (by norm_num [walkFuel]) hlo heoc hfree
  rw [hnext'] at hrest
  have hdead := dead_of_le (setFatEntry_keeps (v₁.cut (v₁.ata.polls + 2)) s 0).1 hpolls'
  obtain ⟨hlater, hdisk⟩ := freeLoop_inert hrest hdead
  refine ⟨v₁.ata.polls + 2, w, hn, hfree, hrel.toKeeps, hdead.later hlater, ?_⟩
  rw [Vol.image_congr hlater.geo hdisk, himage]
  exact congrArg (fun I : Image ↦ I.setFat s 0) hquiet.image

end MyOS.Fat32
