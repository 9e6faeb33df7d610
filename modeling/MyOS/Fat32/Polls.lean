import MyOS.Fat32.Faults

/-!
# The polls of a call

A call learns of its drive by polling it, before every sector.  So it cannot tell its drive from
another one that answers the same polls alike: on that drive it returns the same and leaves the
same volume.  In particular a call that no poll has failed does what it does on a drive that
never fails.
-/

namespace MyOS.Fat32

variable {o : ℕ → Bool} {u v v' w : Vol}

/-- The volume on another drive. -/
def Vol.onDrive (v : Vol) (o : ℕ → Bool) : Vol :=
  { v with ata := { v.ata with ready := o } }

@[simp] theorem Vol.onDrive_geo : (v.onDrive o).geo = v.geo := rfl

@[simp] theorem Vol.onDrive_mounted : (v.onDrive o).mounted = v.mounted := rfl

@[simp] theorem Vol.onDrive_hint : (v.onDrive o).allocHint = v.allocHint := rfl

@[simp] theorem Vol.onDrive_buf : (v.onDrive o).fatSectorBuf = v.fatSectorBuf := rfl

/-- The drive `o` answers the polls between `v` and `v'` as the drive of `v` does. -/
def SamePolls (o : ℕ → Bool) (v v' : Vol) : Prop :=
  ∀ k, v.ata.polls ≤ k → k < v'.ata.polls → o k = v.ata.ready k

theorem SamePolls.left (h : SamePolls o v w) (hlater : Later v' w) : SamePolls o v v' :=
  fun k hlo hhi ↦ h k hlo (hhi.trans_le hlater.polls)

theorem SamePolls.right (h : SamePolls o v w) (hlater : Later v v') : SamePolls o v' w := by
  intro k hlo hhi
  rw [hlater.ready]
  exact h k (hlater.polls.trans hlo) hhi

/-- A drive that never fails answers the polls of a call alike if none of them fails. -/
theorem SamePolls.of_not_missed (h : ¬Missed v v') : SamePolls (fun _ ↦ true) v v' := by
  intro k hlo hhi
  by_contra hready
  exact h ⟨k, hlo, hhi, Bool.eq_false_iff.mpr (Ne.symm hready)⟩

/-! ## Runs on two drives -/

/-- A value that a function returns together with the volume. -/
class HasVol (τ : Type) where
  vol : τ → Vol
  onDrive : τ → (ℕ → Bool) → τ

instance : HasVol Vol where
  vol v := v
  onDrive := Vol.onDrive

instance {α τ : Type} [HasVol τ] : HasVol (α × τ) where
  vol x := HasVol.vol x.2
  onDrive x o := (x.1, HasVol.onDrive x.2 o)

section Alike

variable {σ τ : Type} [HasVol σ] [HasVol τ] {x x' : Outcome σ} {p p' : σ}

/-- The runs `x` and `x'` start from `v` on two drives, the second one on `o`, and end alike if
`o` answers the polls of `x` as the first drive does. -/
def Alike (o : ℕ → Bool) (v : Vol) (x x' : Outcome σ) : Prop :=
  ∀ t, x = .done t →
    Later v (HasVol.vol t) ∧ (SamePolls o v (HasVol.vol t) → x' = .done (HasVol.onDrive t o))

theorem Alike.of_eq (hlater : Later v (HasVol.vol p))
    (h : SamePolls o v (HasVol.vol p) → p' = HasVol.onDrive p o) :
    Alike o v (.done p) (.done p') := by
  intro t ht
  cases ht
  exact ⟨hlater, fun hsame ↦ congrArg Outcome.done (h hsame)⟩

theorem Alike.done (hlater : Later v (HasVol.vol p)) :
    Alike o v (.done p) (.done (HasVol.onDrive p o)) := .of_eq hlater fun _ ↦ rfl

theorem Alike.bind {f : σ → Outcome τ} (hx : Alike o v x x')
    (hf : ∀ t, Alike o (HasVol.vol t) (f t) (f (HasVol.onDrive t o))) :
    Alike o v (x >>= f) (x' >>= f) := by
  intro b hb
  obtain ⟨t, hxt, hft⟩ := Outcome.bind_eq_done_iff.mp hb
  obtain ⟨hlater, hsame⟩ := hx t hxt
  obtain ⟨hlater', hsame'⟩ := hf t b hft
  refine ⟨hlater.trans hlater', fun h ↦ ?_⟩
  rw [hsame (h.left hlater'), Outcome.done_bind]
  exact hsame' (h.right hlater)

/-- The rule for a function that cannot fail to return. -/
theorem Alike.step {k : σ → Outcome τ} (hp : Alike o v (.done p) (.done p'))
    (hk : ∀ t, Alike o (HasVol.vol t) (k t) (k (HasVol.onDrive t o))) :
    Alike o v (k p) (k p') := hp.bind hk

end Alike

/-! ## Sectors -/

section Functions

variable (o v)

theorem ataRead_alike (lba n : ℕ) (buf : Bytes) :
    Alike o v (.done (v.ataRead lba n buf)) (.done ((v.onDrive o).ataRead lba n buf)) := by
  refine .of_eq (ataRead_driven v lba n buf).later fun h ↦ ?_
  simp only [Vol.ataRead, Vol.onDrive, Ata.ataRead_follows lba n buf v.ata o h]
  rfl

theorem ataWrite_alike (lba n : ℕ) (buf : Bytes) :
    Alike o v (.done (v.ataWrite lba n buf)) (.done ((v.onDrive o).ataWrite lba n buf)) := by
  refine .of_eq (ataWrite_driven v lba n buf).later fun h ↦ ?_
  simp only [Vol.ataWrite, Vol.onDrive, Ata.ataWrite_follows lba n buf v.ata o h]
  rfl

theorem patchSector_alike (lba off n : ℕ) (src : Bytes) :
    Alike o v (.done (patchSector v lba off n src))
      (.done (patchSector (v.onDrive o) lba off n src)) := by
  have hread := ataRead_alike o v lba 1 blank
  rw [patchSector, patchSector]
  generalize v.ataRead lba 1 blank = p at hread ⊢
  generalize (v.onDrive o).ataRead lba 1 blank = p' at hread ⊢
  apply hread.step
  rintro ⟨ok, sec, w⟩
  cases ok with
  | false => exact Alike.done (p := (false, w)) (.refl w)
  | true => exact ataWrite_alike o w lba 1 _

/-! ## Links -/

theorem nextCluster_alike (c : ℕ) :
    Alike o v (.done (nextCluster v c)) (.done (nextCluster (v.onDrive o) c)) := by
  have hread := ataRead_alike o v (Word.add v.geo.fatStartLba (Word.mul c 4 / 512)) 1
    v.fatSectorBuf
  rw [nextCluster, nextCluster]
  by_cases hmiss : Word.add v.geo.fatStartLba (Word.mul c 4 / 512) ≠ v.fatSectorCachedLba
  · have hmiss' : Word.add (v.onDrive o).geo.fatStartLba (Word.mul c 4 / 512) ≠
      (v.onDrive o).fatSectorCachedLba := hmiss
    rw [if_pos hmiss, if_pos hmiss', Vol.onDrive_geo, Vol.onDrive_buf]
    generalize v.ataRead _ 1 v.fatSectorBuf = p at hread ⊢
    generalize (v.onDrive o).ataRead _ 1 v.fatSectorBuf = p' at hread ⊢
    apply hread.step
    rintro ⟨ok, buf, w⟩
    cases ok with
    | false => exact Alike.of_eq (v := w) ⟨rfl, rfl, rfl, le_refl _⟩ fun _ ↦ rfl
    | true => exact Alike.of_eq (v := w) ⟨rfl, rfl, rfl, le_refl _⟩ fun _ ↦ rfl
  · have hmiss' : ¬Word.add (v.onDrive o).geo.fatStartLba (Word.mul c 4 / 512) ≠
      (v.onDrive o).fatSectorCachedLba := hmiss
    rw [if_neg hmiss, if_neg hmiss']
    exact Alike.done (p := (_, v)) (.refl v)

theorem setFatCopies_alike (c x n f : ℕ) :
    Alike o v (.done (setFatCopies c x n f v)) (.done (setFatCopies c x n f (v.onDrive o))) := by
  induction n generalizing f v with
  | zero => exact Alike.done (p := (true, v)) (.refl v)
  | succ n ih =>
      rw [setFatCopies, setFatCopies, Vol.onDrive_geo]
      generalize Word.add (Word.add v.geo.fatStartLba (Word.mul f v.geo.fatSize))
        (Word.mul c 4 / 512) = lba
      have hread := ataRead_alike o v lba 1 blank
      generalize v.ataRead lba 1 blank = p at hread ⊢
      generalize (v.onDrive o).ataRead lba 1 blank = p' at hread ⊢
      apply hread.step
      rintro ⟨ok, buf, w⟩
      cases ok with
      | false => exact Alike.done (p := (false, w)) (.refl w)
      | true =>
          dsimp only [HasVol.vol, HasVol.onDrive]
          generalize buf.write32 _ _ = sec
          have hwrite := ataWrite_alike o w lba 1 sec
          generalize w.ataWrite lba 1 sec = p at hwrite ⊢
          generalize (w.onDrive o).ataWrite lba 1 sec = p' at hwrite ⊢
          apply hwrite.step
          rintro ⟨ok, w⟩
          cases ok with
          | false => exact Alike.done (p := (false, w)) (.refl w)
          | true => exact ih w (f + 1)

theorem setFatEntry_alike (c x : ℕ) :
    Alike o v (.done (setFatEntry v c x)) (.done (setFatEntry (v.onDrive o) c x)) := by
  have hcopies := setFatCopies_alike o v c x v.geo.numFats 0
  rw [setFatEntry, setFatEntry, Vol.onDrive_geo]
  generalize setFatCopies c x v.geo.numFats 0 v = p at hcopies ⊢
  generalize setFatCopies c x v.geo.numFats 0 (v.onDrive o) = p' at hcopies ⊢
  apply hcopies.step
  rintro ⟨ok, w⟩
  cases ok with
  | false => exact Alike.done (p := (false, w)) (.refl w)
  | true => exact Alike.of_eq (v := w) ⟨rfl, rfl, rfl, le_refl _⟩ fun _ ↦ rfl

theorem allocLoop_alike (n i : ℕ) :
    Alike o v (.done (allocLoop n i v)) (.done (allocLoop n i (v.onDrive o))) := by
  induction n generalizing i v with
  | zero => exact Alike.done (p := (0, v)) (.refl v)
  | succ n ih =>
      rw [allocLoop, allocLoop, Vol.onDrive_geo, Vol.onDrive_hint]
      dsimp only
      generalize ite (Word.add v.geo.totalClusters 2 ≤ Word.add v.allocHint i) _ _ = c
      have hnext := nextCluster_alike o v c
      generalize nextCluster v c = p at hnext ⊢
      generalize nextCluster (v.onDrive o) c = p' at hnext ⊢
      apply hnext.step
      rintro ⟨next, w⟩
      dsimp only [HasVol.vol, HasVol.onDrive]
      by_cases hfree : next = 0
      · rw [if_pos hfree, if_pos hfree]
        have hset := setFatEntry_alike o w c 0x0FFFFFFF
        generalize setFatEntry w c 0x0FFFFFFF = p at hset ⊢
        generalize setFatEntry (w.onDrive o) c 0x0FFFFFFF = p' at hset ⊢
        apply hset.step
        rintro ⟨ok, w⟩
        cases ok with
        | false => exact Alike.done (p := (0, w)) (.refl w)
        | true => exact Alike.of_eq (v := w) ⟨rfl, rfl, rfl, le_refl _⟩ fun _ ↦ rfl
      · rw [if_neg hfree, if_neg hfree]
        exact ih w (i + 1)

theorem allocCluster_alike :
    Alike o v (.done (allocCluster v)) (.done (allocCluster (v.onDrive o))) := by
  rw [allocCluster, allocCluster, Vol.onDrive_geo]
  by_cases hnone : v.geo.totalClusters = 0
  · rw [if_pos hnone, if_pos hnone]
    exact Alike.done (p := (0, v)) (.refl v)
  · rw [if_neg hnone, if_neg hnone, Vol.onDrive_hint]
    by_cases hhint : v.allocHint < 2
    · rw [if_pos hhint, if_pos hhint]
      have hstart : Alike o v (.done { v with allocHint := 2 })
        (.done { v.onDrive o with allocHint := 2 }) :=
        .of_eq ⟨rfl, rfl, rfl, le_refl _⟩ fun _ ↦ rfl
      exact hstart.step (k := fun w ↦ .done (allocLoop w.geo.totalClusters 0 w)) fun w ↦
        allocLoop_alike o w w.geo.totalClusters 0
    · rw [if_neg hhint, if_neg hhint]
      exact allocLoop_alike o v v.geo.totalClusters 0

theorem freeLoop_alike (fuel c : ℕ) :
    Alike o v (freeLoop fuel c v) (freeLoop fuel c (v.onDrive o)) := by
  induction fuel generalizing c v with
  | zero => nofun
  | succ fuel ih =>
      rw [freeLoop, freeLoop]
      by_cases hgoes : 2 ≤ c ∧ ¬isEoc c
      · rw [if_pos hgoes, if_pos hgoes]
        have hnext := nextCluster_alike o v c
        generalize nextCluster v c = p at hnext ⊢
        generalize nextCluster (v.onDrive o) c = p' at hnext ⊢
        apply hnext.step
        rintro ⟨next, w⟩
        dsimp only [HasVol.vol, HasVol.onDrive]
        have hset := setFatEntry_alike o w c 0
        generalize setFatEntry w c 0 = p at hset ⊢
        generalize setFatEntry (w.onDrive o) c 0 = p' at hset ⊢
        apply hset.step
        rintro ⟨ok, w⟩
        exact ih w next
      · rw [if_neg hgoes, if_neg hgoes]
        exact .done (.refl v)

theorem freeChain_alike (c : ℕ) : Alike o v (freeChain v c) (freeChain (v.onDrive o) c) :=
  freeLoop_alike o v walkFuel c

/-! ## Directories -/

theorem writeDirent_alike (lba offset : ℕ) (e : Dirent) :
    Alike o v (.done (writeDirent v lba offset e))
      (.done (writeDirent (v.onDrive o) lba offset e)) := patchSector_alike o v lba offset 32 e

section Scan

variable {ρ : Type} (visit : DirLookup → Option ρ) (onFail onEnd : ρ)

theorem scanSectors_alike (lbaBase n s : ℕ) :
    Alike o v (.done (scanSectors visit onFail lbaBase n s v))
      (.done (scanSectors visit onFail lbaBase n s (v.onDrive o))) := by
  induction n generalizing s v with
  | zero => exact Alike.done (p := (none, v)) (.refl v)
  | succ n ih =>
      have hread := ataRead_alike o v (Word.add lbaBase s) 1 blank
      rw [scanSectors, scanSectors]
      generalize v.ataRead (Word.add lbaBase s) 1 blank = p at hread ⊢
      generalize (v.onDrive o).ataRead (Word.add lbaBase s) 1 blank = p' at hread ⊢
      apply hread.step
      rintro ⟨ok, sec, w⟩
      cases ok with
      | false => exact Alike.done (p := (some onFail, w)) (.refl w)
      | true =>
          dsimp only [HasVol.vol, HasVol.onDrive]
          cases scanSector visit sec (Word.add lbaBase s) with
          | some r => exact Alike.done (p := (some r, w)) (.refl w)
          | none => exact ih w (s + 1)

theorem scanLoop_alike (fuel c : ℕ) :
    Alike o v (scanLoop visit onFail onEnd fuel c v)
      (scanLoop visit onFail onEnd fuel c (v.onDrive o)) := by
  induction fuel generalizing c v with
  | zero => nofun
  | succ fuel ih =>
      rw [scanLoop, scanLoop]
      by_cases hgoes : ¬isEoc c ∧ 2 ≤ c
      · rw [if_pos hgoes, if_pos hgoes, Vol.onDrive_geo]
        have hscan := scanSectors_alike o v visit onFail (clusterToLba v.geo c)
          v.geo.sectorsPerCluster 0
        generalize scanSectors visit onFail _ _ 0 v = p at hscan ⊢
        generalize scanSectors visit onFail _ _ 0 (v.onDrive o) = p' at hscan ⊢
        apply hscan.step
        rintro ⟨r, w⟩
        cases r with
        | some r => exact Alike.done (p := (r, w)) (.refl w)
        | none =>
            dsimp only [HasVol.vol, HasVol.onDrive]
            have hnext := nextCluster_alike o w c
            generalize nextCluster w c = p at hnext ⊢
            generalize nextCluster (w.onDrive o) c = p' at hnext ⊢
            apply hnext.step
            rintro ⟨next, w⟩
            exact ih w next
      · rw [if_neg hgoes, if_neg hgoes]
        exact Alike.done (p := (onEnd, v)) (.refl v)

end Scan

theorem searchDir_alike (c : ℕ) (target : List UInt8) :
    Alike o v (searchDir v c target) (searchDir (v.onDrive o) c target) :=
  scanLoop_alike o v _ none none walkFuel c

theorem findFreeDirentIn_alike (c : ℕ) :
    Alike o v (findFreeDirentIn v c) (findFreeDirentIn (v.onDrive o) c) :=
  scanLoop_alike o v _ none none walkFuel c

theorem dirIsEmpty_alike (c : ℕ) : Alike o v (dirIsEmpty v c) (dirIsEmpty (v.onDrive o) c) :=
  scanLoop_alike o v _ false true walkFuel c

/-! ## Calls -/

variable {o v} in
/-- The last step of most calls: an entry is written, and the call says whether that went well. -/
theorem Alike.code {p p' : Bool × Vol} (hp : Alike o v (.done p) (.done p')) :
    Alike o v (match p with | (ok, v) => pure (code ok, v))
      (match p' with | (ok, v) => pure (code ok, v)) := by
  apply hp.step
  rintro ⟨ok, w⟩
  exact Alike.done (p := (MyOS.Fat32.code ok, w)) (.refl w)

/-- A chain is freed if there is one, and the call goes on with `f`. -/
theorem freeIf_alike {α : Type} {f : Vol → Outcome (α × Vol)} (P : Prop) [Decidable P] (c : ℕ)
    (hf : ∀ w, Alike o w (f w) (f (w.onDrive o))) :
    Alike o v (if P then freeChain v c >>= f else pure v >>= f)
      (if P then freeChain (v.onDrive o) c >>= f else pure (v.onDrive o) >>= f) := by
  by_cases hP : P
  · rw [if_pos hP, if_pos hP]
    exact (freeChain_alike o v c).bind hf
  · rw [if_neg hP, if_neg hP]
    exact hf v

/-- A call gives up after it has freed a chain. -/
theorem freeFail_alike {α : Type} (c : ℕ) (a : α) :
    Alike o v (freeChain v c >>= fun v ↦ pure (a, v))
      (freeChain (v.onDrive o) c >>= fun v ↦ pure (a, v)) := by
  refine (freeChain_alike o v c).bind fun w ↦ ?_
  exact Alike.done (p := (a, w)) (.refl w)

theorem writeClusters_alike (data : Bytes) (size fuel first prev written : ℕ) :
    Alike o v (writeClusters data size fuel first prev written v)
      (writeClusters data size fuel first prev written (v.onDrive o)) := by
  induction fuel generalizing first prev written v with
  | zero => nofun
  | succ fuel ih =>
      rw [writeClusters, writeClusters]
      by_cases hmore : written < size
      swap
      · rw [if_neg hmore, if_neg hmore]
        exact Alike.done (p := (some first, v)) (.refl v)
      rw [if_pos hmore, if_pos hmore, Vol.onDrive_geo]
      have halloc := allocCluster_alike o v
      generalize allocCluster v = p at halloc ⊢
      generalize allocCluster (v.onDrive o) = p' at halloc ⊢
      apply halloc.step
      rintro ⟨c, w⟩
      dsimp only [HasVol.vol, HasVol.onDrive]
      by_cases hfull : c = 0
      · rw [if_pos hfull, if_pos hfull]
        exact freeIf_alike o w (first ≠ 0) first fun w ↦ Alike.done (p := (none, w)) (.refl w)
      rw [if_neg hfull, if_neg hfull]
      generalize ite (first = 0) c first = head
      have hlink : Alike o w (.done (if prev ≠ 0 then setFatEntry w prev c else (true, w)))
          (.done (if prev ≠ 0 then setFatEntry (w.onDrive o) prev c else (true, w.onDrive o))) := by
        by_cases hprev : prev ≠ 0
        · rw [if_pos hprev, if_pos hprev]
          exact setFatEntry_alike o w prev c
        · rw [if_neg hprev, if_neg hprev]
          exact Alike.done (p := (true, w)) (.refl w)
      generalize ite (prev ≠ 0) _ (true, w) = p at hlink ⊢
      generalize ite (prev ≠ 0) _ (true, w.onDrive o) = p' at hlink ⊢
      apply hlink.step
      rintro ⟨ok, w⟩
      cases ok with
      | false => exact freeFail_alike o w head none
      | true =>
          dsimp only [HasVol.vol, HasVol.onDrive]
          rw [Vol.onDrive_geo]
          generalize ite (size - written < _) _ _ = copy
          generalize hbuf : (fun i ↦ if i < copy then data (written + i) else 0 : Bytes) = cbuf
          have hwrite := ataWrite_alike o w (clusterToLba w.geo c) w.geo.sectorsPerCluster cbuf
          generalize w.ataWrite _ _ cbuf = p at hwrite ⊢
          generalize (w.onDrive o).ataWrite _ _ cbuf = p' at hwrite ⊢
          apply hwrite.step
          rintro ⟨ok, w⟩
          cases ok with
          | false => exact freeFail_alike o w head none
          | true => exact ih w head c (written + copy)

theorem writeTarget_alike (target : List UInt8) :
    Alike o v (writeTarget v target) (writeTarget (v.onDrive o) target) := by
  rw [writeTarget, writeTarget]
  refine (searchDir_alike o v v.cwdCluster target).bind ?_
  rintro ⟨found, w⟩
  cases found with
  | none =>
      refine (findFreeDirentIn_alike o w w.cwdCluster).bind ?_
      rintro ⟨slot, w⟩
      cases slot with
      | none => exact Alike.done (p := (none, w)) (.refl w)
      | some look => exact Alike.done (p := (some _, w)) (.refl w)
  | some look =>
      dsimp only [HasVol.vol, HasVol.onDrive]
      by_cases hdir : look.entry.isDirectory = true
      · rw [if_pos hdir, if_pos hdir]
        exact Alike.done (p := (none, w)) (.refl w)
      · rw [if_neg hdir, if_neg hdir]
        exact freeIf_alike o w (2 ≤ look.entry.start) look.entry.start fun w ↦
          Alike.done (p := (some _, w)) (.refl w)

theorem fat32WriteFile_alike (name : List UInt8) (data : Bytes) (size : ℕ) :
    Alike o v (fat32WriteFile v name data size) (fat32WriteFile (v.onDrive o) name data size) := by
  rw [fat32WriteFile, fat32WriteFile, Vol.onDrive_mounted]
  by_cases hmounted : v.mounted = true
  · rw [if_pos hmounted, if_pos hmounted]
    refine (writeTarget_alike o v (toShortName name)).bind ?_
    rintro ⟨slot, w⟩
    cases slot with
    | none => exact Alike.done (p := (-1, w)) (.refl w)
    | some look =>
        refine (writeClusters_alike o w data size walkFuel 0 0 0).bind ?_
        rintro ⟨chain, w⟩
        cases chain with
        | none => exact Alike.done (p := (-1, w)) (.refl w)
        | some first => exact (writeDirent_alike o w _ _ _).code
  · rw [if_neg hmounted, if_neg hmounted]
    exact Alike.done (p := (-1, v)) (.refl v)

end Functions

end MyOS.Fat32
