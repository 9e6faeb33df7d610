import MyOS.Fat32.Integrity
import Mathlib.Logic.Relation

/-!
# What a call is made of

Whatever a call does to a volume it does by a few acts: it reads sectors, follows a link,
changes a link in all copies of the FAT, writes sectors of a cluster, moves the allocation hint
or the working directory.  This holds of every drive and of every volume, damaged or not.  A
call names the clusters that its loops arrive at; `Follows` says which these are.
-/

namespace MyOS.Fat32

open Bytes

/-! ## Acts -/

/-- The clusters that a run may name, and the hints from which `alloc_cluster` stays among
them. -/
structure Bounds (g : Geometry) where
  cluster : ℕ → Prop
  hint : ℕ → Prop
  hint_two : hint 2
  hint_next : ∀ c, cluster c → hint (Word.add c 1)
  tried : ∀ h i, hint h → 2 ≤ h → i < g.totalClusters → cluster (allocCandidate g h i)

/-- No bounds at all. -/
def Bounds.all (g : Geometry) : Bounds g where
  cluster _ := True
  hint _ := True
  hint_two := trivial
  hint_next _ _ := trivial
  tried _ _ _ _ _ := trivial

theorem Geometry.Consistent.hint_next {g : Geometry} (hg : g.Consistent) (c : ℕ)
    (hc : 2 ≤ c ∧ c < g.totalClusters + 2) : Word.add c 1 ≤ g.totalClusters + 2 := by
  have hsmall := hg.total_small
  rw [badCluster] at hsmall
  rw [Word.add_eq (by omega)]
  omega

theorem Geometry.Consistent.tried_range {g : Geometry} (hg : g.Consistent) (h i : ℕ)
    (hh : h ≤ g.totalClusters + 2) (hlo : 2 ≤ h) (hi : i < g.totalClusters) :
    2 ≤ allocCandidate g h i ∧ allocCandidate g h i < g.totalClusters + 2 := by
  rw [allocCandidate, candidate_eq hg.total_small hh hi]
  exact candidate_range hlo hh hi

/-- The clusters of the volume. -/
def Geometry.Consistent.bounds {g : Geometry} (hg : g.Consistent) : Bounds g where
  cluster c := 2 ≤ c ∧ c < g.totalClusters + 2
  hint h := h ≤ g.totalClusters + 2
  hint_two := Nat.le_add_left 2 _
  hint_next := hg.hint_next
  tried := hg.tried_range

variable {g : Geometry} {W : Prop} {B : Bounds g} {u v v' w : Vol}

/-- One act of the driver.  Only a call that may write, `W`, changes links, clusters and the
hint. -/
inductive Act (W : Prop) (B : Bounds g) (v : Vol) : Vol → Prop
  | read (lba n : ℕ) (buf : Bytes) : Act W B v (v.ataRead lba n buf).2.2
  | next {c : ℕ} : B.cluster c → Act W B v (nextCluster v c).2
  | link {c : ℕ} (x : ℕ) : W → B.cluster c → Act W B v (setFatEntry v c x).2
  | write {c s n : ℕ} (buf : Bytes) : W → B.cluster c → s + n ≤ g.sectorsPerCluster →
      Act W B v (v.ataWrite (Word.add (clusterToLba g c) s) n buf).2
  | hint {h : ℕ} : W → B.hint h → Act W B v { v with allocHint := h }
  | cwd (c : ℕ) : Act W B v { v with cwdCluster := c }

abbrev Acts (W : Prop) (B : Bounds g) : Vol → Vol → Prop := Relation.ReflTransGen (Act W B)

/-! ## What no act changes -/

/-- Nothing but the drive is another one. -/
def Driven (v v' : Vol) : Prop :=
  ∃ a : Ata, v' = { v with ata := a } ∧ a.ready = v.ata.ready ∧ v.ata.polls ≤ a.polls

theorem Driven.refl (v : Vol) : Driven v v := ⟨v.ata, rfl, rfl, le_refl _⟩

theorem Driven.trans (h : Driven u v) (h' : Driven v w) : Driven u w := by
  obtain ⟨a, rfl, hready, hpolls⟩ := h
  obtain ⟨a', rfl, hready', hpolls'⟩ := h'
  exact ⟨a', rfl, hready'.trans hready, hpolls.trans hpolls'⟩

theorem Driven.later (h : Driven v v') : Later v v' := by
  obtain ⟨a, rfl, hready, hpolls⟩ := h
  exact ⟨rfl, rfl, hready, hpolls⟩

theorem ataRead_driven (v : Vol) (lba n : ℕ) (buf : Bytes) :
    Driven v (v.ataRead lba n buf).2.2 := by
  obtain ⟨-, hready, hpolls⟩ := Ata.ataRead_frame lba n buf v.ata
  exact ⟨_, rfl, hready, hpolls⟩

theorem ataWrite_driven (v : Vol) (lba n : ℕ) (buf : Bytes) :
    Driven v (v.ataWrite lba n buf).2 := by
  obtain ⟨hready, hpolls⟩ := Ata.ataWrite_frame lba n buf v.ata
  exact ⟨_, rfl, hready, hpolls⟩

theorem setFatCopies_driven (c x n f : ℕ) (v : Vol) : Driven v (setFatCopies c x n f v).2 := by
  induction n generalizing f v with
  | zero => exact .refl v
  | succ n ih =>
      rw [setFatCopies]
      generalize Word.add (Word.add v.geo.fatStartLba (Word.mul f v.geo.fatSize))
        (Word.mul c 4 / 512) = lba
      have hread := ataRead_driven v lba 1 blank
      rcases hreadRes : v.ataRead lba 1 blank with ⟨_ | _, buf, v₁⟩
      · rw [hreadRes] at hread
        exact hread
      · rw [hreadRes] at hread
        dsimp only
        generalize buf.write32 _ _ = sec
        have hwrite := ataWrite_driven v₁ lba 1 sec
        rcases hwriteRes : v₁.ataWrite lba 1 sec with ⟨_ | _, v₂⟩
        · rw [hwriteRes] at hwrite
          exact hread.trans hwrite
        · rw [hwriteRes] at hwrite
          exact (hread.trans hwrite).trans (ih (f + 1) v₂)

/-- An entry is set, and the FAT cache is dropped if that has gone well. -/
theorem setFatEntry_cases (v : Vol) (c x : ℕ) : ∃ ok v₁,
    setFatCopies c x v.geo.numFats 0 v = (ok, v₁) ∧ Driven v v₁ ∧
      setFatEntry v c x =
        (ok, if ok = true then { v₁ with fatSectorCachedLba := noLba } else v₁) := by
  have hcopies := setFatCopies_driven c x v.geo.numFats 0 v
  rw [setFatEntry]
  rcases hres : setFatCopies c x v.geo.numFats 0 v with ⟨_ | _, v₁⟩
  · rw [hres] at hcopies
    exact ⟨false, v₁, rfl, hcopies, rfl⟩
  · rw [hres] at hcopies
    exact ⟨true, v₁, rfl, hcopies, rfl⟩

/-- Setting an entry changes the drive and the FAT cache only. -/
theorem setFatEntry_keeps (v : Vol) (c x : ℕ) :
    Later v (setFatEntry v c x).2 ∧ Keeps v (setFatEntry v c x).2 ∧
      (setFatEntry v c x).2.allocHint = v.allocHint := by
  obtain ⟨ok, v₁, -, ⟨a, rfl, hready, hpolls⟩, hset⟩ := setFatEntry_cases v c x
  rw [hset]
  cases ok with
  | false => exact ⟨⟨rfl, rfl, hready, hpolls⟩, ⟨rfl, rfl, rfl⟩, rfl⟩
  | true => exact ⟨⟨rfl, rfl, hready, hpolls⟩, ⟨rfl, rfl, rfl⟩, rfl⟩

theorem Act.later (h : Act W B v v') : Later v v' := by
  cases h with
  | read lba n buf => exact (ataRead_driven v lba n buf).later
  | next _ => exact nextCluster_later v _
  | link x _ _ => exact (setFatEntry_keeps v _ x).1
  | write buf _ _ _ => exact (ataWrite_driven v _ _ buf).later
  | hint _ _ => exact ⟨rfl, rfl, rfl, le_refl _⟩
  | cwd c => exact ⟨rfl, rfl, rfl, le_refl _⟩

theorem Acts.later (h : Acts W B v v') : Later v v' := by
  induction h with
  | refl => exact .refl v
  | tail _ hact ih => exact ih.trans hact.later

/-! ## Loops along chains -/

section Loops

variable {τ : Type} {C : ℕ → Prop} {body : ℕ → τ → Option (ℕ × τ)} {t : τ} {c fuel : ℕ}

/-- A loop goes from cluster to cluster; `body` gives the next one and the state in which the
loop arrives there, or nothing if the loop ends.  Every cluster that the loop arrives at and
goes on with is in `C`. -/
def Follows (C : ℕ → Prop) (body : ℕ → τ → Option (ℕ × τ)) : ℕ → ℕ → τ → Prop
  | 0, _, _ => True
  | fuel + 1, c, t => ¬isEoc c ∧ 2 ≤ c → C c ∧ ∀ x ∈ body c t, Follows C body fuel x.1 x.2

theorem follows_of_forall (hC : ∀ c, C c) (fuel c : ℕ) (t : τ) : Follows C body fuel c t := by
  induction fuel generalizing c t with
  | zero => trivial
  | succ fuel ih => exact fun _ ↦ ⟨hC c, fun x _ ↦ ih x.1 x.2⟩

end Loops

section Scan

variable {ρ : Type} {visit : DirLookup → Option ρ} {onFail onEnd r : ρ} {c fuel : ℕ}

def scanBody (visit : DirLookup → Option ρ) (onFail : ρ) (c : ℕ) (v : Vol) : Option (ℕ × Vol) :=
  match scanSectors visit onFail (clusterToLba v.geo c) v.geo.sectorsPerCluster 0 v with
  | (some _, _) => none
  | (none, v) => some (nextCluster v c)

/-- The sector is one of a cluster in bounds. -/
def Bounds.Sector (B : Bounds g) (lba : ℕ) : Prop :=
  ∃ c s, B.cluster c ∧ s < g.sectorsPerCluster ∧ lba = Word.add (clusterToLba g c) s

theorem scanSectors_acts (lbaBase n s : ℕ) (v : Vol) :
    Acts W B v (scanSectors visit onFail lbaBase n s v).2 := by
  induction n generalizing s v with
  | zero => exact .refl
  | succ n ih =>
      rw [scanSectors]
      have hread : Act W B v (v.ataRead (Word.add lbaBase s) 1 blank).2.2 := .read _ _ _
      rcases hres : v.ataRead (Word.add lbaBase s) 1 blank with ⟨_ | _, sec, v₁⟩
      · rw [hres] at hread
        exact .single hread
      · rw [hres] at hread
        dsimp only
        cases scanSector visit sec (Word.add lbaBase s) with
        | some r => exact .single hread
        | none => exact .head hread (ih (s + 1) v₁)

theorem scanSectors_result {P : ρ → Prop} {lbaBase n s : ℕ} (hfail : P onFail)
    (hvisit : ∀ k look r, k < s + n → look.lba = Word.add lbaBase k → visit look = some r → P r)
    (hscan : scanSectors visit onFail lbaBase n s v = (some r, v')) : P r := by
  induction n generalizing s v with
  | zero => cases hscan
  | succ n ih =>
      rw [scanSectors] at hscan
      rcases hread : v.ataRead (Word.add lbaBase s) 1 blank with ⟨_ | _, sec, v₁⟩
      · simp only [hread, Prod.mk.injEq, Option.some.injEq] at hscan
        exact hscan.1 ▸ hfail
      · simp only [hread] at hscan
        cases hsector : scanSector visit sec (Word.add lbaBase s) with
        | some r' =>
            simp only [hsector, Prod.mk.injEq, Option.some.injEq] at hscan
            obtain ⟨i, -, hi⟩ := List.exists_of_findSome?_eq_some hsector
            exact hscan.1 ▸ hvisit s _ r' (by omega) rfl hi
        | none =>
            simp only [hsector] at hscan
            exact ih (fun k look r hk ↦ hvisit k look r (by omega)) hscan

theorem scanLoop_acts (hfollows : Follows B.cluster (scanBody visit onFail) fuel c v)
    (hrun : scanLoop visit onFail onEnd fuel c v = .done (r, v')) : Acts W B v v' := by
  induction fuel generalizing c v with
  | zero => cases hrun
  | succ fuel ih =>
      rw [scanLoop] at hrun
      by_cases hgoes : ¬isEoc c ∧ 2 ≤ c
      · rw [if_pos hgoes] at hrun
        obtain ⟨hc, hnext⟩ := hfollows hgoes
        rw [scanBody] at hnext
        have hscan : Acts W B v (scanSectors visit onFail (clusterToLba v.geo c)
          v.geo.sectorsPerCluster 0 v).2 := scanSectors_acts _ _ _ _
        rcases hres : scanSectors visit onFail (clusterToLba v.geo c) v.geo.sectorsPerCluster 0 v
          with ⟨_ | r', v₁⟩
        · rw [hres] at hscan hnext hrun
          exact (hscan.tail (.next hc)).trans (ih (hnext _ rfl) hrun)
        · rw [hres] at hscan hrun
          cases hrun
          exact hscan
      · rw [if_neg hgoes] at hrun
        cases hrun
        exact .refl

/-- What the visits in the clusters in bounds return, a scan returns. -/
theorem scanLoop_result {P : ρ → Prop} (hgeo : v.geo = g) (hfail : P onFail) (hend : P onEnd)
    (hvisit : ∀ look r, B.Sector look.lba → visit look = some r → P r)
    (hfollows : Follows B.cluster (scanBody visit onFail) fuel c v)
    (hrun : scanLoop visit onFail onEnd fuel c v = .done (r, v')) : P r := by
  induction fuel generalizing c v with
  | zero => cases hrun
  | succ fuel ih =>
      rw [scanLoop] at hrun
      by_cases hgoes : ¬isEoc c ∧ 2 ≤ c
      · rw [if_pos hgoes] at hrun
        obtain ⟨hc, hnext⟩ := hfollows hgoes
        rw [scanBody] at hnext
        have hscan : Acts True B v (scanSectors visit onFail (clusterToLba v.geo c)
          v.geo.sectorsPerCluster 0 v).2 := scanSectors_acts _ _ _ _
        rcases hres : scanSectors visit onFail (clusterToLba v.geo c) v.geo.sectorsPerCluster 0 v
          with ⟨_ | r', v₁⟩
        · rw [hres] at hscan hnext hrun
          have hgeo' : (nextCluster v₁ c).2.geo = g :=
            (nextCluster_quiet v₁ c).geo.trans (hscan.later.geo.trans hgeo)
          exact ih hgeo' (hnext _ rfl) hrun
        · rw [hres] at hrun
          cases hrun
          subst hgeo
          refine scanSectors_result hfail (fun k look r hk hlba hr ↦ ?_) hres
          exact hvisit look r ⟨c, k, hc, by omega, hlba⟩ hr
      · rw [if_neg hgoes] at hrun
        cases hrun
        exact hend

end Scan

/-! ## Allocating and releasing -/

section Alloc

variable {c x fuel : ℕ}

theorem Acts.hint (h : Acts W B v v') (hv : B.hint v.allocHint) : B.hint v'.allocHint := by
  induction h with
  | refl => exact hv
  | @tail u w _ hact ih =>
      cases hact with
      | read lba n buf => exact ih
      | @next c _ =>
          rw [(nextCluster_quiet u c).hint]
          exact ih
      | @link c x _ _ =>
          rw [(setFatEntry_keeps u c x).2.2]
          exact ih
      | write buf _ _ _ => exact ih
      | hint _ hh => exact hh
      | cwd c => exact ih

theorem allocLoop_acts (hW : W) {n i : ℕ} (hgeo : v.geo = g) (hn : n + i ≤ g.totalClusters)
    (hlo : 2 ≤ v.allocHint) (hh : B.hint v.allocHint) :
    Acts W B v (allocLoop n i v).2 ∧
      ((allocLoop n i v).1 = 0 ∨ B.cluster (allocLoop n i v).1) := by
  induction n generalizing i v with
  | zero => exact ⟨.refl, Or.inl rfl⟩
  | succ n ih =>
      have hc := B.tried v.allocHint i hh hlo (by omega)
      rw [allocLoop_succ, hgeo]
      generalize htried : allocCandidate g v.allocHint i = c at hc
      have hquiet := nextCluster_quiet v c
      have hnext : Act W B v (nextCluster v c).2 := .next hc
      split_ifs with hfree
      · have hlink : Act W B (nextCluster v c).2
          (setFatEntry (nextCluster v c).2 c 0x0FFFFFFF).2 := .link _ hW hc
        rcases hset : setFatEntry (nextCluster v c).2 c 0x0FFFFFFF with ⟨_ | _, v₂⟩
        · rw [hset] at hlink
          exact ⟨.head hnext (.single hlink), Or.inl rfl⟩
        · rw [hset] at hlink
          exact ⟨.head hnext (.head hlink (.single (.hint hW (B.hint_next c hc)))), Or.inr hc⟩
      · obtain ⟨hacts, hres⟩ := ih (i := i + 1) (hquiet.geo.trans hgeo) (by omega)
          (by rwa [hquiet.hint]) (by rwa [hquiet.hint])
        exact ⟨.head hnext hacts, hres⟩

theorem allocCluster_acts (hW : W) (hgeo : v.geo = g) (hh : B.hint v.allocHint) :
    Acts W B v (allocCluster v).2 ∧ ((allocCluster v).1 = 0 ∨ B.cluster (allocCluster v).1) := by
  rw [allocCluster]
  by_cases hzero : v.geo.totalClusters = 0
  · rw [if_pos hzero]
    exact ⟨.refl, Or.inl rfl⟩
  rw [if_neg hzero]
  by_cases hlow : v.allocHint < 2
  · simp only [if_pos hlow]
    obtain ⟨hacts, hres⟩ := allocLoop_acts (v := { v with allocHint := 2 }) hW
      (n := v.geo.totalClusters) (i := 0) hgeo (by rw [hgeo]; omega) (le_refl 2) B.hint_two
    exact ⟨.head (.hint hW B.hint_two) hacts, hres⟩
  · simp only [if_neg hlow]
    exact allocLoop_acts hW hgeo (by rw [hgeo]; omega) (by omega) hh

def freeBody (c : ℕ) (v : Vol) : Option (ℕ × Vol) :=
  some ((nextCluster v c).1, (setFatEntry (nextCluster v c).2 c 0).2)

def FreeFollows (C : ℕ → Prop) (v : Vol) (start : ℕ) : Prop :=
  Follows C freeBody walkFuel start v

theorem freeLoop_acts (hW : W) (hfollows : Follows B.cluster freeBody fuel c v)
    (hrun : freeLoop fuel c v = .done v') : Acts W B v v' := by
  induction fuel generalizing c v with
  | zero => cases hrun
  | succ fuel ih =>
      rw [freeLoop] at hrun
      by_cases hgoes : 2 ≤ c ∧ ¬isEoc c
      · rw [if_pos hgoes] at hrun
        obtain ⟨hc, hnext⟩ := hfollows hgoes.symm
        exact .head (.next hc) (.head (.link 0 hW hc) (ih (hnext _ rfl) hrun))
      · rw [if_neg hgoes] at hrun
        cases hrun
        exact .refl

theorem freeChain_acts (hW : W) (hfollows : FreeFollows B.cluster v c)
    (hrun : freeChain v c = .done v') : Acts W B v v' := freeLoop_acts hW hfollows hrun

end Alloc

/-! ## Writing -/

section Write

variable {c fuel first prev written size : ℕ} {data : Bytes} {r : Option ℕ}

theorem clusterToLba_add_zero (g : Geometry) (c : ℕ) :
    Word.add (clusterToLba g c) 0 = clusterToLba g c := by
  rw [Word.add, Nat.add_zero, Nat.mod_eq_of_lt]
  exact Word.add_lt _ _

theorem writeCluster_act (hW : W) (hgeo : v.geo = g) (hc : B.cluster c) (buf : Bytes) :
    Act W B v (v.ataWrite (clusterToLba v.geo c) v.geo.sectorsPerCluster buf).2 := by
  rw [hgeo, ← clusterToLba_add_zero]
  exact .write buf hW hc (Nat.zero_add _).le

theorem Bounds.Sector.act {lba : ℕ} (h : B.Sector lba) (hW : W) (v : Vol) (buf : Bytes) :
    Act W B v (v.ataWrite lba 1 buf).2 := by
  obtain ⟨c, s, hc, hs, rfl⟩ := h
  exact .write buf hW hc hs

theorem writeDirent_acts {lba : ℕ} (h : B.Sector lba) (hW : W) (v : Vol) (offset : ℕ)
    (e : Dirent) : Acts W B v (writeDirent v lba offset e).2 := by
  rw [writeDirent]
  have hread : Act W B v (v.ataRead lba 1 blank).2.2 := .read _ _ _
  rcases hres : v.ataRead lba 1 blank with ⟨_ | _, sec, v₁⟩
  · rw [hres] at hread
    exact .single hread
  · rw [hres] at hread
    exact .head hread (.single (h.act hW v₁ _))

theorem markDeleted_acts {lba : ℕ} (h : B.Sector lba) (hW : W) (v : Vol) (offset : ℕ) :
    Acts W B v (markDeleted v lba offset).2 := by
  rw [markDeleted]
  have hread : Act W B v (v.ataRead lba 1 blank).2.2 := .read _ _ _
  rcases hres : v.ataRead lba 1 blank with ⟨_ | _, sec, v₁⟩
  · rw [hres] at hread
    exact .single hread
  · rw [hres] at hread
    exact .head hread (.single (h.act hW v₁ _))

theorem extendChain_acts (hW : W) (hgeo : v.geo = g) (hprev : prev = 0 ∨ B.cluster prev)
    (hc : B.cluster c) (cbuf : Bytes) : Acts W B v (extendChain prev c cbuf v).2 := by
  rw [extendChain]
  by_cases hzero : prev = 0
  · rw [if_neg (not_not_intro hzero)]
    exact .single (writeCluster_act hW hgeo hc cbuf)
  · rw [if_pos hzero]
    have hlink : Act W B v (setFatEntry v prev c).2 := .link c hW (hprev.resolve_left hzero)
    rcases hset : setFatEntry v prev c with ⟨_ | _, v₁⟩
    · rw [hset] at hlink
      exact .single hlink
    · rw [hset] at hlink
      exact .head hlink (.single (writeCluster_act hW (hlink.later.geo.trans hgeo) hc cbuf))

/-- The chains that the loop of `fat32_write_file` clears stay in `C`. -/
def WriteFollows (C : ℕ → Prop) (data : Bytes) (size : ℕ) : ℕ → ℕ → ℕ → ℕ → Vol → Prop
  | 0, _, _, _, _ => True
  | fuel + 1, first, prev, written, v =>
      written < size →
        if (allocCluster v).1 = 0 then first ≠ 0 → FreeFollows C (allocCluster v).2 first
        else
          let first := if first = 0 then (allocCluster v).1 else first
          let x := extendChain prev (allocCluster v).1 (roundData v.geo data size written)
            (allocCluster v).2
          if x.1 = true then
            WriteFollows C data size fuel first (allocCluster v).1
              (written + roundSize v.geo size written) x.2
          else FreeFollows C x.2 first

theorem writeFollows_of_forall {C : ℕ → Prop} (hC : ∀ c, C c) (fuel first prev written : ℕ)
    (v : Vol) : WriteFollows C data size fuel first prev written v := by
  induction fuel generalizing first prev written v with
  | zero => trivial
  | succ fuel ih =>
      intro _
      by_cases hzero : (allocCluster v).1 = 0
      · rw [if_pos hzero]
        exact fun _ ↦ follows_of_forall hC _ _ _
      · rw [if_neg hzero]
        dsimp only
        generalize extendChain prev (allocCluster v).1 (roundData v.geo data size written)
          (allocCluster v).2 = x
        by_cases hok : x.1 = true
        · rw [if_pos hok]
          exact ih _ _ _ _
        · rw [if_neg hok]
          exact follows_of_forall hC _ _ _

theorem writeClusters_acts (hW : W) (hgeo : v.geo = g) (hh : B.hint v.allocHint)
    (hprev : prev = 0 ∨ B.cluster prev)
    (hfollows : WriteFollows B.cluster data size fuel first prev written v)
    (hrun : writeClusters data size fuel first prev written v = .done (r, v')) :
    Acts W B v v' := by
  induction fuel generalizing first prev written v with
  | zero => cases hrun
  | succ fuel ih =>
      rw [writeClusters_succ] at hrun
      by_cases hmore : written < size
      · have hfollows := hfollows hmore
        rw [if_pos hmore] at hrun
        obtain ⟨halloc, hc⟩ := allocCluster_acts hW hgeo hh
        by_cases hzero : (allocCluster v).1 = 0
        · rw [if_pos hzero] at hrun hfollows
          by_cases hfirst : first = 0
          · rw [if_neg (not_not_intro hfirst)] at hrun
            cases hrun
            exact halloc
          · rw [if_pos hfirst] at hrun
            obtain ⟨v₂, hfree, hdone⟩ := Outcome.bind_eq_done_iff.mp hrun
            cases hdone
            exact halloc.trans (freeChain_acts hW (hfollows hfirst) hfree)
        · rw [if_neg hzero] at hrun hfollows
          have hc := hc.resolve_left hzero
          have hgeo₁ := halloc.later.geo.trans hgeo
          have hextend := extendChain_acts hW hgeo₁ hprev hc (roundData v.geo data size written)
          dsimp only at hrun hfollows
          generalize extendChain prev (allocCluster v).1 (roundData v.geo data size written)
            (allocCluster v).2 = x at hrun hfollows hextend
          have hacts : Acts W B v x.2 := halloc.trans hextend
          by_cases hok : x.1 = true
          · rw [if_pos hok] at hrun hfollows
            exact hacts.trans (ih (hacts.later.geo.trans hgeo) (hacts.hint hh) (Or.inr hc)
              hfollows hrun)
          · rw [if_neg hok] at hrun hfollows
            obtain ⟨v₂, hfree, hdone⟩ := Outcome.bind_eq_done_iff.mp hrun
            cases hdone
            exact hacts.trans (freeChain_acts hW hfollows hfree)
      · rw [if_neg hmore] at hrun
        cases hrun
        exact .refl

end Write

/-! ## Reading -/

section Read

variable {σ : Type} {visit : σ → Dirent → σ} {ctx ctx' : σ} {c fuel size copied dst : ℕ}
  {mem mem' : Bytes} {r : ℤ}

theorem readCluster_act (v : Vol) (c : ℕ) : Act W B v (readCluster v c).2.2 := .read _ _ _

/-- Where the end mark is does not depend on the visitor. -/
theorem listEntries_fst (visit : σ → Dirent → σ) (buf : Bytes) (n i : ℕ) (ctx : σ) :
    (listEntries visit buf n i ctx).1 = (listEntries (fun u _ ↦ u) buf n i ()).1 := by
  induction n generalizing i ctx with
  | zero => rfl
  | succ n ih =>
      rw [listEntries, listEntries]
      split_ifs
      · rfl
      · exact ih (i + 1) ctx
      · exact ih (i + 1) ctx
      · exact ih (i + 1) ctx
      · exact ih (i + 1) _

def listBody (c : ℕ) (v : Vol) : Option (ℕ × Vol) :=
  match readCluster v c with
  | (false, _, _) => none
  | (true, buf, v) =>
      if (listEntries (fun u _ ↦ u) buf (v.geo.sectorsPerCluster * 512 / 32) 0 ()).1 then none
      else some (nextCluster v c)

def ListFollows (C : ℕ → Prop) (v : Vol) (start : ℕ) : Prop := Follows C listBody walkFuel start v

theorem listLoop_acts (hfollows : Follows B.cluster listBody fuel c v)
    (hrun : listLoop visit fuel c v ctx = .done (ctx', v')) : Acts W B v v' := by
  induction fuel generalizing c v ctx with
  | zero => cases hrun
  | succ fuel ih =>
      rw [listLoop] at hrun
      by_cases hgoes : ¬isEoc c ∧ 2 ≤ c
      · rw [if_pos hgoes] at hrun
        obtain ⟨hc, hnext⟩ := hfollows hgoes
        rw [listBody] at hnext
        have hread : Act W B v (readCluster v c).2.2 := readCluster_act v c
        rcases hres : readCluster v c with ⟨_ | _, buf, v₁⟩
        · simp only [hres] at hrun hread
          cases hrun
          exact .single hread
        · simp only [hres] at hrun hread hnext
          have hmark := listEntries_fst visit buf (v₁.geo.sectorsPerCluster * 512 / 32) 0 ctx
          rcases hlist : listEntries visit buf (v₁.geo.sectorsPerCluster * 512 / 32) 0 ctx with
            ⟨_ | _, ctx₁⟩
          · simp only [hlist] at hrun
            rw [hlist] at hmark
            rw [← hmark] at hnext
            exact .head hread (.head (.next hc) (ih (hnext _ rfl) hrun))
          · simp only [hlist] at hrun
            cases hrun
            exact .single hread
      · rw [if_neg hgoes] at hrun
        cases hrun
        exact .refl

theorem fat32Listdir_acts (hfollows : ListFollows B.cluster v c)
    (hrun : fat32Listdir visit v c ctx = .done (ctx', v')) : Acts W B v v' := by
  rw [fat32Listdir] at hrun
  split_ifs at hrun
  · exact listLoop_acts hfollows hrun
  · cases hrun
    exact .refl

/-- A round of the loop that copies a file; the state holds how much has been copied. -/
def readBody (size : ℕ) (c : ℕ) (t : ℕ × Vol) : Option (ℕ × ℕ × Vol) :=
  match readCluster t.2 c with
  | (false, _, _) => none
  | (true, _, v) =>
      let copied := t.1 + roundSize v.geo size t.1
      if copied < size then some ((nextCluster v c).1, copied, (nextCluster v c).2) else none

def ReadFollows (C : ℕ → Prop) (v : Vol) (start size : ℕ) : Prop :=
  0 < size → Follows C (readBody size) walkFuel start (0, v)

theorem readLoop_acts
    (hfollows : copied < size → Follows B.cluster (readBody size) fuel c (copied, v))
    (hrun : readLoop dst size fuel c copied mem v = .done (r, mem', v')) : Acts W B v v' := by
  induction fuel generalizing c v copied mem with
  | zero => cases hrun
  | succ fuel ih =>
      rw [readLoop] at hrun
      by_cases hgoes : ¬isEoc c ∧ 2 ≤ c ∧ copied < size
      · rw [if_pos hgoes] at hrun
        obtain ⟨hc, hnext⟩ := hfollows hgoes.2.2 ⟨hgoes.1, hgoes.2.1⟩
        rw [readBody] at hnext
        have hread : Act W B v (readCluster v c).2.2 := readCluster_act v c
        rcases hres : readCluster v c with ⟨_ | _, buf, v₁⟩
        · simp only [hres] at hrun hread
          cases hrun
          exact .single hread
        · simp only [hres] at hrun hread hnext
          refine .head hread (.head (.next hc) (ih (fun hmore ↦ ?_) hrun))
          have hmore : copied + roundSize v₁.geo size copied < size := hmore
          rw [if_pos hmore] at hnext
          exact hnext _ rfl
      · rw [if_neg hgoes] at hrun
        cases hrun
        exact .refl

end Read

end MyOS.Fat32
