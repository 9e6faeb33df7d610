import MyOS.Fat32.Alloc

/-!
# Scanning directories

A scan of a directory visits the slots of its chain in order until one of them decides the
result.  On a drive without failures the result is a function of the image; a scan in which a poll
fails finds nothing.
-/

namespace MyOS.Fat32

open Bytes

variable {v v' : Vol} {c s : ℕ} {l : List ℕ} {p q : Pos}

theorem Quiet.lookAt (h : Quiet v v') (p : Pos) : v'.lookAt p = v.lookAt p := by
  rw [Vol.lookAt, Vol.lookAt, h.image, h.geo]

theorem image_data (hlo : 2 ≤ c) (hhi : c < v.geo.totalClusters + 2) {i : ℕ}
    (hi : i < clusterBytes v.geo) : v.image.data c i = v.ata.disk (clusterAddr v.geo c + i) := by
  simp only [Vol.image, imageOf, if_pos (And.intro hlo (And.intro hhi hi))]

theorem entry_eq_of_bytes (hlo : 2 ≤ c) (hhi : c < v.geo.totalClusters + 2) {j off : ℕ}
    {buf : Bytes} (hj : j < 16 * v.geo.sectorsPerCluster)
    (hbuf : ∀ k < 32, buf (off + k) = v.ata.disk (clusterAddr v.geo c + 32 * j + k)) :
    direntAt buf off = v.image.entry (c, j) := by
  refine direntAt_congr fun k hk ↦ ?_
  have hin : 32 * j + k < clusterBytes v.geo := by
    rw [clusterBytes]
    omega
  rw [hbuf k hk, image_data hlo hhi hin, Nat.add_assoc]

/-! ## Scans -/

section Scan

variable {ρ : Type} (visit : DirLookup → Option ρ) (onFail onEnd : ρ)

/-- The slots `a, …, a + n - 1` of cluster `c`. -/
def slotRange (c a n : ℕ) : List Pos := (List.range' a n).map fun i ↦ (c, i)

theorem slotsOf_cons (I : Image) (c : ℕ) (l : List ℕ) :
    I.slotsOf (c :: l) = slotRange c 0 I.slots ++ I.slotsOf l := by
  simp only [Image.slotsOf, List.flatMap_cons, slotRange, List.range_eq_range']

theorem scanSector_eq (hg : v.geo.Consistent) (hlo : 2 ≤ c) (hhi : c < v.geo.totalClusters + 2)
    (hs : s < v.geo.sectorsPerCluster) :
    scanSector visit (sectorOf v.ata.disk (clusterToLba v.geo c + s) blank)
        (Word.add (clusterToLba v.geo c) s) =
      (slotRange c (16 * s) 16).findSome? fun p ↦ visit (v.lookAt p) := by
  have hlba := hg.clusterToLba_eq hlo hhi
  have hlooks : ((List.range 16).map fun i ↦ (⟨direntAt (sectorOf v.ata.disk
      (clusterToLba v.geo c + s) blank) (i * 32), Word.add (clusterToLba v.geo c) s, i * 32⟩ :
        DirLookup)) = (slotRange c (16 * s) 16).map v.lookAt := by
    rw [slotRange, List.range'_eq_map_range, List.map_map, List.map_map]
    apply List.map_congr_left
    intro i hi
    have hi : i < 16 := List.mem_range.mp hi
    have hentry : direntAt (sectorOf v.ata.disk (clusterToLba v.geo c + s) blank) (i * 32) =
        v.image.entry (c, 16 * s + i) := by
      refine entry_eq_of_bytes hlo hhi (by omega) fun k hk ↦ ?_
      rw [sectorOf_apply _ _ _ _ (by omega), hlba, clusterAddr]
      congr 1
      omega
    have hsector : (16 * s + i) / 16 = s := by omega
    have hoffset : (16 * s + i) % 16 = i := by omega
    simp only [Function.comp_apply, Vol.lookAt, hentry, hsector, hoffset]
  have hscan := congrArg (List.findSome? visit) hlooks
  rwa [List.findSome?_map, List.findSome?_map] at hscan

theorem slotRange_succ (c s n : ℕ) : slotRange c (16 * s) (16 * (n + 1)) =
    slotRange c (16 * s) 16 ++ slotRange c (16 * (s + 1)) (16 * n) := by
  rw [slotRange, slotRange, slotRange, ← List.map_append, Nat.mul_succ 16 s,
    List.range'_append_1, Nat.mul_succ, Nat.add_comm]

/-- States in which the links of the clusters in `S` can be followed, and which stay such states
when sectors are read. -/
structure Links (P : Vol → Prop) (S : Set ℕ) : Prop where
  geo : ∀ v, P v → v.geo.Consistent
  read : ∀ v, P v → P (v.onDisk 1 v.ata.disk)
  next : ∀ v c, P v → c < v.geo.totalClusters + 2 → ∃ x v', nextCluster v c = (x, v') ∧
    Quiet v v' ∧ Later v v' ∧ P v' ∧
    (c ∈ S → x = v.image.fat c ∧ ¬Missed v v' ∨ x = 0x0FFFFFFF ∧ Missed v v')

theorem links_ready : Links Vol.Ready Set.univ where
  geo := fun _ h ↦ h.geo
  read := fun _ h ↦ ⟨h.mounted, h.geo, h.reliable, h.hint, h.cache⟩
  next := by
    intro v c h hc
    obtain ⟨v', hnext, hquiet, h'⟩ := nextCluster_spec h hc
    have hlater := nextCluster_later v c
    rw [hnext] at hlater
    exact ⟨_, v', hnext, hquiet, hlater, h', fun _ ↦ Or.inl ⟨rfl, h.not_missed⟩⟩

section Any

variable {P : Vol → Prop} {S : Set ℕ} (hP : Links P S)

include hP

theorem scanSectors_any (hlo : 2 ≤ c) (n : ℕ) (h : P v) (hhi : c < v.geo.totalClusters + 2)
    (hs : s + n = v.geo.sectorsPerCluster) :
    ∃ r v', scanSectors visit onFail (clusterToLba v.geo c) n s v = (r, v') ∧ Quiet v v' ∧
      Later v v' ∧ P v' ∧
      (r = ((slotRange c (16 * s) (16 * n)).findSome? fun p ↦ visit (v.lookAt p)) ∧ ¬Missed v v' ∨
        r = some onFail ∧ Missed v v') := by
  induction n generalizing s v with
  | zero => exact ⟨none, v, rfl, .refl v, .refl v, h, Or.inl ⟨rfl, not_missed_refl v⟩⟩
  | succ n ih =>
      have hlba := (hP.geo v h).clusterToLba_eq hlo hhi
      have hend := (hP.geo v h).cluster_end hlo hhi
      have hadd : Word.add (clusterToLba v.geo c) s = clusterToLba v.geo c + s :=
        Word.add_eq (by omega)
      have hlt : clusterToLba v.geo c + s < 2 ^ 28 := by omega
      have hread := v.readSector_any hlt blank
      have hquiet : Quiet v (v.onDisk 1 v.ata.disk) := ⟨⟨rfl, rfl, rfl⟩, rfl, rfl⟩
      have hlater : Later v (v.onDisk 1 v.ata.disk) := ⟨rfl, rfl, rfl, Nat.le_succ _⟩
      have hmissed := missed_read v
      have hsector := scanSector_eq visit (hP.geo v h) hlo hhi (s := s) (by omega)
      rw [slotRange_succ, List.findSome?_append, scanSectors]
      simp only [hadd] at hsector ⊢
      rw [hread]
      cases hready : v.ata.ready v.ata.polls with
      | false =>
          exact ⟨some onFail, _, rfl, hquiet, hlater, hP.read v h, Or.inr ⟨rfl, hmissed.mpr hready⟩⟩
      | true =>
          have hno : ¬Missed v (v.onDisk 1 v.ata.disk) := by simp [hmissed, hready]
          rw [if_pos rfl]
          dsimp only
          rw [hsector]
          cases hfound : (slotRange c (16 * s) 16).findSome? fun p ↦ visit (v.lookAt p) with
          | some r => exact ⟨some r, _, rfl, hquiet, hlater, hP.read v h, Or.inl ⟨rfl, hno⟩⟩
          | none =>
              have hs' : s + 1 + n = v.geo.sectorsPerCluster := by omega
              obtain ⟨r, v', hrest, hquiet', hlater', h', hr⟩ := ih (hP.read v h) (s := s + 1) hhi
                hs'
              refine ⟨r, v', hrest, hquiet.trans hquiet', hlater.trans hlater', h', ?_⟩
              simp only [hquiet.lookAt] at hr
              rwa [missed_iff hlater hlater', or_iff_right hno]

theorem scanLoop_any (l : List ℕ) {fuel : ℕ} (h : P v) (hS : ∀ c ∈ l, c ∈ S)
    (hl : v.image.Trail s l) (hfuel : l.length < fuel) :
    ∃ r v', scanLoop visit onFail onEnd fuel s v = .done (r, v') ∧ Quiet v v' ∧ Later v v' ∧
      P v' ∧
      (r = ((v.image.slotsOf l).findSome? fun p ↦ visit (v.lookAt p)).getD onEnd ∧ ¬Missed v v' ∨
        (r = onFail ∨ r = onEnd) ∧ Missed v v') := by
  induction l generalizing s v fuel with
  | nil =>
      have hz : isEoc s = true := hl
      obtain ⟨fuel, rfl⟩ : ∃ k, fuel = k + 1 := ⟨fuel - 1, by simp at hfuel; omega⟩
      refine ⟨onEnd, v, ?_, .refl v, .refl v, h, Or.inl ⟨rfl, not_missed_refl v⟩⟩
      rw [scanLoop, if_neg (by simp [hz])]
  | cons c l ih =>
      obtain ⟨rfl, hlo, hhi, heoc, hrest⟩ := hl
      obtain ⟨fuel, rfl⟩ : ∃ k, fuel = k + 1 := ⟨fuel - 1, by simp at hfuel; omega⟩
      have hfuel : l.length < fuel := Nat.lt_of_succ_lt_succ hfuel
      obtain ⟨r₁, v₁, hscan, hquiet₁, hlater₁, h₁, hr₁⟩ := scanSectors_any visit onFail hP hlo
        v.geo.sectorsPerCluster h hhi (s := 0) (Nat.zero_add _)
      have hslots : slotRange c (16 * 0) (16 * v.geo.sectorsPerCluster) =
          slotRange c 0 v.image.slots := rfl
      rw [scanLoop, if_pos ⟨by simp [heoc], hlo⟩, hscan, slotsOf_cons, List.findSome?_append]
      rw [hslots] at hr₁
      cases r₁ with
      | some r =>
          refine ⟨r, v₁, rfl, hquiet₁, hlater₁, h₁, ?_⟩
          rcases hr₁ with ⟨hfound, hno⟩ | ⟨hfail, hmissed⟩
          · rw [← hfound]
            exact Or.inl ⟨rfl, hno⟩
          · exact Or.inr ⟨Or.inl (Option.some.inj hfail), hmissed⟩
      | none =>
          obtain ⟨hnone, hno₁⟩ := hr₁.resolve_right fun hfail ↦ by cases hfail.1
          obtain ⟨x, v₂, hnext, hquiet₂, hlater₂, h₂, hx⟩ := hP.next v₁ c h₁
            (by rwa [hquiet₁.geo])
          have hquiet := hquiet₁.trans hquiet₂
          have hlater := hlater₁.trans hlater₂
          have hmissed := missed_iff hlater₁ hlater₂
          rw [or_iff_right hno₁] at hmissed
          rw [hquiet₁.image, ← hmissed] at hx
          rw [← hnone, Option.none_or]
          dsimp only
          rw [hnext]
          dsimp only
          rcases hx (hS c List.mem_cons_self) with ⟨rfl, hno⟩ | ⟨rfl, hyes⟩
          · obtain ⟨r, v', hloop, hquiet', hlater', h', hr⟩ := ih h₂
              (fun x hx ↦ hS x (List.mem_cons_of_mem c hx)) (s := v.image.fat c)
              (by rwa [hquiet.image]) hfuel
            refine ⟨r, v', hloop, hquiet.trans hquiet', hlater.trans hlater', h', ?_⟩
            simp only [hquiet.lookAt, hquiet.image] at hr
            rwa [missed_iff hlater hlater', or_iff_right hno]
          · obtain ⟨fuel, rfl⟩ : ∃ k, fuel = k + 1 := ⟨fuel - 1, by omega⟩
            refine ⟨onEnd, v₂, ?_, hquiet, hlater, h₂, Or.inr ⟨Or.inr rfl, hyes⟩⟩
            rw [scanLoop, if_neg (by decide)]

theorem scanDir_any (h : P v) (hl : v.image.Chain s l) (hS : ∀ c ∈ l, c ∈ S) :
    ∃ r v', scanDir visit onFail onEnd v s = .done (r, v') ∧ Quiet v v' ∧ Later v v' ∧ P v' ∧
      (r = ((v.image.slotsOf l).findSome? fun p ↦ visit (v.lookAt p)).getD onEnd ∧ ¬Missed v v' ∨
        (r = onFail ∨ r = onEnd) ∧ Missed v v') := by
  have hsmall := (hP.geo v h).total_small
  exact scanLoop_any visit onFail onEnd hP l h hS (hl.trail hsmall) (hl.length_lt_walkFuel hsmall)

end Any

theorem scanDir_spec (hv : v.Ready) (hl : v.image.Chain s l) :
    ∃ v', scanDir visit onFail onEnd v s =
        .done (((v.image.slotsOf l).findSome? fun p ↦ visit (v.lookAt p)).getD onEnd, v') ∧
      Quiet v v' ∧ v'.Ready := by
  obtain ⟨r, v', hscan, hquiet, -, hv', hr⟩ := scanDir_any visit onFail onEnd links_ready hv hl
    fun _ _ ↦ trivial
  rcases hr with ⟨rfl, -⟩ | ⟨-, hmissed⟩
  · exact ⟨v', hscan, hquiet, hv'⟩
  · exact absurd hmissed hv.not_missed

end Scan

/-- No used slot follows an end mark. -/
def Image.Ended (I : Image) (l : List ℕ) : Prop :=
  (I.slotsOf l).Pairwise fun p q ↦ (I.entry p).first = 0 → ¬(I.entry q).Used

theorem Image.Ended.not_used {I : Image} (h : I.Ended l) {pre post : List Pos}
    (hsplit : I.slotsOf l = pre ++ p :: post) (hmark : (I.entry p).first = 0) :
    ∀ q ∈ p :: post, ¬(I.entry q).Used := by
  rw [Image.Ended, hsplit] at h
  have hcons := (List.pairwise_append.mp h).2.1
  intro q hq
  rcases List.mem_cons.mp hq with rfl | hq
  · exact fun hused ↦ hused.1 hmark
  · exact (List.pairwise_cons.mp hcons).1 q hq hmark

theorem searchVisit_eq_none {target : List UInt8} {look : DirLookup}
    (h : searchVisit target look = none) :
    look.entry.Live → look.entry.name ≠ target := by
  rintro ⟨⟨hzero, hdeleted⟩, hlfn, hvol⟩ hname
  simp [searchVisit, hzero, hdeleted, hlfn, hvol, hname] at h

theorem searchVisit_eq_some {target : List UInt8} {look : DirLookup} {r : Option DirLookup}
    (h : searchVisit target look = some r) :
    r = none ∧ look.entry.first = 0 ∨
      r = some look ∧ look.entry.Live ∧ look.entry.name = target := by
  rw [searchVisit] at h
  split_ifs at h with hzero hdeleted hlfn hvol hname
  · exact Or.inl ⟨(Option.some.inj h).symm, hzero⟩
  · exact Or.inr ⟨(Option.some.inj h).symm, ⟨⟨hzero, hdeleted⟩, hlfn, not_not.mp hvol⟩, hname⟩

/-- What a search without failures finds: the live entry with the name, if there is one. -/
theorem search_result (hends : v.image.Ended l) (target : List UInt8) :
    let r := ((v.image.slotsOf l).findSome? fun p ↦ searchVisit target (v.lookAt p)).getD none
    r = none ∧ (∀ p ∈ v.image.slotsOf l, (v.image.entry p).Live →
        (v.image.entry p).name ≠ target) ∨
      ∃ p ∈ v.image.slotsOf l, r = some (v.lookAt p) ∧ (v.image.entry p).Live ∧
        (v.image.entry p).name = target := by
  cases hfound : (v.image.slotsOf l).findSome? fun p ↦ searchVisit target (v.lookAt p) with
  | none =>
      refine Or.inl ⟨rfl, fun p hp ↦ ?_⟩
      exact searchVisit_eq_none (List.findSome?_eq_none_iff.mp hfound p hp)
  | some r =>
      obtain ⟨pre, p, post, hsplit, hp, hpre⟩ := List.findSome?_eq_some_iff.mp hfound
      rcases searchVisit_eq_some hp with ⟨rfl, hmark⟩ | ⟨rfl, hlive, hname⟩
      · refine Or.inl ⟨rfl, fun q hq hlive ↦ ?_⟩
        rw [hsplit] at hq
        rcases List.mem_append.mp hq with hq | hq
        · exact searchVisit_eq_none (hpre q hq) hlive
        · exact absurd hlive.1 (hends.not_used hsplit hmark q hq)
      · exact Or.inr ⟨p, by simp [hsplit], rfl, hlive, hname⟩

theorem searchDir_spec (hv : v.Ready) (hl : v.image.Chain s l) (hends : v.image.Ended l)
    (target : List UInt8) :
    ∃ r v', searchDir v s target = .done (r, v') ∧ Quiet v v' ∧ v'.Ready ∧
      (r = none ∧ (∀ p ∈ v.image.slotsOf l, (v.image.entry p).Live →
          (v.image.entry p).name ≠ target) ∨
        ∃ p ∈ v.image.slotsOf l, r = some (v.lookAt p) ∧ (v.image.entry p).Live ∧
          (v.image.entry p).name = target) := by
  obtain ⟨v', hscan, hquiet, hv'⟩ := scanDir_spec (searchVisit target) none none hv hl
  exact ⟨_, v', hscan, hquiet, hv', search_result hends target⟩

/-- The first free slot of a directory, if there is one. -/
theorem free_result (v : Vol) (l : List ℕ) :
    let r := ((v.image.slotsOf l).findSome? fun p ↦ freeVisit (v.lookAt p)).getD none
    r = none ∧ (∀ p ∈ v.image.slotsOf l, (v.image.entry p).Used) ∨
      ∃ pre p post, r = some (v.lookAt p) ∧ v.image.slotsOf l = pre ++ p :: post ∧
        ¬(v.image.entry p).Used ∧ ∀ q ∈ pre, (v.image.entry q).Used := by
  have hnone : ∀ q, freeVisit (v.lookAt q) = none → (v.image.entry q).Used := by
    intro q hq
    rw [freeVisit] at hq
    split_ifs at hq with hused
    exact not_or.mp hused
  cases hfound : (v.image.slotsOf l).findSome? fun p ↦ freeVisit (v.lookAt p) with
  | none => exact Or.inl ⟨rfl, fun p hp ↦ hnone p (List.findSome?_eq_none_iff.mp hfound p hp)⟩
  | some r =>
      obtain ⟨pre, p, post, hsplit, hp, hpre⟩ := List.findSome?_eq_some_iff.mp hfound
      rw [freeVisit] at hp
      split_ifs at hp with hfree
      obtain rfl := Option.some.inj hp
      refine Or.inr ⟨pre, p, post, rfl, hsplit, ?_, fun q hq ↦ hnone q (hpre q hq)⟩
      rintro ⟨hzero, hdeleted⟩
      exact hfree.elim hzero hdeleted

/-- The search for a free slot that comes behind the search for a name, which has left `v₁`. -/
theorem findFreeDirentIn_spec {v₁ : Vol} (hq : Quiet v v₁) (hv₁ : v₁.Ready)
    (hl : v.image.Chain v.cwdCluster l) :
    ∃ r v', findFreeDirentIn v₁ v₁.cwdCluster = .done (r, v') ∧ Quiet v v' ∧ v'.Ready ∧
      (r = none ∧ (∀ p ∈ v.image.slotsOf l, (v.image.entry p).Used) ∨
        ∃ pre p post, r = some (v.lookAt p) ∧ v.image.slotsOf l = pre ++ p :: post ∧
          ¬(v.image.entry p).Used ∧ ∀ q ∈ pre, (v.image.entry q).Used) := by
  have hl₁ : v₁.image.Chain v₁.cwdCluster l := by rwa [hq.image, hq.cwd]
  obtain ⟨v', hscan, hquiet, hv'⟩ := scanDir_spec freeVisit none none hv₁ hl₁
  have hslot := free_result v₁ l
  simp only [hq.image, hq.lookAt] at hslot hscan
  exact ⟨_, v', hscan, hq.trans hquiet, hv', hslot⟩

/-- The entries that `dir_is_empty` passes over: a name that starts with a dot and then has
a space or another dot. -/
def Dirent.DotLike (e : Dirent) : Prop :=
  e.first = chDot ∧ (e 1 = chSpace ∨ e 1 = chDot)

instance (e : Dirent) : Decidable e.DotLike := inferInstanceAs (Decidable (_ ∧ (_ ∨ _)))

theorem empty_result (hends : v.image.Ended l) :
    ((v.image.slotsOf l).findSome? fun p ↦ emptyVisit (v.lookAt p)).getD true = true ↔
      ∀ p ∈ v.image.slotsOf l, (v.image.entry p).Live → (v.image.entry p).DotLike := by
  have hnone : ∀ p, emptyVisit (v.lookAt p) = none → (v.image.entry p).Live →
      (v.image.entry p).DotLike := by
    rintro p hp ⟨⟨-, hused⟩, hname, hfile⟩
    rw [emptyVisit] at hp
    split_ifs at hp with hzero hdeleted hlfn hvol hdot
    · exact absurd hdeleted hused
    · exact absurd hlfn hname
    · exact absurd hfile hvol
    · exact hdot
  cases hfound : (v.image.slotsOf l).findSome? fun p ↦ emptyVisit (v.lookAt p) with
  | none =>
      have hall := List.findSome?_eq_none_iff.mp hfound
      exact ⟨fun _ p hp ↦ hnone p (hall p hp), fun _ ↦ rfl⟩
  | some r =>
      obtain ⟨pre, p, post, hsplit, hp, hpre⟩ := List.findSome?_eq_some_iff.mp hfound
      rw [emptyVisit] at hp
      split_ifs at hp with hzero hdeleted hlfn hvol hdot
      · obtain rfl := Option.some.inj hp
        refine ⟨fun _ q hq hlive ↦ ?_, fun _ ↦ rfl⟩
        rw [hsplit] at hq
        rcases List.mem_append.mp hq with hq | hq
        · exact hnone q (hpre q hq) hlive
        · exact absurd hlive.1 (hends.not_used hsplit hzero q hq)
      · obtain rfl := Option.some.inj hp
        refine ⟨nofun, fun hall ↦ ?_⟩
        have hmem : p ∈ v.image.slotsOf l := by simp [hsplit]
        exact absurd (hall p hmem ⟨⟨hzero, hdeleted⟩, hlfn, not_not.mp hvol⟩) hdot

theorem dirIsEmpty_spec (hv : v.Ready) (hl : v.image.Chain s l) (hends : v.image.Ended l) :
    ∃ r v', dirIsEmpty v s = .done (r, v') ∧ Quiet v v' ∧ v'.Ready ∧
      (r = true ↔ ∀ p ∈ v.image.slotsOf l, (v.image.entry p).Live →
        (v.image.entry p).DotLike) := by
  obtain ⟨v', hscan, hquiet, hv'⟩ := scanDir_spec emptyVisit false true hv hl
  exact ⟨_, v', hscan, hquiet, hv', empty_result hends⟩

end MyOS.Fat32
