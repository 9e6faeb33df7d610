import MyOS.Fat32.Faults

/-!
# Storing a file or a directory on a drive that fails

`fat32_create`, `fat32_write_file` and `fat32_mkdir` leave the tree of an intact volume intact
whatever the drive does, with two exceptions.  A search that cannot read a sector reports that
the name is not there, and the call then stores a second entry with that name.  And a call that
has released the chain of a file and fails afterwards leaves the entry without its chain.
-/

namespace MyOS.Fat32

open Bytes Image

variable {v v' : Vol} {O : Set ℕ} {I J : Image} {c d : ℕ} {l old N : List ℕ} {p : Pos}
  {name target : List UInt8}

/-! ## Building a chain -/

/-- `J` is `I` with a chain `N` built of clusters outside `O`. -/
structure Grown (O : Set ℕ) (I J : Image) (N : List ℕ) : Prop where
  agree : Agree O I J
  apart : ∀ c ∈ N, c ∉ O
  chain : N ≠ [] → J.Chain (N.headD 0) N

namespace Grown

theorem range (h : Grown O I J N) (hc : c ∈ N) : 2 ≤ c ∧ c < J.total + 2 :=
  (h.chain (List.ne_nil_of_mem hc)).range c hc

/-- Nothing is built yet. -/
theorem nil (h : Agree O I J) : Grown O I J [] :=
  ⟨h, fun _ hc ↦ absurd hc List.not_mem_nil, fun hne ↦ absurd rfl hne⟩

theorem headD_ne_zero (h : Grown O I J N) : N.headD 0 ≠ 0 ↔ N ≠ [] := by
  cases N with
  | nil => simp
  | cons c N =>
      have := (h.range List.mem_cons_self).1
      simp
      omega

theorem getLastD_mem (hN : N ≠ []) : N.getLastD 0 ∈ N := by
  rw [List.getLastD_eq_getLast?, List.getLast?_eq_some_getLast hN]
  exact List.getLast_mem hN

theorem getLastD_ne_zero (h : Grown O I J N) : N.getLastD 0 ≠ 0 ↔ N ≠ [] := by
  constructor
  · rintro hne rfl
    exact hne rfl
  · intro hN
    have := (h.range (getLastD_mem hN)).1
    omega

theorem congr {J' : Image} (h : Grown O I J N) (hO : Agree O J J')
    (hN : ∀ c ∈ N, J'.fat c = J.fat c) : Grown O I J' N :=
  ⟨h.agree.trans hO, h.apart, fun hne ↦ (h.chain hne).congr hO.total hN⟩

/-- A cluster that is marked and not linked yet. -/
theorem mark (h : Grown O I J N) (hO : c ∉ O) (hN : c ∉ N) (x : ℕ) :
    Grown O I (J.setFat c x) N := by
  refine h.congr (.setFat hO x) fun y hy ↦ Function.update_of_ne ?_ _ _
  rintro rfl
  exact hN hy

theorem link (h : Grown O I J N) (hlo : 2 ≤ c) (hhi : c < J.total + 2) (hO : c ∉ O) (hN : c ∉ N) :
    Grown O I (Filled.linkLast (J.setFat c 0x0FFFFFFF) N c) (N ++ [c]) := by
  refine ⟨?_, ?_, fun _ ↦ Filled.linkLast_chain h.chain hlo hhi hN⟩
  · have hmark : Agree O I (J.setFat c 0x0FFFFFFF) := h.agree.trans (.setFat hO _)
    rw [Filled.linkLast]
    split_ifs with hne
    · exact hmark
    · exact hmark.trans (.setFat (h.apart _ (getLastD_mem hne)) _)
  · intro x hx
    rcases List.mem_append.mp hx with hx | hx
    · exact h.apart x hx
    · obtain rfl : x = c := by simpa using hx
      exact hO

end Grown

/-- The chain is built on a volume whose cache can be trusted there. -/
structure Building (O : Set ℕ) (I : Image) (v : Vol) (N : List ℕ) : Prop
    extends Grown O I v.image N where
  trusts : v.Trusts (O ∪ {c | c ∈ N})

namespace Building

variable {size written fuel : ℕ} {data : Bytes}

theorem nil (h : Agree O I v.image) (ht : v.Trusts O) : Building O I v [] := by
  refine ⟨.nil h, ht.mono ?_⟩
  rintro c (hc | hc)
  · exact hc
  · cases hc

/-- What is built is taken back: nothing but clusters outside `O` has changed. -/
theorem free (h : Building O I v N) (hN : N ≠ []) : ∃ v', freeChain v (N.headD 0) = .done v' ∧
    Keeps v v' ∧ Later v v' ∧ Building O I v' [] := by
  obtain ⟨v', hfree, hrel⟩ := freeChain_any h.trusts (h.chain hN) fun c hc ↦ Or.inr hc
  refine ⟨v', hfree, hrel.toKeeps, hrel.later, .nil ?_ ?_⟩
  · exact h.agree.trans (hrel.agree.mono fun c hc hcN ↦ h.apart c hcN hc)
  · exact hrel.trusts.mono fun c hc ↦ ⟨Or.inl hc, fun hcN ↦ h.apart c hcN hc⟩

theorem fat_ne_zero (h : Building O I v N) (hO : ∀ c ∈ O, I.fat c ≠ 0) :
    ∀ c ∈ O ∪ {c | c ∈ N}, v.image.fat c ≠ 0 := by
  rintro c (hc | hc)
  · rw [h.agree.fat c hc]
    exact hO c hc
  · exact (h.chain (List.ne_nil_of_mem hc)).fat_ne_zero hc

/-- Cluster `c` has been marked in `v`, and the cache is empty. -/
structure Marked (v : Vol) (N : List ℕ) (c : ℕ) (O : Set ℕ) (I J : Image) : Prop where
  grown : Grown O I J N
  trusts : v.Trusts Set.univ
  no_lba : v.fatSectorCachedLba = noLba
  lo : 2 ≤ c
  hi : c < J.total + 2
  apart : c ∉ O
  fresh : c ∉ N
  image : v.image = J.setFat c 0x0FFFFFFF

theorem alloc (h : Building O I v N) (hO : ∀ c ∈ O, I.fat c ≠ 0) :
    ∃ c v', allocCluster v = (c, v') ∧ Keeps v v' ∧ Later v v' ∧
      (c = 0 ∧ Building O I v' N ∨ Marked v' N c O I v.image) := by
  obtain ⟨c, v', halloc, hkeep, hlater, hres⟩ := allocCluster_any h.trusts (h.fat_ne_zero hO)
  refine ⟨c, v', halloc, hkeep, hlater, ?_⟩
  rcases hres with ⟨rfl, htrusts, hagree⟩ | ⟨hlo, hhi, hnot, htrusts, hno, himage⟩
  · refine Or.inl ⟨rfl, h.toGrown.congr (hagree.mono fun _ hc ↦ Or.inl hc) ?_, htrusts⟩
    exact fun c hc ↦ hagree.fat c (Or.inr hc)
  · exact Or.inr ⟨h.toGrown, htrusts, hno, hlo, hhi, fun hc ↦ hnot (Or.inl hc),
      fun hc ↦ hnot (Or.inr hc), himage⟩

/-- The new cluster is linked and written, or there is still a chain that can be taken back. -/
theorem extend (h : Marked v N c O I J) (cbuf : Bytes) :
    ∃ ok v', extendChain (N.getLastD 0) c cbuf v = (ok, v') ∧ Keeps v v' ∧ Later v v' ∧
      (ok = true → Building O I v' (N ++ [c])) ∧
      (ok = false → ∃ M, M ≠ [] ∧ M.headD 0 = (N ++ [c]).headD 0 ∧ Building O I v' M) := by
  have hlinked := h.grown.link h.lo h.hi h.apart h.fresh
  have hhi : c < v.geo.totalClusters + 2 := by
    have htotal : v.image.total = J.total := by rw [h.image]; rfl
    have hsame : v.image.total = v.geo.totalClusters := rfl
    have := h.hi
    omega
  -- a linked chain stays one when its last cluster is written
  have hwrite : ∀ v₁, Keeps v v₁ → Later v v₁ → v₁.Trusts Set.univ →
      v₁.image = Filled.linkLast (J.setFat c 0x0FFFFFFF) N c → ∃ ok v',
        v₁.ataWrite (clusterToLba v₁.geo c) v₁.geo.sectorsPerCluster cbuf = (ok, v') ∧
        Keeps v v' ∧ Later v v' ∧ Building O I v' (N ++ [c]) := by
    intro v₁ hkeep hlater htrusts himage
    obtain ⟨ok, v', hres, htouched, -⟩ := writeCluster_any htrusts.geo h.lo
      (by rwa [hkeep.geo]) cbuf
    refine ⟨ok, v', hres, hkeep.trans htouched.toKeeps, hlater.trans htouched.later, ?_,
      (htouched.trusts htrusts).mono (Set.subset_univ _)⟩
    rw [← himage] at hlinked
    exact hlinked.congr (htouched.agree h.apart) fun x _ ↦ congrFun htouched.fat x
  by_cases hN : N = []
  · obtain ⟨ok, v', hres, hkeep, hlater, hbuilt⟩ := hwrite v (.refl v) (.refl v) h.trusts (by
      rw [Filled.linkLast, if_pos hN, h.image])
    refine ⟨ok, v', ?_, hkeep, hlater, fun _ ↦ hbuilt, fun _ ↦ ⟨N ++ [c], by simp, rfl, hbuilt⟩⟩
    rw [extendChain, if_neg (by simp [hN])]
    exact hres
  · have hlast := Grown.getLastD_mem hN
    have hsmall := h.trusts.geo.total_small
    rw [badCluster] at hsmall
    have hlastlt : N.getLastD 0 < v.geo.totalClusters + 2 := by
      have hrange := (h.grown.range hlast).2
      have htotal : v.image.total = J.total := by rw [h.image]; rfl
      have hsame : v.image.total = v.geo.totalClusters := rfl
      omega
    obtain ⟨ok, v₁, hset, hkeep, hlater, hhint, -, hno, himage, hok⟩ :=
      h.trusts.setFatEntry (x := c) hlastlt (by omega)
    have htrusts := h.trusts.of_noLba hkeep hhint (hno h.no_lba) Set.univ
    have hlink : Filled.linkLast (J.setFat c 0x0FFFFFFF) N c =
        v.image.setFat (N.getLastD 0) c := by rw [Filled.linkLast, if_neg hN, h.image]
    cases ok with
    | false =>
        refine ⟨false, v₁, ?_, hkeep, hlater, (by simp), fun _ ↦ ?_⟩
        · rw [extendChain, if_pos ((h.grown.getLastD_ne_zero).mpr hN), hset]
        · rcases himage with himage | himage
          · refine ⟨N, hN, ?_, ?_, htrusts.mono (Set.subset_univ _)⟩
            · cases N with
              | nil => exact absurd rfl hN
              | cons x N => rfl
            · rw [himage, h.image]
              exact h.grown.mark h.apart h.fresh _
          · refine ⟨N ++ [c], by simp, rfl, ?_, htrusts.mono (Set.subset_univ _)⟩
            rw [himage, ← hlink]
            exact hlinked
    | true =>
        obtain ⟨ok, v', hres, hkeep', hlater', hbuilt⟩ := hwrite v₁ hkeep hlater htrusts
          ((hok rfl).2.trans hlink.symm)
        refine ⟨ok, v', ?_, hkeep', hlater', fun _ ↦ hbuilt,
          fun _ ↦ ⟨N ++ [c], by simp, rfl, hbuilt⟩⟩
        rw [extendChain, if_pos ((h.grown.getLastD_ne_zero).mpr hN), hset]
        exact hres

/-- The loop of `fat32_write_file` builds the chain, or it gives up and takes it back. -/
theorem writeClusters (h : Building O I v N) (hO : ∀ c ∈ O, I.fat c ≠ 0) (data : Bytes)
    (hwritten : written = min size (N.length * (32 * I.slots))) (hfuel : size - written < fuel) :
    ∃ r v', MyOS.Fat32.writeClusters data size fuel (N.headD 0) (N.getLastD 0) written v =
        .done (r, v') ∧ Keeps v v' ∧ Later v v' ∧
      (r = none ∧ Building O I v' [] ∨
        ∃ N', r = some (N'.headD 0) ∧ Building O I v' N' ∧
          size ≤ N'.length * (32 * I.slots)) := by
  induction fuel generalizing N v written with
  | zero => omega
  | succ fuel ih =>
      rw [writeClusters_succ]
      by_cases hmore : written < size
      · rw [if_pos hmore]
        obtain ⟨c, v₁, halloc, hkeep₁, hlater₁, hres⟩ := h.alloc hO
        rw [halloc]
        dsimp only
        rcases hres with ⟨rfl, h₁⟩ | hmarked
        · rw [if_pos rfl]
          by_cases hN : N = []
          · subst hN
            rw [if_neg (by simp)]
            exact ⟨none, v₁, rfl, hkeep₁, hlater₁, Or.inl ⟨rfl, h₁⟩⟩
          · obtain ⟨v₂, hfree, hkeep₂, hlater₂, h₂⟩ := h₁.free hN
            rw [if_pos (h.headD_ne_zero.mpr hN), hfree, Outcome.done_bind]
            exact ⟨none, v₂, rfl, hkeep₁.trans hkeep₂, hlater₁.trans hlater₂, Or.inl ⟨rfl, h₂⟩⟩
        · have hc0 : c ≠ 0 := by
            have := hmarked.lo
            omega
          obtain ⟨ok, v₂, hextend, hkeep₂, hlater₂, hok, hfail⟩ := extend hmarked
            (roundData v.geo data size written)
          have hkeep := hkeep₁.trans hkeep₂
          have hlater := hlater₁.trans hlater₂
          rw [if_neg hc0, headD_concat h.headD_ne_zero, hextend]
          dsimp only
          cases ok with
          | false =>
              obtain ⟨M, hM, hMhead, hbuilt⟩ := hfail rfl
              obtain ⟨v₃, hfree, hkeep₃, hlater₃, h₃⟩ := hbuilt.free hM
              rw [if_neg (by simp), ← hMhead, hfree, Outcome.done_bind]
              exact ⟨none, v₃, rfl, hkeep.trans hkeep₃, hlater.trans hlater₃, Or.inl ⟨rfl, h₃⟩⟩
          | true =>
              have hslots : I.slots = 16 * v.geo.sectorsPerCluster := h.agree.slots.symm
              have hbytes : v.geo.sectorsPerCluster * 512 = 32 * I.slots := by omega
              have hgrows := lt_add_roundSize h.trusts.geo.spc_pos hmore
              have hlast : (N ++ [c]).getLastD 0 = c := by simp
              obtain ⟨r, v₃, hloop, hkeep₃, hlater₃, hres⟩ := ih (hok rfl)
                (add_roundSize hbytes hwritten c) (by omega)
              rw [hlast] at hloop
              rw [if_pos rfl]
              exact ⟨r, v₃, hloop, hkeep.trans hkeep₃, hlater.trans hlater₃, hres⟩
      · rw [if_neg hmore]
        exact ⟨_, v, rfl, .refl v, .refl v, Or.inr ⟨N, rfl, h, by omega⟩⟩

/-- The loop as `fat32_write_file` starts it. -/
theorem writeClusters_start (h : Building O I v []) (hO : ∀ c ∈ O, I.fat c ≠ 0) (data : Bytes)
    (hsize : size < 2 ^ 32) :
    ∃ r v', MyOS.Fat32.writeClusters data size walkFuel 0 0 0 v = .done (r, v') ∧ Keeps v v' ∧
      Later v v' ∧
      (r = none ∧ Building O I v' [] ∨
        ∃ N', r = some (N'.headD 0) ∧ Building O I v' N' ∧
          size ≤ N'.length * (32 * I.slots)) :=
  h.writeClusters hO data (by simp) (by rw [walkFuel]; omega)

end Building

/-! ## Putting an entry into its slot -/

namespace Image

/-- The clusters of all owners but slot `p`. -/
def OwnedBut (I : Image) (p : Pos) : Set ℕ := {c | ∃ o m, I.Owns o m ∧ o ≠ some p ∧ c ∈ m}

theorem ownedBut_subset (I : Image) (p : Pos) : I.OwnedBut p ⊆ I.Owned := by
  rintro c ⟨o, m, ho, -, hc⟩
  exact ⟨o, m, ho, hc⟩

/-- An owner without clusters makes no difference. -/
theorem Site.owned_subset (h : Site I d l p []) : I.Owned ⊆ I.OwnedBut p := by
  rintro c ⟨o, m, ho, hc⟩
  refine ⟨o, m, ho, ?_, hc⟩
  rintro rfl
  rcases h.owned with hown | ⟨hdead, -⟩
  · rw [ho.unique h.wf.small hown] at hc
    cases hc
  · obtain ⟨⟨_, _, -, -, -, hlive, -⟩, -⟩ := ho
    exact hdead hlive

theorem patch_patch (I : Image) (c off n : ℕ) (src src' : Bytes) :
    (I.patch c off n src).patch c off n src' = I.patch c off n src' := by
  simp only [patch, Function.update_self, Function.update_idem, blit_blit]

theorem rechained_of_release (J : Image) (N : List ℕ) : Rechained (J.release N) J [] N where
  total := rfl
  slots := rfl
  root := rfl
  fat_other := fun _ _ hc ↦ (if_neg hc).symm
  fat_freed := nofun
  fresh := fun _ hc ↦ Or.inr (if_pos hc)
  data_other := fun _ _ ↦ rfl

theorem Agree.release (h : Agree O I J) (hN : ∀ c ∈ N, c ∉ O) : Agree O I (J.release N) :=
  ⟨h.total, h.slots, h.root, fun c hc ↦ (if_neg fun hcN ↦ hN c hcN hc).trans (h.fat c hc), h.data⟩

theorem Agree.patch (h : Agree O I J) (hc : c ∈ O) (off n : ℕ) (src : Bytes) :
    Agree O (I.patch c off n src) (J.patch c off n src) := by
  refine ⟨h.total, h.slots, h.root, h.fat, fun c' hc' ↦ ?_⟩
  simp only [Image.patch, h.data c hc]
  by_cases hsame : c' = c
  · rw [hsame, Function.update_self, Function.update_self]
  · rw [Function.update_of_ne hsame, Function.update_of_ne hsame, h.data c' hc']

end Image

section Sites

variable {e : Dirent} {size : ℕ}

/-- The file in the slot, without its contents. -/
theorem WriteSite.tidy_emptied (h : WriteSite I d l p old target e) :
    Tidy I ((I.release old).patch p.1 (32 * p.2) 32 (writtenEntry e [] 0)) d l p old [] :=
  h.tidy_rechained (rechained_release I old) (fun hne ↦ absurd rfl hne) (by norm_num)
    (Nat.zero_le _)

theorem WriteSite.slot_mem (h : WriteSite I d l p old target e) : p.1 ∈ I.OwnedBut p := by
  obtain ⟨o, ho, hne⟩ := h.tidy_emptied.dir_owner h.dir h.chain h.tidy_emptied.dir_not_removed
  exact ⟨o, l, ho, hne, (mem_slotsOf.mp h.mem).1⟩

/-- The slot can still be written when the file has been emptied and other clusters have
changed. -/
theorem WriteSite.later {I₀ : Image} (h : WriteSite I d l p old target e)
    (hagree : Agree ((I.release old).patch p.1 (32 * p.2) 32 (writtenEntry e [] 0)).Owned
      ((I.release old).patch p.1 (32 * p.2) 32 (writtenEntry e [] 0)) I₀) :
    WriteSite I₀ d l p [] target e := by
  have htidy := h.tidy_emptied
  have hentry := patch_entry_dirent (I.release old) p
    (e := writtenEntry e [] 0) h.canonical.setCluster.setSize
  have hother : ∀ q ∈ I.slotsOf l, q ≠ p →
      ((I.release old).patch p.1 (32 * p.2) 32 (writtenEntry e [] 0)).entry q = I.entry q :=
    fun q _ hqp ↦ htidy.entry_other hqp (by simp)
  have hslots : I₀.slotsOf l = I.slotsOf l := hagree.slotsOf
  generalize (I.release old).patch p.1 (32 * p.2) 32 (writtenEntry e [] 0) = I₁ at *
  have hI₁ := htidy.intact
  have hdir := htidy.isDir_dir
  have hl := htidy.chain_keep h.dir h.chain htidy.dir_not_removed
  have hslots₁ : I₁.slotsOf l = I.slotsOf l := htidy.slotsOf_eq
  have hsame : ∀ q ∈ I.slotsOf l, I₀.entry q = I₁.entry q :=
    fun q hq ↦ hagree.entry_eq hI₁ hdir hl (hslots₁ ▸ hq)
  have hslot : I₀.entry p = writtenEntry e [] 0 := (hsame p h.mem).trans hentry
  have hlive : (I₁.entry p).Live := by
    rw [hentry, Dirent.live_congr writtenEntry_name writtenEntry_attr]
    exact h.live
  have hisEntry := htidy.isEntry_slot hlive
  have hlive₀ : (I₀.entry p).Live := by rwa [hsame p h.mem]
  refine ⟨⟨⟨hagree.intact hI₁, (hagree.isDir_iff hI₁).mpr hdir, (hagree.chain_iff hI₁ hdir).mpr hl,
    hslots ▸ h.mem, Or.inl ⟨(hagree.isEntry_iff hI₁).mpr hisEntry,
      (hagree.entryChain_iff hI₁ hisEntry).mpr (htidy.placed hlive).chain⟩⟩,
    h.canonical, h.not_dot, h.name_eq, h.file, fun _ ↦ ?_, Or.inl hlive₀, ?_, ?_⟩, h.live⟩
  · rw [hslot, Dirent.isDirectory_congr writtenEntry_attr, writtenEntry_name,
      Dirent.isDot_congr writtenEntry_name]
    exact ⟨h.file, h.name_eq, h.not_dot⟩
  · intro q hq hqp hqlive
    rw [hslots] at hq
    rw [hsame q hq, hother q hq hqp] at hqlive ⊢
    exact h.name_new q hq hqp hqlive
  · obtain ⟨pre, post, hsplit, hpre⟩ := h.before
    refine ⟨pre, post, hslots.trans hsplit, fun q hq ↦ ?_⟩
    have hnodup := nodup_slotsOf (I := I) h.chain.nodup
    rw [hsplit] at hnodup
    have hqp : q ≠ p := (List.nodup_append.mp hnodup).2.2 q hq p List.mem_cons_self
    have hqmem : q ∈ I.slotsOf l := by simp [hsplit, hq]
    rw [hsame q hqmem, hother q hqmem hqp]
    exact hpre q hq

/-- A chain that is built beside the tree and put into the slot. -/
theorem WriteSite.tidy_grown (h : WriteSite I d l p old target e)
    (hgrown : Grown (I.OwnedBut p) I J N) (hsize : size < 2 ^ 32)
    (hfits : size ≤ N.length * (32 * I.slots)) :
    ∃ I₀ : Image, I₀.Owned ⊆ I.OwnedBut p ∧
      Tidy I₀ (J.patch p.1 (32 * p.2) 32 (writtenEntry e N size)) d l p [] N := by
  have htidy := h.tidy_emptied
  have howned : ((I.release old).patch p.1 (32 * p.2) 32 (writtenEntry e [] 0)).Owned ⊆
      I.OwnedBut p := by
    rintro c ⟨o, m, ho, hc⟩
    rcases htidy.owns_cases ho with ⟨ho, hne⟩ | ⟨-, -, rfl⟩
    · exact ⟨o, m, ho, hne, hc⟩
    · cases hc
  have hreleased : Agree (I.OwnedBut p) (I.release old) J := by
    refine ⟨hgrown.agree.total, hgrown.agree.slots, hgrown.agree.root, fun c hc ↦ ?_,
      hgrown.agree.data⟩
    have hsame := hgrown.agree.fat c hc
    obtain ⟨o, m, ho, hne, hcm⟩ := hc
    have hcold : c ∉ old := (htidy.owns_disjoint ho hne).1 hcm
    exact hsame.trans (if_neg hcold).symm
  have hagree := ((hreleased.patch h.slot_mem (32 * p.2) 32 (writtenEntry e [] 0)).release
    hgrown.apart).mono howned
  have hsite := h.later hagree
  refine ⟨_, (hagree.owned_eq htidy.intact).subset.trans howned, ?_⟩
  have hfinal := hsite.tidy_rechained (rechained_of_release _ N)
    (fun hne ↦ (hgrown.chain hne).congr rfl fun _ _ ↦ rfl) hsize
    (hfits.trans_eq (by rw [← hgrown.agree.slots]; rfl))
  rwa [patch_patch] at hfinal

/-- An entry whose name starts like a deleted one leaves the slot free. -/
theorem tidy_unnamed (hsite : Site I d l p []) (hunused : ¬(I.entry p).Used) (he : e.Canonical)
    (hdeleted : e.first = 0xE5) : Tidy I (I.patch p.1 (32 * p.2) 32 e) d l p [] [] := by
  refine ⟨hsite.edit (rechained_refl I) (fun hlive ↦ absurd hlive.1 hunused) e (le_refl 32),
    Or.inl ⟨?_, rfl⟩⟩
  rw [patch_entry_dirent I p he, hdeleted]

/-- The site of an edit is still there when clusters outside the tree have changed. -/
theorem Image.Site.congr (hsite : Site I d l p []) (hagree : Agree I.Owned I J) :
    Site J d l p [] := by
  have hl := hsite.chain
  have hp := hsite.mem
  refine ⟨hagree.intact hsite.wf, (hagree.isDir_iff hsite.wf).mpr hsite.dir,
    (hagree.chain_iff hsite.wf hsite.dir).mpr hl, hagree.slotsOf ▸ hp, ?_⟩
  rw [hagree.owns_iff hsite.wf, hagree.entry_eq hsite.wf hsite.dir hl hp]
  exact hsite.owned

/-- A name that the directory already holds is put into a free slot. -/
theorem Image.Site.twice {q : Pos} (hsite : Site I d l p []) (hunused : ¬(I.entry p).Used)
    (he : e.Canonical) (hlive : e.Live) (hq : q ∈ I.slotsOf l) (hqlive : (I.entry q).Live)
    (hname : e.name = (I.entry q).name) :
    ¬(I.patch p.1 (32 * p.2) 32 e).NamesUnique := by
  have hedit := hsite.edit (rechained_refl I) (fun hlive ↦ absurd hlive.1 hunused) e (le_refl 32)
  have hother : ∀ {q : Pos}, (I.entry q).Live →
      (I.patch p.1 (32 * p.2) 32 e).entry q = I.entry q := by
    intro q hqlive
    refine hedit.entry_other ?_ (by simp)
    rintro rfl
    exact hunused hqlive.1
  have hchain : ∀ {x m}, I.Chain x m → (I.patch p.1 (32 * p.2) 32 e).Chain x m :=
    fun hm ↦ hm.congr rfl fun _ _ ↦ rfl
  -- no directory is reached through a free slot
  have hdir : ∀ x, I.IsDir x → (I.patch p.1 (32 * p.2) 32 e).IsDir x := by
    intro x hx
    induction hx with
    | root => exact .root
    | @sub d m q _ hm hq hqlive hdot hsub ih =>
        have hsame := hother hqlive
        rw [← hsame] at hqlive hdot hsub ⊢
        exact .sub ih (hchain hm) hq hqlive hdot hsub
  intro hunique
  have hslot := patch_entry_dirent I p he
  have heq := hunique d l p q (hdir d hsite.dir) (hchain hsite.chain) hsite.mem hq
    (by rwa [hslot]) (by rwa [hother hqlive]) (by rw [hslot, hother hqlive, hname])
  rw [heq] at hunused
  exact hunused hqlive.1

end Sites

/-! ## Volumes -/

/-- An intact volume on any drive. -/
structure Vol.Steady (v : Vol) : Prop where
  wf : v.image.Intact
  cwd : v.image.IsDir v.cwdCluster
  trusts : v.Trusts v.image.Owned

theorem Vol.Sound.steady (h : v.Sound) : v.Steady := ⟨h.wf, h.cwd, h.ready.trusts _⟩

namespace Vol.Steady

theorem of_agree (h : v.Steady) (hkeep : Keeps v v')
    (hagree : Agree v.image.Owned v.image v'.image) (ht : v'.Trusts v.image.Owned) :
    v'.Steady := by
  refine ⟨hagree.intact h.wf, ?_, ?_⟩
  · rw [hagree.isDir_iff h.wf, hkeep.cwd]
    exact h.cwd
  · rwa [hagree.owned_eq h.wf]

theorem quiet (h : v.Steady) (hq : Quiet v v') (ht : v'.Trusts v.image.Owned) : v'.Steady := by
  refine h.of_agree hq.toKeeps ?_ ht
  rw [hq.image]
  exact .refl _ _

theorem of_tidy {I₀ : Image} (howned : I₀.Owned ⊆ O)
    (htidy : Tidy I₀ v'.image v'.cwdCluster l p old N) (ht : v'.Trusts (O ∪ {c | c ∈ N})) :
    v'.Steady := by
  refine ⟨htidy.intact, htidy.isDir_dir, ht.mono ?_⟩
  rintro c ⟨o, m, ho, hc⟩
  rcases htidy.owns_cases ho with ⟨ho, -⟩ | ⟨-, -, rfl⟩
  · exact Or.inl (howned ⟨o, m, ho, hc⟩)
  · exact Or.inr hc

theorem dir_trusted (h : v.Steady) (hl : v.image.Chain v.cwdCluster l) :
    ∀ c ∈ l, c ∈ v.image.Owned := h.wf.dir_owned h.cwd hl

/-- The search for a name in the working directory. -/
theorem search (h : v.Steady) (hl : v.image.Chain v.cwdCluster l) (target : List UInt8) :
    ∃ r v', searchDir v v.cwdCluster target = .done (r, v') ∧ Quiet v v' ∧ Later v v' ∧
      v'.Steady ∧ v'.Trusts v.image.Owned ∧
      (r = none ∧ ((∀ p ∈ v.image.slotsOf l, (v.image.entry p).Live →
          (v.image.entry p).name ≠ target) ∨ Missed v v') ∨
        ¬Missed v v' ∧ ∃ p ∈ v.image.slotsOf l, r = some (v.lookAt p) ∧ (v.image.entry p).Live ∧
          (v.image.entry p).name = target) := by
  obtain ⟨r, v', hsearch, hquiet, hlater, ht, hr⟩ := searchDir_any h.trusts hl (h.dir_trusted hl)
    (h.wf.ends _ l h.cwd hl) target
  exact ⟨r, v', hsearch, hquiet, hlater, h.quiet hquiet ht, ht, hr⟩

/-- The search for a free slot behind it. -/
theorem findFree {v₁ : Vol} (h₁ : v₁.Steady) (hq : Quiet v v₁) (hlater₁ : Later v v₁)
    (hl : v.image.Chain v.cwdCluster l) :
    ∃ r v', findFreeDirentIn v₁ v₁.cwdCluster = .done (r, v') ∧ Quiet v v' ∧ Later v v' ∧
      v'.Steady ∧
      (r = none ∨ ∃ pre p post, r = some (v.lookAt p) ∧ v.image.slotsOf l = pre ++ p :: post ∧
        ¬(v.image.entry p).Used ∧ ∀ q ∈ pre, (v.image.entry q).Used) := by
  have hl₁ : v₁.image.Chain v₁.cwdCluster l := by rwa [hq.image, hq.cwd]
  obtain ⟨r, v', hfree, hquiet, hlater, ht, hr⟩ := findFreeDirentIn_any h₁.trusts hl₁
    (h₁.dir_trusted hl₁)
  simp only [hq.image, hq.lookAt] at hr
  exact ⟨r, v', hfree, hq.trans hquiet, hlater₁.trans hlater, h₁.quiet hquiet ht, hr⟩

end Vol.Steady

/-! ## Calls -/

/-- The name is in the working directory and the call does not find it. -/
def Misses (v : Vol) (target : List UInt8) : Prop :=
  (∃ p, v.image.Named v.cwdCluster target p) ∧
    ∃ v', searchDir v v.cwdCluster target = .done (none, v')

/-- The call finds a file that has a chain. -/
def Overwrites (v : Vol) (target : List UInt8) : Prop :=
  ∃ look v', searchDir v v.cwdCluster target = .done (some look, v') ∧
    look.entry.isDirectory = false ∧ 2 ≤ look.entry.start

/-- A search that is not wrong has told the truth. -/
theorem absent_of_not_misses {r : Option DirLookup} (hl : v.image.Chain v.cwdCluster l)
    (hsearch : searchDir v v.cwdCluster target = .done (r, v')) (hr : r = none)
    (hmiss : ¬Misses v target) :
    ∀ q ∈ v.image.slotsOf l, (v.image.entry q).Live → (v.image.entry q).name ≠ target :=
  fun q hq hlive hname ↦ hmiss ⟨⟨q, l, hl, hq, hlive, hname⟩, v', hr ▸ hsearch⟩

/-- The place a scan has found is still there after the volume has changed. -/
theorem writeDirent_at (h : v'.Trusts O) (hkeep : Keeps v v') (hslot : v.HasSlot p)
    (e : Dirent) :
    ∃ ok v'', writeDirent v' (v.lookAt p).lba (v.lookAt p).offset e = (ok, v'') ∧
      Touched v' v'' p.1 ∧ (ok = true → v''.image = v'.image.patch p.1 (32 * p.2) 32 e) ∧
      (ok = false → v''.image = v'.image) := by
  obtain ⟨ok, v'', hwrite, hres⟩ := writeDirent_any h.geo (hasSlot_later hkeep hslot) e
  rw [(lookAt_later hkeep).1, (lookAt_later hkeep).2] at hwrite
  exact ⟨ok, v'', hwrite, hres⟩

/-- What a call that stores `target` leaves behind, when it answers `r`. -/
structure Stored (v v' : Vol) (target : List UInt8) (overwrites : Prop) (r : ℤ) : Prop
    extends Keeps v v' where
  later : Later v v'
  code : r = 0 ∨ r = -1
  steady : ¬(Misses v target ∧ r = 0) → ¬(overwrites ∧ r = -1) → v'.Steady
  unique : v'.image.NamesUnique ↔ ¬(Misses v target ∧ r = 0)

section Stored

variable {W : Prop} {r : ℤ}

theorem Vol.Steady.stored (h : v'.Steady) (hkeep : Keeps v v') (hlater : Later v v')
    (hcode : r = 0 ∨ r = -1) (hnot : ¬(Misses v target ∧ r = 0)) : Stored v v' target W r :=
  ⟨hkeep, hlater, hcode, fun _ _ ↦ h, iff_of_true h.wf.names hnot⟩

/-- A call that fails and leaves the tree alone. -/
theorem Vol.Steady.failed (h : v'.Steady) (hkeep : Keeps v v') (hlater : Later v v') :
    Stored v v' target W (-1) :=
  h.stored hkeep hlater (Or.inr rfl) fun h ↦ absurd h.2 (by decide)

/-- A new entry has been put into a free slot. -/
theorem stored_of_put {e : Dirent} (h : v.Steady) (hl : v.image.Chain v.cwdCluster l)
    (hnul : 0 ∉ name) (hp : p ∈ v.image.slotsOf l) (hunused : ¬(v.image.entry p).Used)
    (hsearch : ∃ w, searchDir v v.cwdCluster (toShortName name) = .done (none, w))
    (hkeep : Keeps v v') (hlater : Later v v') (hagree : Agree v.image.Owned v.image J)
    (he : e.Canonical) (hname : e.name = toShortName name)
    (hattr : e.attr = 0x20 ∨ e.attr = fatAttrDirectory)
    (himage : v'.image = J.patch p.1 (32 * p.2) 32 e)
    (hnew : (∀ q ∈ v.image.slotsOf l, (v.image.entry q).Live →
      (v.image.entry q).name ≠ toShortName name) → v'.Steady) :
    Stored v v' (toShortName name) W 0 := by
  by_cases hmiss : Misses v (toShortName name)
  · refine ⟨hkeep, hlater, Or.inl rfl, fun hnot ↦ absurd ⟨hmiss, rfl⟩ hnot,
      iff_of_false ?_ (not_not_intro ⟨hmiss, rfl⟩)⟩
    obtain ⟨⟨q, m, hm, hq, hqlive, hqname⟩, -⟩ := hmiss
    obtain rfl := hm.unique h.wf.small hl
    have hsite : Site v.image v.cwdCluster m p [] :=
      ⟨h.wf, h.cwd, hl, hp, Or.inr ⟨fun hlive ↦ hunused hlive.1, rfl⟩⟩
    have hlive : e.Live := by
      refine (live_or_deleted hnul hname hattr).resolve_right fun hdeleted ↦ ?_
      rw [Dirent.first_congr (hname.trans hqname.symm)] at hdeleted
      exact hqlive.1.2 hdeleted.1
    rw [himage]
    refine (hsite.congr hagree).twice (q := q) ?_ he hlive (hagree.slotsOf ▸ hq) ?_ ?_
    · rwa [hagree.entry_eq h.wf h.cwd hl hp]
    · rwa [hagree.entry_eq h.wf h.cwd hl hq]
    · rw [hagree.entry_eq h.wf h.cwd hl hq, hqname, hname]
  · obtain ⟨w, hsearch⟩ := hsearch
    exact (hnew (absent_of_not_misses hl hsearch rfl hmiss)).stored hkeep hlater (Or.inl rfl)
      fun h ↦ hmiss h.1

end Stored

/-- A new file has been put into a free slot, under a name that is new. -/
theorem put_file {pre post : List Pos} {size : ℕ} (h : v.Steady)
    (hl : v.image.Chain v.cwdCluster l) (hnul : 0 ∉ name)
    (hsplit : v.image.slotsOf l = pre ++ p :: post) (hunused : ¬(v.image.entry p).Used)
    (hpre : ∀ q ∈ pre, (v.image.entry q).Used)
    (hnew : ∀ q ∈ v.image.slotsOf l, (v.image.entry q).Live →
      (v.image.entry q).name ≠ toShortName name)
    (hgrown : Grown (v.image.OwnedBut p) v.image J N) (hsize : size < 2 ^ 32)
    (hfits : size ≤ N.length * (32 * v.image.slots)) (hcwd : v'.cwdCluster = v.cwdCluster)
    (himage : v'.image = J.patch p.1 (32 * p.2) 32
      (writtenEntry ((Dirent.setName blank (toShortName name)).setAttr 0x20) N size))
    (ht : v'.Trusts (v.image.OwnedBut p ∪ {c | c ∈ N})) : v'.Steady := by
  have hname :
      ((Dirent.setName blank (toShortName name)).setAttr 0x20).name = toShortName name := by
    rw [Dirent.name_setAttr, Dirent.name_setName (toShortName_length name)]
  rcases live_or_deleted (e := (Dirent.setName blank (toShortName name)).setAttr 0x20) hnul hname
    (Or.inl Dirent.attr_setAttr) with hlive | ⟨hdeleted, -⟩
  · have hsite : WriteSite v.image v.cwdCluster l p [] (toShortName name)
        ((Dirent.setName blank (toShortName name)).setAttr 0x20) :=
      ⟨.of_free h.wf h.cwd hl hsplit hunused hpre hnew, hlive⟩
    obtain ⟨I₀, howned, htidy⟩ := hsite.tidy_grown hgrown hsize hfits
    rw [← himage, ← hcwd] at htidy
    exact .of_tidy howned htidy ht
  · have hsite : Site v.image v.cwdCluster l p [] := .of_free h.wf h.cwd hl hsplit hunused
    have hagree := hgrown.agree.mono hsite.owned_subset
    have hunused' : ¬(J.entry p).Used := by
      rwa [hagree.entry_eq h.wf h.cwd hl hsite.mem]
    have htidy := tidy_unnamed (hsite.congr hagree) hunused'
      (e := writtenEntry ((Dirent.setName blank (toShortName name)).setAttr 0x20) N size)
      Dirent.canonical_blank.setName.setAttr.setCluster.setSize (by
        have hfirst := Dirent.first_eq_head (writtenEntry
          ((Dirent.setName blank (toShortName name)).setAttr 0x20) N size)
        rw [writtenEntry_name, Dirent.first_eq_head] at hfirst
        rw [← Option.some.inj hfirst, hdeleted])
    rw [← himage, ← hcwd] at htidy
    refine .of_tidy (O := v.image.OwnedBut p) ?_ htidy (ht.mono ?_)
    · rw [hagree.owned_eq h.wf]
      exact hsite.owned_subset
    · exact Set.union_subset Set.subset_union_left nofun

theorem fat32Create_any (h : v.Steady) (hnul : 0 ∉ name) :
    ∃ r v', fat32Create v name = .done (r, v') ∧ Stored v v' (toShortName name) False r := by
  obtain ⟨l, hl⟩ := h.wf.dir_chain h.cwd
  obtain ⟨found, v₁, hsearch, hq₁, hlater₁, h₁, -, hfound⟩ := h.search hl (toShortName name)
  rw [fat32Create, if_pos h.trusts.mounted]
  simp only [hsearch, Outcome.done_bind]
  cases found with
  | some look => exact ⟨-1, v₁, rfl, h₁.failed hq₁.toKeeps hlater₁⟩
  | none =>
      obtain ⟨slot, v₂, hfree, hq, hlater, h₂, hslot⟩ := h₁.findFree hq₁ hlater₁ hl
      simp only [hfree, Outcome.done_bind]
      rcases hslot with rfl | ⟨pre, p, post, rfl, hsplit, hunused, hpre⟩
      · exact ⟨-1, v₂, rfl, h₂.failed hq.toKeeps hlater⟩
      have hp : p ∈ v.image.slotsOf l := by simp [hsplit]
      obtain ⟨ok, v₃, hwrite, htouched, hok, hfail⟩ := writeDirent_at h₂.trusts hq.toKeeps
        (hasSlot_of_mem hl hp) (newDirent (toShortName name) 0x20 0 0)
      simp only [hwrite, Outcome.pure_eq_done]
      have ht₃ := htouched.trusts h₂.trusts
      have hkeep := hq.toKeeps.trans htouched.toKeeps
      refine ⟨_, v₃, rfl, ?_⟩
      cases ok with
      | false =>
          refine (h₂.of_agree htouched.toKeeps ?_ ht₃).failed hkeep (hlater.trans htouched.later)
          rw [hfail rfl]
          exact .refl _ _
      | true =>
          have himage := hok rfl
          rw [hq.image] at himage ht₃
          refine stored_of_put h hl hnul hp hunused ⟨v₁, hsearch⟩ hkeep
            (hlater.trans htouched.later) (.refl _ _) canonical_newDirent
            shortName_newDirent (Or.inl attr_newDirent) himage fun hnew ↦ ?_
          refine put_file h hl hnul hsplit hunused hpre hnew (N := []) (.nil (.refl _ _))
            (by norm_num) (Nat.zero_le _) hkeep.cwd himage (ht₃.mono ?_)
          rintro c (hc | hc)
          · exact ownedBut_subset _ p hc
          · cases hc

/-- What `fat32_write_file` starts from: a place for a new file, or a file without its chain. -/
def Targeted (v : Vol) (l : List ℕ) (target : List UInt8) (p : Pos) (old : List ℕ)
    (e : Dirent) : Prop :=
  (old = [] ∧ e = (Dirent.setName blank target).setAttr 0x20 ∧
      (∃ v', searchDir v v.cwdCluster target = .done (none, v')) ∧
      ∃ pre post, v.image.slotsOf l = pre ++ p :: post ∧ ¬(v.image.entry p).Used ∧
        ∀ q ∈ pre, (v.image.entry q).Used) ∨
    WriteSite v.image v.cwdCluster l p old target e ∧
      (∃ look v', searchDir v v.cwdCluster target = .done (some look, v')) ∧
      (old = [] ∨ Overwrites v target)

theorem writeTarget_any (h : v.Steady) (hl : v.image.Chain v.cwdCluster l) (name : List UInt8) :
    ∃ r v', writeTarget v (toShortName name) = .done (r, v') ∧ Keeps v v' ∧ Later v v' ∧
      (r = none ∧ v'.Steady ∨
        ∃ p old e, r = some { v.lookAt p with entry := e } ∧ p ∈ v.image.slotsOf l ∧
          Targeted v l (toShortName name) p old e ∧
          Building (v.image.OwnedBut p) v.image v' []) := by
  obtain ⟨found, v₁, hsearch, hq₁, hlater₁, h₁, ht₁, hfound⟩ := h.search hl (toShortName name)
  rw [writeTarget]
  simp only [hsearch, Outcome.done_bind]
  rcases hfound with ⟨rfl, -⟩ | ⟨-, p, hp, rfl, hlive, htarget⟩
  · obtain ⟨slot, v₂, hfree, hq, hlater, h₂, hslot⟩ := h₁.findFree hq₁ hlater₁ hl
    simp only [hfree, Outcome.done_bind]
    rcases hslot with rfl | ⟨pre, p, post, rfl, hsplit, hunused, hpre⟩
    · exact ⟨none, v₂, rfl, hq.toKeeps, hlater, Or.inl ⟨rfl, h₂⟩⟩
    · refine ⟨_, v₂, rfl, hq.toKeeps, hlater, Or.inr ⟨p, [], _, rfl,
        by simp [hsplit], Or.inl ⟨rfl, rfl, ⟨v₁, hsearch⟩, pre, post, hsplit, hunused, hpre⟩,
        .nil ?_ ?_⟩⟩
      · rw [hq.image]
        exact .refl _ _
      · have ht₂ := h₂.trusts
        rw [hq.image] at ht₂
        exact ht₂.mono (ownedBut_subset _ p)
  · have hlook : (v.lookAt p).entry = v.image.entry p := rfl
    simp only [hlook]
    by_cases hdir : (v.image.entry p).isDirectory = true
    · rw [if_pos hdir]
      exact ⟨none, v₁, rfl, hq₁.toKeeps, hlater₁, Or.inl ⟨rfl, h₁⟩⟩
    · rw [if_neg hdir]
      have hfile : (v.image.entry p).isDirectory = false := Bool.eq_false_iff.mpr hdir
      obtain ⟨old, hold, hsite⟩ := WriteSite.of_file h.wf h.cwd hl hp hlive htarget hfile
      have hentry : v.image.IsEntry p :=
        .of_mem h.cwd hl hp hlive (not_dot_of_shortName htarget)
      -- the chain of the file belongs to nobody else
      have hapart : ∀ c ∈ old, c ∉ v.image.OwnedBut p := by
        rintro c hc ⟨o, m, ho, hne, hcm⟩
        have hown : v.image.Owns (some p) old := ⟨hentry, hold⟩
        exact hne (h.wf.owner_eq ho hown hcm hc)
      rcases hold.cases with ⟨hstart, hchain⟩ | ⟨hstart, rfl⟩
      · rw [← hq₁.image] at hchain
        obtain ⟨v₂, hfree, hrel⟩ := freeChain_any ht₁ hchain fun c hc ↦
          ⟨some p, old, ⟨hentry, hold⟩, hc⟩
        rw [hq₁.image] at hfree
        rw [if_pos hstart, hfree, Outcome.done_bind]
        refine ⟨_, v₂, rfl, hq₁.toKeeps.trans hrel.toKeeps, hlater₁.trans hrel.later,
          Or.inr ⟨p, old, _, rfl, hp,
            Or.inr ⟨hsite, ⟨_, v₁, hsearch⟩, Or.inr ⟨_, v₁, hsearch, hfile, hstart⟩⟩,
            .nil ?_ ?_⟩⟩
        · have hagree := hrel.agree
          rw [hq₁.image] at hagree
          exact hagree.mono fun c hc hcold ↦ hapart c hcold hc
        · refine hrel.trusts.mono fun c hc ↦ ?_
          exact ⟨ownedBut_subset _ p hc, fun hcold ↦ hapart c hcold hc⟩
      · rw [if_neg (by omega), Outcome.pure_eq_done, Outcome.done_bind]
        refine ⟨_, v₁, rfl, hq₁.toKeeps, hlater₁, Or.inr ⟨p, [], _, rfl, hp,
          Or.inr ⟨hsite, ⟨_, v₁, hsearch⟩, Or.inl rfl⟩, .nil ?_ ?_⟩⟩
        · rw [hq₁.image]
          exact .refl _ _
        · exact ht₁.mono (ownedBut_subset _ p)

/-- A file has none of the clusters of the directories. -/
theorem WriteSite.dirClusters_subset {e : Dirent} (h : WriteSite I d l p old target e) :
    I.DirClusters ⊆ I.OwnedBut p := by
  rintro c ⟨x, m, hx, hm, hc⟩
  obtain ⟨o, ho, hne⟩ := h.tidy_emptied.dir_owner hx hm fun hremoved ↦ by
    obtain ⟨_, _, -, -, -, hlive, -⟩ := hremoved.1
    have hfile := (h.was_file hlive).1
    rw [hremoved.2.1] at hfile
    cases hfile
  exact ⟨o, m, ho, hne, hc⟩

/-- A call that fails before the entry is written has changed nothing but clusters outside the
tree and, if it overwrites a file, the chain of the file. -/
theorem failed_of_building {e : Dirent} (h : v.Steady) (hl : v.image.Chain v.cwdCluster l)
    (htarget : Targeted v l target p old e) (hkeep : Keeps v v') (hlater : Later v v')
    (hbuilt : Building (v.image.OwnedBut p) v.image v' N) :
    Stored v v' target (Overwrites v target) (-1) := by
  have hfailed : v.image.Owned ⊆ v.image.OwnedBut p →
      Stored v v' target (Overwrites v target) (-1) := fun hsub ↦
    (h.of_agree hkeep (hbuilt.agree.mono hsub)
      (hbuilt.trusts.mono fun c hc ↦ Or.inl (hsub hc))).failed hkeep hlater
  rcases htarget with ⟨rfl, -, -, pre, post, hsplit, hunused, -⟩ | ⟨hsite, -, rfl | hover⟩
  · exact hfailed (Site.of_free h.wf h.cwd hl hsplit hunused).owned_subset
  · exact hfailed hsite.toSite.owned_subset
  · refine ⟨hkeep, hlater, Or.inr rfl, fun _ hnot ↦ absurd ⟨hover, rfl⟩ hnot, iff_of_true ?_ ?_⟩
    · exact (hbuilt.agree.mono hsite.dirClusters_subset).namesUnique h.wf
    · exact fun h ↦ absurd h.2 (by decide)

theorem fat32WriteFile_any (h : v.Steady) (hnul : 0 ∉ name) (data : Bytes) {size : ℕ}
    (hsize : size < 2 ^ 32) :
    ∃ r v', fat32WriteFile v name data size = .done (r, v') ∧
      Stored v v' (toShortName name) (Overwrites v (toShortName name)) r := by
  obtain ⟨l, hl⟩ := h.wf.dir_chain h.cwd
  obtain ⟨slot, v₁, htarget, hkeep₁, hlater₁, hslot⟩ := writeTarget_any h hl name
  rw [fat32WriteFile, if_pos h.trusts.mounted]
  simp only [htarget, Outcome.done_bind]
  rcases hslot with ⟨rfl, h₁⟩ | ⟨p, old, e, rfl, hp, hsite, hbuilding⟩
  · exact ⟨-1, v₁, rfl, h₁.failed hkeep₁ hlater₁⟩
  have hO : ∀ c ∈ v.image.OwnedBut p, v.image.fat c ≠ 0 :=
    fun c hc ↦ fat_ne_zero_of_owned (ownedBut_subset _ p hc)
  obtain ⟨r, v₂, hloop, hkeep₂, hlater₂, hres⟩ := hbuilding.writeClusters_start hO data hsize
  have hkeep := hkeep₁.trans hkeep₂
  have hlater := hlater₁.trans hlater₂
  simp only [hloop, Outcome.done_bind]
  rcases hres with ⟨rfl, h₂⟩ | ⟨N, rfl, h₂, hfits⟩
  · exact ⟨-1, v₂, rfl, failed_of_building h hl hsite hkeep hlater h₂⟩
  obtain ⟨ok, v₃, hwrite, htouched, hok, hfail⟩ := writeDirent_at h₂.trusts hkeep
    (hasSlot_of_mem hl hp) (writtenEntry e N size)
  rw [writtenEntry] at hwrite
  simp only [hwrite, Outcome.pure_eq_done]
  have ht₃ := htouched.trusts h₂.trusts
  have hkeep₃ := hkeep.trans htouched.toKeeps
  have hlater₃ := hlater.trans htouched.later
  refine ⟨_, v₃, rfl, ?_⟩
  cases ok with
  | false =>
      refine failed_of_building h hl hsite hkeep₃ hlater₃ (N := N) ⟨?_, ht₃⟩
      rw [hfail rfl]
      exact h₂.toGrown
  | true =>
      rcases hsite with ⟨-, rfl, hsearch, pre, post, hsplit, hunused, hpre⟩ |
        ⟨hsite, ⟨look, w, hfound⟩, -⟩
      · have hagree := h₂.agree.mono
          (Site.of_free h.wf h.cwd hl hsplit hunused).owned_subset
        refine stored_of_put (e := writtenEntry _ N size) h hl hnul hp hunused hsearch hkeep₃
          hlater₃ hagree Dirent.canonical_blank.setName.setAttr.setCluster.setSize ?_
          (Or.inl (writtenEntry_attr.trans Dirent.attr_setAttr)) (hok rfl) fun hnew ↦ ?_
        · rw [writtenEntry_name, Dirent.name_setAttr, Dirent.name_setName (toShortName_length name)]
        · exact put_file h hl hnul hsplit hunused hpre hnew h₂.toGrown hsize hfits hkeep₃.cwd
            (hok rfl) ht₃
      · obtain ⟨I₀, howned, htidy⟩ := hsite.tidy_grown h₂.toGrown hsize hfits
        rw [← hok rfl, ← hkeep₃.cwd] at htidy
        refine Vol.Steady.stored (.of_tidy howned htidy ht₃) hkeep₃ hlater₃ (Or.inl rfl) ?_
        rintro ⟨⟨-, w', hnone⟩, -⟩
        rw [hfound] at hnone
        cases hnone

theorem withDirectory_agree (parent : ℕ) (hc : c ∉ O) : Agree O I (I.withDirectory c parent) := by
  refine ⟨rfl, rfl, rfl, fun x hx ↦ Function.update_of_ne ?_ _ _,
    fun x hx ↦ Function.update_of_ne ?_ _ _⟩
  · rintro rfl
    exact hc hx
  · rintro rfl
    exact hc hx

/-- A new directory has been put into a free slot, under a name that is new. -/
theorem put_directory {pre post : List Pos} {parent : ℕ} (h : v.Steady)
    (hl : v.image.Chain v.cwdCluster l) (hnul : 0 ∉ name)
    (hsplit : v.image.slotsOf l = pre ++ p :: post) (hunused : ¬(v.image.entry p).Used)
    (hpre : ∀ q ∈ pre, (v.image.entry q).Used)
    (hnew : ∀ q ∈ v.image.slotsOf l, (v.image.entry q).Live →
      (v.image.entry q).name ≠ toShortName name)
    (hlo : 2 ≤ c) (hhi : c < v.image.total + 2) (hc : c ∉ v.image.Owned)
    (hcwd : v'.cwdCluster = v.cwdCluster)
    (himage : v'.image = (v.image.withDirectory c parent).patch p.1 (32 * p.2) 32
      (newDirent (toShortName name) fatAttrDirectory c 0))
    (ht : v'.Trusts Set.univ) : v'.Steady := by
  have hname : Dirent.name (newDirent (toShortName name) fatAttrDirectory c 0) =
      toShortName name := shortName_newDirent
  have hattr : Dirent.attr (newDirent (toShortName name) fatAttrDirectory c 0) =
      fatAttrDirectory := attr_newDirent
  have hsite : Site v.image v.cwdCluster l p [] := .of_free h.wf h.cwd hl hsplit hunused
  rcases live_or_deleted hnul hname (Or.inr hattr) with hlive | ⟨hdeleted, -⟩
  · -- the cluster may have been lost before; it might as well have been free
    have hagree : Agree v.image.Owned v.image (v.image.setFat c 0) := .setFat hc 0
    have hsame : (v.image.setFat c 0).withDirectory c parent = v.image.withDirectory c parent := by
      simp only [withDirectory, setFat, Function.update_idem]
    have htidy : Tidy (v.image.setFat c 0) v'.image v'.cwdCluster l p [] [c] := by
      rw [himage, hcwd, ← hsame]
      refine tidy_mkdir (hsite.congr hagree) hunused hlo hhi (Function.update_self _ _ _)
        canonical_newDirent hlive (not_dot_of_shortName hname) ?_ (start_newDirent ?_) ?_
        ⟨pre, post, hsplit, fun q hq ↦ (hpre q hq).1⟩
      · rw [Dirent.isDirectory, hattr]
        decide
      · have hsmall := h.wf.small
        rw [badCluster] at hsmall
        omega
      · intro q hq _ hlive
        rw [hname]
        exact hnew q hq hlive
    exact .of_tidy (O := Set.univ) (Set.subset_univ _) htidy (ht.mono (Set.subset_univ _))
  · have hagree := withDirectory_agree (I := v.image) parent hc
    have hunused' : ¬((v.image.withDirectory c parent).entry p).Used := by
      rwa [hagree.entry_eq h.wf h.cwd hl hsite.mem]
    have htidy := tidy_unnamed (hsite.congr hagree) hunused' canonical_newDirent hdeleted
    rw [← himage, ← hcwd] at htidy
    exact .of_tidy (O := Set.univ) (Set.subset_univ _) htidy (ht.mono (Set.subset_univ _))

/-- The first cluster of something new, after searches that changed nothing. -/
theorem Vol.Steady.allocFirst {v₁ : Vol} (h₁ : v₁.Steady) (hq : Quiet v v₁) :
    ∃ c v', allocCluster v₁ = (c, v') ∧ Keeps v₁ v' ∧ Later v₁ v' ∧
      (c = 0 ∧ Building v.image.Owned v.image v' [] ∨
        Building.Marked v' [] c v.image.Owned v.image v.image) := by
  have hbuilding : Building v.image.Owned v.image v₁ [] := by
    have ht := h₁.trusts
    rw [hq.image] at ht
    refine .nil ?_ ht
    rw [hq.image]
    exact .refl _ _
  obtain ⟨c, v', halloc, hkeep, hlater, hres⟩ := hbuilding.alloc fun c hc ↦
    fat_ne_zero_of_owned hc
  rw [hq.image] at hres
  exact ⟨c, v', halloc, hkeep, hlater, hres⟩

/-- A cluster that is marked is a chain of its own. -/
theorem Building.Marked.first {O : Set ℕ} (h : Marked v [] c O I J) : Grown O I v.image [c] := by
  have hlink := h.grown.link h.lo h.hi h.apart h.fresh
  rw [Filled.linkLast, if_pos rfl, ← h.image] at hlink
  exact hlink

/-- The cluster of a directory that could not be linked is taken back. -/
theorem steady_of_freed (h : v.Steady) (hkeep : Keeps v v') (hlater : Later v v')
    (hbuilt : Building v.image.Owned v.image v' [c]) :
    ∃ v'', (freeChain v' c >>= fun v ↦ pure ((-1 : ℤ), v)) = .done (-1, v'') ∧ Keeps v v'' ∧
      Later v v'' ∧ v''.Steady := by
  obtain ⟨v'', hfree, hkeep', hlater', h''⟩ := hbuilt.free (List.cons_ne_nil c [])
  have hfree : freeChain v' c = .done v'' := hfree
  rw [hfree]
  exact ⟨v'', rfl, hkeep.trans hkeep', hlater.trans hlater', h.of_agree (hkeep.trans hkeep')
    h''.agree (h''.trusts.mono Set.subset_union_left)⟩

theorem fat32Mkdir_any (h : v.Steady) (hnul : 0 ∉ name) :
    ∃ r v', fat32Mkdir v name = .done (r, v') ∧ Stored v v' (toShortName name) False r := by
  obtain ⟨l, hl⟩ := h.wf.dir_chain h.cwd
  obtain ⟨found, v₁, hsearch, hq₁, hlater₁, h₁, -, -⟩ := h.search hl (toShortName name)
  rw [fat32Mkdir, if_pos h.trusts.mounted]
  simp only [hsearch, Outcome.done_bind]
  cases found with
  | some look => exact ⟨-1, v₁, rfl, h₁.failed hq₁.toKeeps hlater₁⟩
  | none =>
      obtain ⟨slot, v₂, hfree, hq, hlater, h₂, hslot⟩ := h₁.findFree hq₁ hlater₁ hl
      simp only [hfree, Outcome.done_bind]
      rcases hslot with rfl | ⟨pre, p, post, rfl, hsplit, hunused, hpre⟩
      · exact ⟨-1, v₂, rfl, h₂.failed hq.toKeeps hlater⟩
      have hp : p ∈ v.image.slotsOf l := by simp [hsplit]
      obtain ⟨c, v₃, halloc, hkeep₃, hlater₃, hres⟩ := h₂.allocFirst hq
      have hkeep := hq.toKeeps.trans hkeep₃
      have hlater := hlater.trans hlater₃
      simp only [halloc]
      rcases hres with ⟨rfl, h₃⟩ | hmarked
      · exact ⟨-1, v₃, rfl, (h.of_agree hkeep h₃.agree
          (h₃.trusts.mono Set.subset_union_left)).failed hkeep hlater⟩
      have hlo := hmarked.lo
      have hhi := hmarked.hi
      have himage₃ := hmarked.image
      have hc0 : c ≠ 0 := by omega
      have hgrown := hmarked.first
      obtain ⟨ok, v₄, hwrite, htouched₄, hok₄⟩ := writeCluster_any hmarked.trusts.geo hlo
        (by rw [hkeep.geo]; exact hhi) (newDirectory c (if v₃.cwdCluster = v₃.geo.rootCluster then 0
          else v₃.cwdCluster))
      have hkeep₄ := hkeep.trans htouched₄.toKeeps
      have hlater₄ := hlater.trans htouched₄.later
      have ht₄ := htouched₄.trusts hmarked.trusts
      have hgrown₄ := hgrown.congr (htouched₄.agree hmarked.apart) fun x _ ↦
        congrFun htouched₄.fat x
      simp only [if_neg hc0, hwrite]
      cases ok with
      | false =>
          obtain ⟨v₅, hres, hkeep₅, hlater₅, h₅⟩ := steady_of_freed h hkeep₄ hlater₄
            ⟨hgrown₄, ht₄.mono (Set.subset_univ _)⟩
          exact ⟨-1, v₅, hres, h₅.failed hkeep₅ hlater₅⟩
      | true =>
          obtain ⟨ok, v₅, hdirent, htouched₅, hok₅, hfail₅⟩ := writeDirent_at ht₄ hkeep₄
            (hasSlot_of_mem hl hp) (newDirent (toShortName name) fatAttrDirectory c 0)
          have hkeep₅ := hkeep₄.trans htouched₅.toKeeps
          have hlater₅ := hlater₄.trans htouched₅.later
          have ht₅ := htouched₅.trusts ht₄
          dsimp only
          rw [linkDirectory, hdirent]
          cases ok with
          | false =>
              obtain ⟨v₆, hres, hkeep₆, hlater₆, h₆⟩ := steady_of_freed (c := c) h hkeep₅ hlater₅
                ⟨by rw [hfail₅ rfl]; exact hgrown₄, ht₅.mono (Set.subset_univ _)⟩
              exact ⟨-1, v₆, hres, h₆.failed hkeep₆ hlater₆⟩
          | true =>
              have himage := hok₅ rfl
              have hbytes : clusterBytes v₃.geo = 32 * v.image.slots := by
                rw [hkeep.geo, clusterBytes_eq]
              rw [hok₄ rfl, himage₃, hbytes] at himage
              refine ⟨0, v₅, rfl, stored_of_put h hl hnul hp hunused ⟨v₁, hsearch⟩ hkeep₅ hlater₅
                (withDirectory_agree _ hmarked.apart) canonical_newDirent
                shortName_newDirent (Or.inr attr_newDirent) himage fun hnew ↦ ?_⟩
              exact put_directory h hl hnul hsplit hunused hpre hnew hlo hhi hmarked.apart
                hkeep₅.cwd himage ht₅

end MyOS.Fat32
