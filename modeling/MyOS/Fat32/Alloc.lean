import MyOS.Fat32.Disk

/-!
# Allocating and releasing clusters

`alloc_cluster` tries every cluster once, from the allocation hint on and around the end of
the volume.  `free_chain` clears a chain link by link.  `fat32_write_file` builds a new chain
cluster by cluster; when the volume runs full it clears what it has built.
-/

namespace MyOS.Fat32

open Bytes

variable {v : Vol} {I J : Image} {c s : ℕ} {l : List ℕ}

/-! ## One cluster -/

/-- The cluster that round `i` of the search tries. -/
def candidate (total hint i : ℕ) : ℕ :=
  if total + 2 ≤ hint + i then hint + i - total else hint + i

theorem candidate_range {total hint i : ℕ} (hlo : 2 ≤ hint) (hhi : hint ≤ total + 2)
    (hi : i < total) : 2 ≤ candidate total hint i ∧ candidate total hint i < total + 2 := by
  rw [candidate]
  split <;> omega

/-- Every cluster is the candidate of some round. -/
theorem exists_candidate {total hint : ℕ} (hlo : 2 ≤ hint) (hc : 2 ≤ c) (hct : c < total + 2)
    (hhi : hint ≤ total + 2) : ∃ i < total, candidate total hint i = c := by
  rcases le_or_gt hint c with hle | hgt
  · refine ⟨c - hint, by omega, ?_⟩
    rw [candidate, if_neg (by omega)]
    omega
  · refine ⟨c + total - hint, by omega, ?_⟩
    rw [candidate, if_pos (by omega)]
    omega

theorem candidate_eq {total hint i : ℕ} (hsmall : total + 2 ≤ badCluster)
    (hhi : hint ≤ total + 2) (hi : i < total) :
    (if Word.add total 2 ≤ Word.add hint i then Word.add 2 (Word.sub (Word.add hint i)
      (Word.add total 2)) else Word.add hint i) = candidate total hint i := by
  rw [badCluster] at hsmall
  rw [Word.add_eq (a := total) (by omega), Word.add_eq (a := hint) (by omega), candidate]
  split
  · rw [Word.sub_eq (by omega) (by omega), Word.add_eq (by omega)]
    omega
  · rfl

/-- What is left to do when a free cluster has been found. -/
def takeCluster (v : Vol) (c : ℕ) : ℕ × Vol :=
  match setFatEntry v c 0x0FFFFFFF with
  | (false, v) => (0, v)
  | (true, v) => (c, { v with allocHint := Word.add c 1 })

/-- The search tries every cluster: as long as `next_cluster` reads the links of `t`, it finds
the first candidate without one, or there is none. -/
theorem allocLoop_search {P : Vol → Prop} {t : ℕ → ℕ} {total hint : ℕ}
    (hsmall : total + 2 ≤ badCluster) (hlo : 2 ≤ hint) (hhi : hint ≤ total + 2)
    (hinv : ∀ v, P v → v.geo.totalClusters = total ∧ v.allocHint = hint)
    (hnext : ∀ v c, P v → 2 ≤ c → c < total + 2 → ∃ v', nextCluster v c = (t c, v') ∧ P v')
    (hv : P v) (n i : ℕ) (hn : n + i = total)
    (hbefore : ∀ j < i, t (candidate total hint j) ≠ 0) :
    (∃ v', allocLoop n i v = (0, v') ∧ P v' ∧ ∀ x, 2 ≤ x → x < total + 2 → t x ≠ 0) ∨
      ∃ c v', 2 ≤ c ∧ c < total + 2 ∧ t c = 0 ∧ P v' ∧
        allocLoop n i v = takeCluster v' c := by
  induction n generalizing i v with
  | zero =>
      refine Or.inl ⟨v, rfl, hv, fun x hx hxt ↦ ?_⟩
      obtain ⟨j, hj, rfl⟩ := exists_candidate hlo hx hxt hhi
      exact hbefore j (by omega)
  | succ n ih =>
      obtain ⟨htotal, hhint⟩ := hinv v hv
      have hcand := candidate_eq (i := i) hsmall hhi (by omega)
      obtain ⟨hclo, hchi⟩ := candidate_range (i := i) hlo hhi (by omega)
      obtain ⟨v₁, hread, hv₁⟩ := hnext v _ hv hclo hchi
      rw [← htotal, ← hhint] at hcand
      simp only [allocLoop, hcand]
      rw [htotal, hhint, hread]
      by_cases hfree : t (candidate total hint i) = 0
      · refine Or.inr ⟨_, v₁, hclo, hchi, hfree, hv₁, ?_⟩
        simp only [hfree, if_true]
        rfl
      · simp only [if_neg hfree]
        refine ih hv₁ (i + 1) (by omega) fun j hj ↦ ?_
        rcases Nat.lt_succ_iff_lt_or_eq.mp hj with hlt | rfl
        · exact hbefore j hlt
        · exact hfree

/-- What an allocation does: it takes a free cluster, or it finds that there is none. -/
def Allocated (v : Vol) (c : ℕ) (v' : Vol) : Prop :=
  v'.Ready ∧ Keeps v v' ∧
    (c = 0 ∧ v'.image = v.image ∧ (∀ x, 2 ≤ x → x < v.geo.totalClusters + 2 → v.image.fat x ≠ 0) ∨
      2 ≤ c ∧ c < v.geo.totalClusters + 2 ∧ v.image.fat c = 0 ∧
        v'.image = v.image.setFat c 0x0FFFFFFF)

theorem allocLoop_spec (hv : v.Ready) (hlo : 2 ≤ v.allocHint) :
    ∃ c v', allocLoop v.geo.totalClusters 0 v = (c, v') ∧ Allocated v c v' := by
  have hsmall := hv.geo.total_small
  rcases allocLoop_search (P := fun w ↦ w.Ready ∧ Quiet v w) (t := v.image.fat) hsmall hlo
    hv.hint (fun w hw ↦ ⟨by rw [hw.2.geo], hw.2.hint⟩)
    (fun w c hw _ hc ↦ by
      obtain ⟨v', hnext, hquiet, hv'⟩ := nextCluster_spec hw.1 (c := c) (by rwa [hw.2.geo])
      rw [hw.2.image] at hnext
      exact ⟨v', hnext, hv', hw.2.trans hquiet⟩)
    ⟨hv, .refl v⟩ v.geo.totalClusters 0 rfl (fun j hj ↦ absurd hj (Nat.not_lt_zero j)) with
    ⟨v', hloop, ⟨hv', hquiet⟩, hfull⟩ | ⟨c, v₁, hclo, hchi, hfree, ⟨hv₁, hquiet⟩, hloop⟩
  · exact ⟨0, v', hloop, hv', hquiet.toKeeps, Or.inl ⟨rfl, hquiet.image, hfull⟩⟩
  · obtain ⟨v₂, hset, hv₂, hkeep, hhint, himage⟩ := setFatEntry_spec (x := 0x0FFFFFFF) hv₁
      (c := c) (by rwa [hquiet.geo]) (by norm_num)
    simp only [takeCluster, hset] at hloop
    have hkeeps := hquiet.toKeeps.trans hkeep
    rw [badCluster] at hsmall
    refine ⟨_, _, hloop, ⟨hv₂.mounted, hv₂.geo, hv₂.reliable, ?_, hv₂.cache⟩,
      ⟨hkeeps.geo, hkeeps.cwd, hkeeps.mounted⟩, Or.inr ⟨hclo, hchi, hfree, ?_⟩⟩
    · simp only [hkeeps.geo]
      rw [Word.add_eq (by omega)]
      omega
    · rw [← hquiet.image, ← himage]
      exact Vol.image_congr rfl rfl

theorem allocCluster_spec (hv : v.Ready) :
    ∃ c v', allocCluster v = (c, v') ∧ Allocated v c v' := by
  rw [allocCluster]
  by_cases hzero : v.geo.totalClusters = 0
  · rw [if_pos hzero]
    exact ⟨0, v, rfl, hv, .refl v, Or.inl ⟨rfl, rfl, fun x _ hx ↦ by omega⟩⟩
  · rw [if_neg hzero]
    by_cases hhint : v.allocHint < 2
    · simp only [if_pos hhint]
      have hv₁ : Vol.Ready { v with allocHint := 2 } :=
        ⟨hv.mounted, hv.geo, hv.reliable, by simp only; omega, hv.cache⟩
      obtain ⟨c, v', hloop, hv', hkeep, hres⟩ := allocLoop_spec hv₁ (le_refl 2)
      exact ⟨c, v', hloop, hv', ⟨hkeep.geo, hkeep.cwd, hkeep.mounted⟩, hres⟩
    · simp only [if_neg hhint]
      exact allocLoop_spec hv (by omega)

/-! ## Releasing a chain -/

namespace Image

theorem release_cons : (I.setFat c 0).release l = I.release (c :: l) := by
  simp only [release, setFat, mk.injEq, true_and, and_true]
  funext x
  by_cases hxl : x ∈ l
  · simp [hxl]
  · by_cases hxc : x = c
    · simp [hxc]
    · simp [hxl, hxc, Function.update_of_ne]

end Image

theorem freeLoop_spec (l : List ℕ) {fuel : ℕ} (hv : v.Ready) (hl : v.image.Trail s l)
    (hnodup : l.Nodup) (hfuel : l.length < fuel) :
    ∃ v', freeLoop fuel s v = .done v' ∧ v'.Ready ∧ Keeps v v' ∧ v'.allocHint = v.allocHint ∧
      v'.image = v.image.release l := by
  induction l generalizing s v fuel with
  | nil =>
      have hz : isEoc s = true := hl
      obtain ⟨fuel, rfl⟩ : ∃ k, fuel = k + 1 := ⟨fuel - 1, by simp at hfuel; omega⟩
      refine ⟨v, ?_, hv, .refl v, rfl, by simp [Image.release]⟩
      rw [freeLoop, if_neg (by simp [hz])]
  | cons c l ih =>
      obtain ⟨rfl, hlo, hhi, heoc, hrest⟩ := hl
      obtain ⟨fuel, rfl⟩ : ∃ k, fuel = k + 1 := ⟨fuel - 1, by simp at hfuel; omega⟩
      obtain ⟨hnotMem, hnodup⟩ := List.nodup_cons.mp hnodup
      obtain ⟨v₁, hnext, hquiet, hv₁⟩ := nextCluster_spec hv hhi
      have hhi₁ : c < v₁.geo.totalClusters + 2 := by rwa [hquiet.geo]
      obtain ⟨v₂, hset, hv₂, hkeep, hhint, himage⟩ := setFatEntry_spec hv₁ hhi₁ (x := 0)
        (by norm_num)
      rw [hquiet.image] at himage
      have htrail₂ : v₂.image.Trail (v.image.fat c) l := by
        rw [himage]
        refine hrest.congr rfl fun x hx ↦ ?_
        have hne : x ≠ c := fun hxc ↦ hnotMem (hxc ▸ hx)
        exact Function.update_of_ne hne _ _
      obtain ⟨v', hloop, hv', hkeep', hhint', himage'⟩ := ih hv₂ htrail₂ hnodup
        (Nat.lt_of_succ_lt_succ hfuel)
      refine ⟨v', ?_, hv', (hquiet.toKeeps.trans hkeep).trans hkeep',
        hhint'.trans (hhint.trans hquiet.hint), ?_⟩
      · rw [freeLoop, if_pos ⟨hlo, by simp [heoc]⟩]
        simp only [hnext, hset, hloop]
      · rw [himage', himage, Image.release_cons]

theorem freeChain_spec (hv : v.Ready) (hl : v.image.Chain s l) :
    ∃ v', freeChain v s = .done v' ∧ v'.Ready ∧ Keeps v v' ∧ v'.allocHint = v.allocHint ∧
      v'.image = v.image.release l := by
  have hsmall := hv.geo.total_small
  exact freeLoop_spec l hv (hl.trail hsmall) hl.nodup (hl.length_lt_walkFuel hsmall)

/-! ## Building a chain -/

/-- `J` is `I` with free clusters `N` linked to a chain that holds the first bytes of `data`,
up to `size`, and zeros behind them. -/
structure Filled (I J : Image) (N : List ℕ) (data : Bytes) (size : ℕ) : Prop where
  total : J.total = I.total
  slots : J.slots = I.slots
  root : J.root = I.root
  nodup : N.Nodup
  free : ∀ c ∈ N, 2 ≤ c ∧ c < I.total + 2 ∧ I.fat c = 0
  fat_other : ∀ c, c ∉ N → J.fat c = I.fat c
  chain : N ≠ [] → J.Chain (N.headD 0) N
  data_other : ∀ c, c ∉ N → J.data c = I.data c
  contents : ∀ k c, N[k]? = some c → ∀ i < 32 * I.slots,
    J.data c i = if k * (32 * I.slots) + i < size then data (k * (32 * I.slots) + i) else 0

namespace Filled

variable {N : List ℕ} {data cbuf : Bytes} {size : ℕ}

theorem empty (I : Image) (data : Bytes) (size : ℕ) : Filled I I [] data size where
  total := rfl
  slots := rfl
  root := rfl
  nodup := List.nodup_nil
  free := nofun
  fat_other := fun _ _ ↦ rfl
  chain := fun h ↦ absurd rfl h
  data_other := fun _ _ ↦ rfl
  contents := by simp

theorem notMem_of_free (h : Filled I J N data size) (hc : J.fat c = 0) : c ∉ N := by
  intro hmem
  exact (h.chain (List.ne_nil_of_mem hmem)).fat_ne_zero hmem hc

/-- The link of the last cluster of `N`, if there is one, set to `c`. -/
def linkLast (J : Image) (N : List ℕ) (c : ℕ) : Image :=
  if N = [] then J else J.setFat (N.getLastD 0) c

theorem linkLast_fat (J : Image) (N : List ℕ) (c x : ℕ) :
    (linkLast (J.setFat c 0x0FFFFFFF) N c).fat x =
      if N ≠ [] ∧ x = N.getLastD 0 then c else if x = c then 0x0FFFFFFF else J.fat x := by
  rw [linkLast]
  by_cases hN : N = []
  · simp [hN, Image.setFat, Function.update_apply]
  · simp [hN, Image.setFat, Function.update_apply]

theorem linkLast_total (J : Image) (N : List ℕ) (c : ℕ) : (linkLast J N c).total = J.total := by
  rw [linkLast]
  split <;> rfl

/-- A cluster that is linked to the last one of a chain extends the chain. -/
theorem linkLast_chain (hchain : N ≠ [] → J.Chain (N.headD 0) N) (hlo : 2 ≤ c)
    (hhi : c < J.total + 2) (hcN : c ∉ N) :
    (linkLast (J.setFat c 0x0FFFFFFF) N c).Chain ((N ++ [c]).headD 0) (N ++ [c]) := by
  have hfat := linkLast_fat J N c
  have htotal : (linkLast (J.setFat c 0x0FFFFFFF) N c).total = J.total := linkLast_total _ N c
  have heoc : isEoc 0x0FFFFFFF = true := by decide
  rcases List.eq_nil_or_concat N with rfl | ⟨M, y, rfl⟩
  · have hlast := hfat c
    simp at hlast
    refine ⟨⟨0x0FFFFFFF, by simp [hlast], heoc⟩, by simp, by simp, ?_⟩
    rw [htotal]
    simpa using ⟨hlo, hhi⟩
  · rw [List.concat_eq_append] at hcN hfat hchain htotal ⊢
    have hold := hchain (by simp)
    obtain ⟨z, hwalk, -⟩ := hold.walk
    obtain ⟨y', hM, rfl, -⟩ := Walk.append_iff.mp hwalk
    have hnodup := List.nodup_append.mp hold.nodup
    have hyc : y ≠ c := by
      rintro rfl
      simp at hcN
    -- the clusters before the last one keep their links
    have hM' : Walk (linkLast (J.setFat c 0x0FFFFFFF) (M ++ [y]) c).fat ((M ++ [y]).headD 0) M
        y := by
      refine hM.congr fun x hx ↦ ?_
      have hxy : x ≠ y := hnodup.2.2 x hx y (by simp)
      have hxc : x ≠ c := by
        rintro rfl
        simp [hx] at hcN
      simp [hfat, hxy, hxc]
    have hhead : ((M ++ [y]) ++ [c]).headD 0 = (M ++ [y]).headD 0 := by
      cases M <;> simp
    have hy := hfat y
    have hc := hfat c
    simp at hy
    simp [hyc.symm] at hc
    refine ⟨⟨0x0FFFFFFF, ?_, heoc⟩, by simp, ?_, ?_⟩
    · rw [hhead, List.append_assoc]
      exact Walk.append_iff.mpr ⟨y, hM', by simp [hy, hc]⟩
    · refine List.nodup_append.mpr ⟨hold.nodup, by simp, ?_⟩
      intro x hx y hy
      obtain rfl : y = c := by simpa using hy
      rintro rfl
      exact hcN hx
    · intro x hx
      rw [htotal]
      rcases List.mem_append.mp hx with hx | hx
      · exact hold.range x hx
      · obtain rfl : x = c := by simpa using hx
        exact ⟨hlo, hhi⟩

/-- The image after one more cluster has been allocated, linked and written. -/
def extend (J : Image) (N : List ℕ) (c : ℕ) (cbuf : Bytes) : Image :=
  (linkLast (J.setFat c 0x0FFFFFFF) N c).patch c 0 (32 * J.slots) cbuf

theorem extend_fat (J : Image) (N : List ℕ) (c : ℕ) (cbuf : Bytes) (x : ℕ) :
    (extend J N c cbuf).fat x =
      if N ≠ [] ∧ x = N.getLastD 0 then c else if x = c then 0x0FFFFFFF else J.fat x :=
  linkLast_fat J N c x

theorem extend_data (J : Image) (N : List ℕ) (c : ℕ) (cbuf : Bytes) (x : ℕ) :
    (extend J N c cbuf).data x =
      if x = c then (J.data c).blit 0 (32 * J.slots) cbuf else J.data x := by
  rw [extend, linkLast]
  by_cases hN : N = []
  · simp [hN, Image.patch, Image.setFat, Function.update_apply]
  · simp [hN, Image.patch, Image.setFat, Function.update_apply]

theorem extend_sizes (J : Image) (N : List ℕ) (c : ℕ) (cbuf : Bytes) :
    (extend J N c cbuf).total = J.total ∧ (extend J N c cbuf).slots = J.slots ∧
      (extend J N c cbuf).root = J.root := by
  rw [extend, linkLast]
  by_cases hN : N = [] <;> simp [hN, Image.patch, Image.setFat]

theorem extend_chain (h : Filled I J N data size) (cbuf : Bytes) (hlo : 2 ≤ c)
    (hhi : c < I.total + 2) (hcN : c ∉ N) :
    (extend J N c cbuf).Chain ((N ++ [c]).headD 0) (N ++ [c]) := by
  have hlinked := linkLast_chain h.chain hlo (h.total ▸ hhi) hcN
  exact hlinked.congr rfl fun _ _ ↦ rfl

theorem extend_filled (h : Filled I J N data size) (hlo : 2 ≤ c) (hhi : c < I.total + 2)
    (hfree : J.fat c = 0) (hcbuf : ∀ i < 32 * I.slots, cbuf i =
      if N.length * (32 * I.slots) + i < size then data (N.length * (32 * I.slots) + i) else 0) :
    Filled I (extend J N c cbuf) (N ++ [c]) data size := by
  have hcN := h.notMem_of_free hfree
  have hsizes := extend_sizes J N c cbuf
  have hchain := h.extend_chain cbuf hlo hhi hcN
  refine ⟨hsizes.1.trans h.total, hsizes.2.1.trans h.slots, hsizes.2.2.trans h.root, hchain.nodup,
    ?_, ?_, fun _ ↦ hchain, ?_, ?_⟩
  · intro x hx
    rcases List.mem_append.mp hx with hx | hx
    · exact h.free x hx
    · obtain rfl : x = c := by simpa using hx
      exact ⟨hlo, hhi, by rw [← h.fat_other x hcN, hfree]⟩
  · intro x hx
    obtain ⟨hxN, hxc⟩ : x ∉ N ∧ x ≠ c := by simpa using hx
    have hlast : ¬(N ≠ [] ∧ x = N.getLastD 0) := by
      rintro ⟨hne, rfl⟩
      apply hxN
      rw [List.getLastD_eq_getLast?, List.getLast?_eq_some_getLast hne]
      exact List.getLast_mem hne
    rw [extend_fat, if_neg hlast, if_neg hxc, h.fat_other x hxN]
  · intro x hx
    obtain ⟨hxN, hxc⟩ : x ∉ N ∧ x ≠ c := by simpa using hx
    rw [extend_data, if_neg hxc, h.data_other x hxN]
  · intro k x hk i hi
    rcases Nat.lt_trichotomy k N.length with hlt | rfl | hgt
    · rw [List.getElem?_append_left hlt] at hk
      have hxc : x ≠ c := by
        rintro rfl
        exact hcN (List.mem_of_getElem? hk)
      rw [extend_data, if_neg hxc]
      exact h.contents k x hk i hi
    · obtain rfl : c = x := by simpa using hk
      rw [extend_data, if_pos rfl, h.slots, blit_apply (Nat.zero_le i) (by omega), Nat.sub_zero]
      exact hcbuf i hi
    · rw [List.getElem?_append_right hgt.le] at hk
      have : k - N.length ≠ 0 := by omega
      simp [this] at hk

end Filled

/-- `J` is `I` with nothing but the contents of the free clusters `N` changed. -/
structure Scratched (I J : Image) (N : List ℕ) : Prop where
  total : J.total = I.total
  slots : J.slots = I.slots
  root : J.root = I.root
  fat : J.fat = I.fat
  free : ∀ c ∈ N, 2 ≤ c ∧ c < I.total + 2 ∧ I.fat c = 0
  data_other : ∀ c, c ∉ N → J.data c = I.data c

/-- Clearing the links of a chain just built takes the links back to what they were. -/
theorem Filled.release {N : List ℕ} {data : Bytes} {size : ℕ} (h : Filled I J N data size) :
    Scratched I (J.release N) N where
  total := h.total
  slots := h.slots
  root := h.root
  fat := by
    funext c
    by_cases hc : c ∈ N
    · simp [Image.release, hc, (h.free c hc).2.2]
    · simp [Image.release, hc, h.fat_other c hc]
  free := h.free
  data_other := h.data_other

theorem clusterBytes_eq (v : Vol) : 32 * v.image.slots = clusterBytes v.geo := by
  simp only [Vol.image, imageOf, clusterBytes]
  omega

/-- The allocation loop builds the chain of all of `data`, or it finds that the free
clusters do not hold `size` bytes and clears what it has built. -/
def Written (I : Image) (data : Bytes) (size : ℕ) (r : Option ℕ) (J : Image) : Prop :=
  (∃ N, r = some (N.headD 0) ∧ Filled I J N data size ∧ size ≤ N.length * (32 * I.slots) ∧
      (N = [] ∨ (N.length - 1) * (32 * I.slots) < size)) ∨
    r = none ∧ ∃ N, N.Nodup ∧ Scratched I J N ∧ N.length * (32 * I.slots) < size ∧
      ∀ c, 2 ≤ c → c < I.total + 2 → I.fat c = 0 → c ∈ N

/-- How much of the data goes into one cluster. -/
def roundSize (g : Geometry) (size written : ℕ) : ℕ :=
  if size - written < g.sectorsPerCluster * 512 then size - written else g.sectorsPerCluster * 512

/-- The contents of that cluster, with zeros behind the data. -/
def roundData (g : Geometry) (data : Bytes) (size written : ℕ) : Bytes :=
  fun i ↦ if i < roundSize g size written then data (written + i) else 0

/-- The round of the loop in `fat32_write_file` behind the allocation of cluster `c`: the link to
it and its contents. -/
def extendChain (prev c : ℕ) (cbuf : Bytes) (v : Vol) : Bool × Vol :=
  match if prev ≠ 0 then setFatEntry v prev c else (true, v) with
  | (false, v) => (false, v)
  | (true, v) => v.ataWrite (clusterToLba v.geo c) v.geo.sectorsPerCluster cbuf

/-- One round. -/
theorem writeClusters_succ (data : Bytes) (size fuel first prev written : ℕ) (v : Vol) :
    writeClusters data size (fuel + 1) first prev written v =
      if written < size then
        if (allocCluster v).1 = 0 then
          if first ≠ 0 then
            freeChain (allocCluster v).2 first >>= fun v ↦ .done ((none : Option ℕ), v)
          else .done (none, (allocCluster v).2)
        else
          let first := if first = 0 then (allocCluster v).1 else first
          let x := extendChain prev (allocCluster v).1 (roundData v.geo data size written)
            (allocCluster v).2
          if x.1 = true then
            writeClusters data size fuel first (allocCluster v).1
              (written + roundSize v.geo size written) x.2
          else freeChain x.2 first >>= fun v ↦ .done (none, v)
      else .done (some first, v) := by
  rw [writeClusters]
  by_cases hmore : written < size
  · simp only [if_pos hmore]
    rcases allocCluster v with ⟨c, v₁⟩
    dsimp only
    by_cases hc : c = 0
    · simp only [if_pos hc]
      split_ifs <;> rfl
    · obtain ⟨ok, v₂, hlink⟩ : ∃ ok v₂,
          (if prev ≠ 0 then setFatEntry v₁ prev c else (true, v₁)) = (ok, v₂) := ⟨_, _, rfl⟩
      have hbuf : roundData v.geo data size written = fun i ↦
          if i < (if size - written < v.geo.sectorsPerCluster * 512 then size - written
            else v.geo.sectorsPerCluster * 512) then data (written + i) else 0 := rfl
      cases ok with
      | false =>
          simp only [if_neg hc, extendChain, hlink]
          rfl
      | true =>
          simp only [if_neg hc, extendChain, hlink, ← hbuf]
          obtain ⟨ok, v₃, hwrite⟩ : ∃ ok v₃, v₂.ataWrite (clusterToLba v₂.geo c)
            v₂.geo.sectorsPerCluster (roundData v.geo data size written) = (ok, v₃) :=
              ⟨_, _, rfl⟩
          cases ok with
          | false =>
              simp only [hwrite]
              rfl
          | true =>
              simp only [hwrite, if_true]
              rfl
  · rw [if_neg hmore, if_neg hmore]
    rfl

section WriteLoop

variable {N : List ℕ} {data : Bytes} {size fuel : ℕ}

theorem Filled.bytes (h : Filled I v.image N data size) :
    v.geo.sectorsPerCluster * 512 = 32 * I.slots := by
  rw [← h.slots, clusterBytes_eq, clusterBytes, Nat.mul_comm]

theorem headD_ne_zero (h : Filled I J N data size) : N.headD 0 ≠ 0 ↔ N ≠ [] := by
  cases N with
  | nil => simp
  | cons c N =>
      have := (h.free c List.mem_cons_self).1
      simp
      omega

theorem getLastD_ne_zero (h : Filled I J N data size) : N.getLastD 0 ≠ 0 ↔ N ≠ [] := by
  rcases List.eq_nil_or_concat N with rfl | ⟨M, c, rfl⟩
  · simp
  · have := (h.free c (by simp)).1
    simp
    omega

/-- The disk is full: what has been built is cleared. -/
theorem writeClusters_full (hv : v.Ready) (h : Filled I v.image N data size) :
    ∃ v', (if N.headD 0 ≠ 0 then freeChain v (N.headD 0) >>= fun v ↦ .done ((none : Option ℕ), v)
        else .done (none, v)) = .done (none, v') ∧ v'.Ready ∧
      Keeps v v' ∧ Scratched I v'.image N := by
  by_cases hN : N = []
  · subst hN
    refine ⟨v, by simp, hv, .refl v, ?_⟩
    simpa [Image.release] using h.release
  · obtain ⟨v', hfree, hv', hkeep, -, himage⟩ := freeChain_spec hv (h.chain hN)
    refine ⟨v', ?_, hv', hkeep, himage ▸ h.release⟩
    rw [if_pos ((headD_ne_zero h).mpr hN), hfree, Outcome.done_bind]

theorem headD_concat (hN : N.headD 0 ≠ 0 ↔ N ≠ []) (c : ℕ) :
    (if N.headD 0 = 0 then c else N.headD 0) = (N ++ [c]).headD 0 := by
  cases N with
  | nil => simp
  | cons x N =>
      rw [if_neg (hN.mpr (List.cons_ne_nil x N))]
      rfl

theorem add_roundSize {g : Geometry} {n written : ℕ} (hbytes : g.sectorsPerCluster * 512 = n)
    (hwritten : written = min size (N.length * n)) (c : ℕ) :
    written + roundSize g size written = min size ((N ++ [c]).length * n) := by
  rw [List.length_append, List.length_singleton, Nat.succ_mul, roundSize]
  split_ifs <;> omega

theorem lt_add_roundSize {g : Geometry} {written : ℕ} (hpos : 0 < g.sectorsPerCluster)
    (hmore : written < size) : written < written + roundSize g size written := by
  rw [roundSize]
  split_ifs <;> omega

/-- One round: the last cluster of the chain is linked to the new one, and the new one gets its
part of the data. -/
theorem extendChain_spec {v₁ : Vol} {written : ℕ} (hv₁ : v₁.Ready)
    (h : Filled I v.image N data size) (hkeep : Keeps v v₁) (hlo : 2 ≤ c)
    (hhi : c < v.geo.totalClusters + 2) (hfree : v.image.fat c = 0)
    (himage : v₁.image = v.image.setFat c 0x0FFFFFFF)
    (hwritten : written = N.length * (32 * I.slots)) :
    ∃ v₂, extendChain (N.getLastD 0) c (roundData v.geo data size written) v₁ = (true, v₂) ∧
      v₂.Ready ∧ Keeps v v₂ ∧ Filled I v₂.image (N ++ [c]) data size := by
  have hsmall := hv₁.geo.total_small
  rw [badCluster, hkeep.geo] at hsmall
  obtain ⟨v₂, hlink, hv₂, hkeep₂, himage₂⟩ : ∃ v₂, (if N.getLastD 0 ≠ 0 then
      setFatEntry v₁ (N.getLastD 0) c else (true, v₁)) = (true, v₂) ∧ v₂.Ready ∧ Keeps v₁ v₂ ∧
      v₂.image = Filled.linkLast (v.image.setFat c 0x0FFFFFFF) N c := by
    by_cases hN : N = []
    · refine ⟨v₁, by simp [hN], hv₁, .refl v₁, ?_⟩
      rw [Filled.linkLast, if_pos hN, himage]
    · have hlast : N.getLastD 0 ∈ N := by
        rw [List.getLastD_eq_getLast?, List.getLast?_eq_some_getLast hN]
        exact List.getLast_mem hN
      have hrange := (h.free _ hlast).2.1
      rw [← h.total] at hrange
      obtain ⟨v₂, hset, hv₂, hkeep₂, -, himage₂⟩ := setFatEntry_spec (x := c) hv₁
        (c := N.getLastD 0) (by rw [hkeep.geo]; exact hrange) (by omega)
      refine ⟨v₂, ?_, hv₂, hkeep₂, ?_⟩
      · rw [if_pos ((getLastD_ne_zero h).mpr hN), hset]
      · rw [himage₂, himage, Filled.linkLast, if_neg hN]
  have hgeo₂ : v₂.geo = v.geo := hkeep₂.geo.trans hkeep.geo
  obtain ⟨v₃, hwrite, hv₃, hkeep₃, -, himage₃⟩ := writeCluster_spec hv₂ hlo
    (by rwa [hgeo₂]) (roundData v.geo data size written)
  refine ⟨v₃, ?_, hv₃, (hkeep.trans hkeep₂).trans hkeep₃, ?_⟩
  · rw [extendChain, hlink]
    exact hwrite
  · rw [himage₃, himage₂, hgeo₂, ← clusterBytes_eq, ← Filled.extend]
    refine h.extend_filled hlo (by rw [← h.total]; exact hhi) hfree fun i hi ↦ ?_
    rw [← hwritten, roundData, roundSize, h.bytes]
    by_cases hin : written + i < size
    · rw [if_pos hin, if_pos (by split <;> omega)]
    · rw [if_neg hin, if_neg (by split <;> omega)]

theorem writeClusters_spec (written : ℕ) (hv : v.Ready) (h : Filled I v.image N data size)
    (hwritten : written = min size (N.length * (32 * I.slots)))
    (hlast : N = [] ∨ (N.length - 1) * (32 * I.slots) < size) (hfuel : size - written < fuel) :
    ∃ r v', writeClusters data size fuel (N.headD 0) (N.getLastD 0) written v = .done (r, v') ∧
      v'.Ready ∧ Keeps v v' ∧ Written I data size r v'.image := by
  induction fuel generalizing N v written with
  | zero => omega
  | succ fuel ih =>
      rw [writeClusters_succ]
      by_cases hmore : written < size
      · have hlen : written = N.length * (32 * I.slots) := by omega
        obtain ⟨c, v₁, halloc, hv₁, hkeep, hres⟩ := allocCluster_spec hv
        simp only [if_pos hmore, halloc]
        rcases hres with ⟨rfl, himage, hnone⟩ | ⟨hlo, hhi, hfree, himage⟩
        · rw [← himage] at h
          obtain ⟨v', hclear, hv', hkeep', hscratch⟩ := writeClusters_full hv₁ h
          rw [if_pos rfl]
          refine ⟨none, v', hclear, hv', hkeep.trans hkeep', Or.inr ⟨rfl, N, h.nodup, hscratch,
            by omega, fun c hlo hhi hc ↦ ?_⟩⟩
          by_contra hcN
          rw [← h.fat_other c hcN, himage] at hc
          rw [← h.total, himage] at hhi
          exact hnone c hlo hhi hc
        · obtain ⟨v₂, hextend, hv₂, hkeep₂, hfilled⟩ := extendChain_spec hv₁ h hkeep hlo hhi hfree
            himage hlen
          have hgrows := lt_add_roundSize hv.geo.spc_pos hmore
          obtain ⟨r, v', hloop, hv', hkeep', hout⟩ := ih _ hv₂ hfilled
            (add_roundSize h.bytes hwritten c) (Or.inr (by simp; omega)) (by omega)
          have hlastD : (N ++ [c]).getLastD 0 = c := by simp
          rw [hlastD] at hloop
          rw [if_neg (by omega), hextend, headD_concat (headD_ne_zero h), if_pos rfl]
          exact ⟨r, v', hloop, hv', hkeep₂.trans hkeep', hout⟩
      · rw [if_neg hmore]
        exact ⟨_, v, rfl, hv, .refl v, Or.inl ⟨N, rfl, h, by omega, hlast⟩⟩

/-- The loop as `fat32_write_file` starts it. -/
theorem writeClusters_start (hv : v.Ready) (data : Bytes) (hsize : size < 2 ^ 32) :
    ∃ r v', writeClusters data size walkFuel 0 0 0 v = .done (r, v') ∧ v'.Ready ∧ Keeps v v' ∧
      Written v.image data size r v'.image :=
  writeClusters_spec 0 hv (.empty v.image data size) (by simp) (Or.inl rfl)
    (by rw [walkFuel]; omega)

end WriteLoop

/-! ## Counting -/

def Image.freeClusters (I : Image) : List ℕ :=
  (List.range (I.total + 2)).filter fun c ↦ 2 ≤ c ∧ I.fat c = 0

theorem Image.mem_freeClusters : c ∈ I.freeClusters ↔ 2 ≤ c ∧ c < I.total + 2 ∧ I.fat c = 0 := by
  simp only [freeClusters, List.mem_filter, List.mem_range, decide_eq_true_eq]
  tauto

theorem Image.nodup_freeClusters (I : Image) : I.freeClusters.Nodup :=
  List.nodup_range.filter _

/-- The loop fails exactly when the free clusters are too few. -/
theorem Written.none_iff {data : Bytes} {size : ℕ} {r : Option ℕ} (h : Written I data size r J) :
    r = none ↔ I.freeClusters.length * (32 * I.slots) < size := by
  rcases h with ⟨N, rfl, hfilled, hsize, -⟩ | ⟨rfl, N, hnodup, -, hsize, hall⟩
  · have hsub : N ⊆ I.freeClusters := fun c hc ↦ Image.mem_freeClusters.mpr (hfilled.free c hc)
    have hlen := (List.subperm_of_subset hfilled.nodup hsub).length_le
    have hmul := Nat.mul_le_mul_right (32 * I.slots) hlen
    simp only [reduceCtorEq, false_iff, not_lt]
    omega
  · have hsub : I.freeClusters ⊆ N := by
      intro c hc
      obtain ⟨hlo, hhi, hfree⟩ := Image.mem_freeClusters.mp hc
      exact hall c hlo hhi hfree
    have hlen := (List.subperm_of_subset I.nodup_freeClusters hsub).length_le
    have hmul := Nat.mul_le_mul_right (32 * I.slots) hlen
    simp only [true_iff]
    omega

end MyOS.Fat32
