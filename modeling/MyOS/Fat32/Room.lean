import MyOS.Fat32.Operations
import MyOS.Fat32.Spares

/-!
# Room

What a volume can still take is a number of free clusters and, in each directory, a number of
slots without an entry, since a directory never grows.  An edit changes the first number by the
clusters that it releases and fills, and the second one in the directory of its slot and in a
directory that it puts there or takes away.
-/

namespace MyOS.Fat32.Image

variable {I J : Image} {d e c : ℕ} {l m old new N : List ℕ} {p q : Pos}

/-! ## Free clusters -/

/-- All clusters of `N` were free, and nothing else has been taken. -/
theorem freeClusters_length_of_take (htotal : J.total = I.total) (hnodup : N.Nodup)
    (hfree : ∀ c ∈ N, 2 ≤ c ∧ c < I.total + 2 ∧ I.fat c = 0) (htaken : ∀ c ∈ N, J.fat c ≠ 0)
    (hother : ∀ c, c ∉ N → (J.fat c = 0 ↔ I.fat c = 0)) :
    J.freeClusters.length + N.length = I.freeClusters.length := by
  have hdisjoint : J.freeClusters.Disjoint N := fun c hc hN ↦
    htaken c hN (mem_freeClusters.mp hc).2.2
  have hperm : (J.freeClusters ++ N).Perm I.freeClusters := by
    refine (List.perm_ext_iff_of_nodup (J.nodup_freeClusters.append hnodup hdisjoint)
      I.nodup_freeClusters).mpr fun c ↦ ?_
    rw [List.mem_append, mem_freeClusters, mem_freeClusters, htotal]
    by_cases hc : c ∈ N
    · exact iff_of_true (Or.inr hc) (hfree c hc)
    · rw [hother c hc, or_iff_left hc]
  rw [← hperm.length_eq, List.length_append]

theorem EntryChain.release_length (h : I.EntryChain p old) :
    (I.release old).freeClusters.length = I.freeClusters.length + old.length := by
  refine (freeClusters_length_of_take (I := I.release old) rfl h.nodup (fun c hc ↦ ?_)
    (J := I) (fun c hc ↦ h.fat_ne_zero hc) fun c hc ↦ ?_).symm
  · obtain ⟨hlo, hhi⟩ := h.range hc
    exact ⟨hlo, hhi, if_pos hc⟩
  · have hkept : (I.release old).fat c = I.fat c := if_neg hc
    rw [hkept]

/-- An edit gives the old clusters back and takes the new ones. -/
theorem Tidy.free_length (h : Tidy I J d l p old new) :
    J.freeClusters.length + new.length = I.freeClusters.length + old.length := by
  have hold : (I.release old).freeClusters.length = I.freeClusters.length + old.length := by
    rcases h.owned with hown | ⟨-, rfl⟩
    · exact hown.2.release_length
    · simp [release]
  have hchain : ∀ c ∈ new, 2 ≤ c ∧ c < I.total + 2 ∧ J.fat c ≠ 0 := by
    intro c hc
    rcases h.slot with ⟨-, rfl⟩ | hplaced
    · cases hc
    · obtain ⟨hlo, hhi⟩ := hplaced.chain.range hc
      rw [h.total] at hhi
      exact ⟨hlo, hhi, hplaced.chain.fat_ne_zero hc⟩
  have hnodup : new.Nodup := by
    rcases h.slot with ⟨-, rfl⟩ | hplaced
    · exact List.nodup_nil
    · exact hplaced.chain.nodup
  rw [← hold]
  refine freeClusters_length_of_take h.total hnodup (fun c hc ↦ ?_) (fun c hc ↦ (hchain c hc).2.2)
    fun c hc ↦ ?_
  · obtain ⟨hlo, hhi, -⟩ := hchain c hc
    refine ⟨hlo, hhi, ?_⟩
    rcases h.fresh c hc with hcold | hfree
    · exact if_pos hcold
    · simp [release, hfree]
  · by_cases hcold : c ∈ old
    · exact iff_of_true (h.fat_freed c hcold hc) (if_pos hcold)
    · have hkept : (I.release old).fat c = I.fat c := if_neg hcold
      rw [h.fat_other c hcold hc, hkept]

/-! ## Free slots -/

open Classical in
/-- The number of slots without an entry in the reachable directory `d`. -/
noncomputable def room (I : Image) (d : ℕ) : ℕ :=
  if I.IsDir d then
    (I.slotsOf (Classical.epsilon (I.Chain d))).countP fun p ↦ ¬(I.entry p).Used
  else 0

theorem room_eq (hI : I.total + 2 ≤ badCluster) (hd : I.IsDir d) (hl : I.Chain d l) :
    I.room d = (I.slotsOf l).countP fun p ↦ ¬(I.entry p).Used := by
  rw [room, if_pos hd, (Classical.epsilon_spec ⟨l, hl⟩ : I.Chain d _).unique hI hl]

theorem room_eq_zero (hd : ¬I.IsDir d) : I.room d = 0 := if_neg hd

theorem room_pos_iff (hI : I.total + 2 ≤ badCluster) (hd : I.IsDir d) (hl : I.Chain d l) :
    0 < I.room d ↔ ∃ p ∈ I.slotsOf l, ¬(I.entry p).Used := by
  rw [room_eq hI hd hl, List.countP_pos_iff]
  simp

theorem Agree.room (h : Agree I.Owned I J) (hI : I.Intact) : J.room = I.room := by
  funext d
  by_cases hd : I.IsDir d
  · obtain ⟨l, hl⟩ := hI.dir_chain hd
    rw [room_eq hI.small hd hl, room_eq (h.total ▸ hI.small) ((h.isDir_iff hI).mpr hd)
      ((h.chain_iff hI hd).mpr hl), h.slotsOf]
    refine List.countP_congr fun q hq ↦ ?_
    rw [h.entry_eq hI hd hl hq]
  · rw [room_eq_zero hd, room_eq_zero (mt (h.isDir_iff hI).mp hd)]

/-- Two counts along a list without repetition, of properties that differ in one place. -/
theorem countP_add_of_nodup {L : List Pos} (hL : L.Nodup) (hp : p ∈ L) {f g : Pos → Bool}
    (hsame : ∀ q ∈ L, q ≠ p → g q = f q) :
    L.countP g + (if f p then 1 else 0) = L.countP f + if g p then 1 else 0 := by
  obtain ⟨pre, post, rfl⟩ := List.append_of_mem hp
  obtain ⟨-, hpost, hpre⟩ := List.nodup_append.mp hL
  have hpre' : pre.countP g = pre.countP f := List.countP_congr fun q hq ↦ by
    rw [hsame q (by simp [hq]) (hpre q hq p (by simp))]
  have hpost' : post.countP g = post.countP f := List.countP_congr fun q hq ↦ by
    rw [hsame q (by simp [hq])]
    rintro rfl
    exact (List.nodup_cons.mp hpost).1 hq
  rw [List.countP_append, List.countP_append, List.countP_cons, List.countP_cons, hpre', hpost']
  omega

namespace Tidy

open Edit

/-- The directory of the slot has one slot more or less, or as many. -/
theorem room_dir (h : Tidy I J d l p old new) :
    J.room d + (if (J.entry p).Used then 1 else 0) =
      I.room d + if (I.entry p).Used then 1 else 0 := by
  have hchain := h.chain_keep h.dir h.chain h.dir_not_removed
  obtain ⟨-, hsame⟩ := h.kept_slots h.dir h.dir_not_removed hchain
  rw [room_eq h.wf.small h.dir h.chain, room_eq (h.total ▸ h.wf.small) h.isDir_dir hchain,
    h.slotsOf_eq]
  have hcount := countP_add_of_nodup (f := fun q ↦ ¬(I.entry q).Used)
    (g := fun q ↦ ¬(J.entry q).Used) (nodup_slotsOf h.chain.nodup) h.mem fun q hq hqp ↦ by
      rw [hsame q (h.slotsOf_eq ▸ hq) hqp]
  simp only [decide_eq_true_eq] at hcount
  split_ifs at hcount ⊢ <;> omega

/-- A directory that is taken away has no slots any more. -/
theorem room_removed (h : Tidy I J d l p old new) (hrem : Removed I p e) : J.room e = 0 := by
  refine room_eq_zero fun he ↦ ?_
  rcases h.isDir_cases he with ⟨-, hkept⟩ | ⟨hlive, hdir, rfl⟩
  · exact hkept hrem
  · have hchain := (h.placed hlive).chain.of_directory hdir
    obtain ⟨⟨_, _, -, -, -, hplive, -⟩, hpdir, -⟩ := hrem
    have hstart := hchain.start_mem
    rw [h.file_only hplive hpdir] at hstart
    cases hstart

/-- All other directories are as full as they were. -/
theorem room_other (h : Tidy I J d l p old new) (hempty : OnlyDots I p old) (hne : e ≠ d)
    (hkept : ¬Removed I p e) (hold : ¬Added J p e) : J.room e = I.room e := by
  by_cases he : I.IsDir e
  · obtain ⟨m, hm⟩ := h.wf.dir_chain he
    have hm' := h.chain_keep he hm hkept
    rw [room_eq h.wf.small he hm,
      room_eq (h.total ▸ h.wf.small) (h.isDir_of_kept hempty he hkept) hm', h.slotsOf_eq]
    refine List.countP_congr fun q hq ↦ ?_
    rw [(h.kept_slots he hkept hm').2 q (h.slotsOf_eq ▸ hq)]
    rintro rfl
    exact hne (h.dir_eq_of_mem he hm hq)
  · rw [room_eq_zero he, room_eq_zero fun he' ↦ ?_]
    rcases h.isDir_cases he' with ⟨he', -⟩ | hadded
    · exact he he'
    · exact hold hadded

end Tidy

/-- A new directory has all slots of its cluster but two. -/
theorem room_newDirectory {parent : ℕ} {x : Dirent}
    (hJ : J = (I.withDirectory c parent).patch p.1 (32 * p.2) 32 x)
    (hsmall : J.total + 2 ≤ badCluster) (hpc : p.1 ≠ c) (hdir : J.IsDir c)
    (hchain : J.Chain c [c]) : J.room c = I.slots - 2 := by
  have hcount : ∀ n, (List.range n).countP (fun j ↦ 2 ≤ j) = n - 2 := by
    intro n
    induction n with
    | zero => rfl
    | succ n ih =>
        rw [List.range_succ, List.countP_append, ih, List.countP_singleton]
        simp only [decide_eq_true_eq]
        split_ifs <;> omega
  have hslots : J.slots = I.slots := by
    rw [hJ]
    rfl
  rw [room_eq hsmall hdir hchain, slotsOf, List.flatMap_singleton, List.countP_map, hslots,
    ← hcount I.slots]
  refine List.countP_congr fun j hj ↦ ?_
  have hentry : J.entry (c, j) = direntAt (newDirectory c parent) (32 * j) := by
    rw [hJ]
    exact newDirectory_entry parent x hpc rfl (List.mem_range.mp hj)
  simp only [Function.comp_apply, hentry, decide_eq_true_eq]
  exact newDirectory_unused

end MyOS.Fat32.Image
