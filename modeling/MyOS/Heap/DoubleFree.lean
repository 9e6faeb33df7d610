import MyOS.Heap.FirstFit

/-!
# Double frees are caught

`kfree` trusts a pointer if the word `HDR_SIZE` bytes in front of it is `KHEAP_MAGIC`.  Headers
stand at multiples of four, and every header word but the magic one is a multiple of four, zero
or one, which `KHEAP_MAGIC` is not.  So the heap makes an aligned word `KHEAP_MAGIC` only where
it makes a header, and it clears the word when the header leaves the list.  As long as the
clients do not store the word either, a pointer that was handed out once leads to a header of
the list or to a word that is not `KHEAP_MAGIC`.
-/

namespace MyOS.Heap

open Bytes Tiling

variable {A : Arena} {h h' : Kheap} {m m' m'' : Bytes} {b c : Block}
  {l l' l'' pre post : List Block} {a p v prev next size n : ℕ}

/-- If the word at `a` is the magic number, it stands in a header of the list. -/
def Tracked (m : Bytes) (l : List Block) (a : ℕ) : Prop :=
  m.read32 a = kheapMagic → a ∈ l.map Block.start

/-- From one heap to the next every aligned word stays tracked. -/
def Tracks (m : Bytes) (l : List Block) (m' : Bytes) (l' : List Block) : Prop :=
  ∀ a, 4 ∣ a → Tracked m l a → Tracked m' l' a

namespace Tracks

theorem refl (m : Bytes) (l : List Block) : Tracks m l m l := fun _ _ h ↦ h

theorem trans (h : Tracks m l m' l') (h' : Tracks m' l' m'' l'') : Tracks m l m'' l'' :=
  fun a ha ht ↦ h' a ha (h a ha ht)

theorem mono (hl : l.map Block.start ⊆ l'.map Block.start) : Tracks m l m l' :=
  fun _ _ ht hmagic ↦ hl (ht hmagic)

/-- Two aligned words are the same one or have no byte in common. -/
theorem read32_write32_aligned (ha : 4 ∣ a) (hn : 4 ∣ n) (hne : a ≠ n) :
    (m.write32 n v).read32 a = m.read32 a :=
  read32_write32_of_disjoint (by omega)

/-- A word that is no magic number may be stored anywhere, at a header that leaves the list as
well. -/
theorem store (hn : 4 ∣ n) (hv : v % 4 < 2)
    (hl : l.map Block.start ⊆ n :: l'.map Block.start) :
    Tracks m l (m.write32 n v) l' := by
  intro a ha ht hmagic
  by_cases hne : a = n
  · have hread : (m.write32 n v).read32 a = v % 256 ^ 4 := by
      rw [hne]
      exact readLE_writeLE m n 4 v
    rw [hread] at hmagic
    unfold kheapMagic at hmagic
    omega
  · rw [read32_write32_aligned ha hn hne] at hmagic
    exact List.mem_of_ne_of_mem hne (hl (ht hmagic))

theorem write (hn : 4 ∣ n) (hv : v % 4 < 2) : Tracks m l (m.write32 n v) l :=
  store hn hv (List.subset_cons_self n _)

theorem relink (hn : 4 ∣ n) (hv : v % 4 < 2) : Tracks m l (relink m n v) l := by
  unfold Heap.relink
  split
  · exact write (hn.add (by norm_num)) hv
  · exact refl m l

/-- The header of a block of the list is written. -/
theorem writeHeader (hb : b ∈ l) (hstart : 4 ∣ b.start) (hsize : 4 ∣ b.size) (hprev : 4 ∣ prev)
    (hnext : 4 ∣ next) : Tracks m l (writeHeader m b prev next) l := by
  have hmagic : Tracks m l (m.write32 b.start kheapMagic) l := by
    intro a ha ht hmagic
    by_cases hne : a = b.start
    · exact hne ▸ List.mem_map_of_mem hb
    · rw [read32_write32_aligned ha hstart hne] at hmagic
      exact ht hmagic
  have hused : b.used.toNat % 4 < 2 := by cases b.used <;> norm_num
  exact (((hmagic.trans (write (hstart.add (by norm_num)) (by omega))).trans
    (write (hstart.add (by norm_num)) hused)).trans
      (write (hstart.add (by norm_num)) (by omega))).trans
        (write (hstart.add (by norm_num)) (by omega))

end Tracks

theorem dvd_headOr (hl : Aligned 4 l) : 4 ∣ headOr 0 l := by
  cases l with
  | nil => exact dvd_zero 4
  | cons b l => exact (hl b List.mem_cons_self).1

/-! ## Allocation -/

theorem Represents.tracks_takeBlock (hr : Represents A h (pre ++ b :: post))
    (hl : Aligned 4 (pre ++ b :: post)) (hsize : n ≤ b.size) (hn : 4 ∣ n) :
    Tracks h.mem (pre ++ b :: post) (Heap.takeBlock h b.start n).mem
      (pre ++ (split hdrSize kheapAlign n b ++ post)) := by
  obtain ⟨hstart, hbsize⟩ := hl b (by simp)
  have hpost : Aligned 4 post := fun c hc ↦ hl c (by simp [hc])
  have hnext := dvd_headOr hpost
  obtain ⟨-, hhead, -⟩ := linked_middle.mp hr.linked
  have hfits := A.fits
  have hstop := (hr.tiles.bounds (show b ∈ pre ++ b :: post by simp)).2
  unfold Block.stop at hstop
  have hleft : Word.sub (h.size b.start) n = b.size - n := by
    rw [show h.size b.start = b.size from hhead.size]
    exact Word.sub_eq hsize (by omega)
  unfold Heap.takeBlock Tiling.split
  simp only [hleft, Kheap.setUsed]
  split
  · rename_i hlarge
    rw [splitBlock_mem n (b.size - n) hhead.next (by omega) (by omega) (by omega)]
    set c : Block := ⟨b.start + hdrSize + n, b.size - n - hdrSize, false⟩ with hc
    have hcstart : 4 ∣ b.start + hdrSize + n := (hstart.add (by norm_num [hdrSize])).add hn
    have hcsize : 4 ∣ c.size := Nat.dvd_sub (Nat.dvd_sub hbsize hn) (by norm_num [hdrSize])
    have hmono : Tracks h.mem (pre ++ b :: post) h.mem
        (pre ++ ([⟨b.start, n, true⟩, c] ++ post)) := Tracks.mono (by grind)
    have hheader := hmono.trans (Tracks.writeHeader (b := c) (by simp) hcstart hcsize hstart hnext)
    have hback := hheader.trans (Tracks.relink hnext (v := b.start + hdrSize + n) (by omega))
    exact ((hback.trans (Tracks.write (hstart.add (by norm_num)) (by omega))).trans
      (Tracks.write (hstart.add (by norm_num)) (by omega))).trans
        (Tracks.write (hstart.add (by norm_num)) (by norm_num))
  · -- the block is taken as it is
    exact (Tracks.write (hstart.add (by norm_num)) (by norm_num)).trans (Tracks.mono (by simp))

/-! ## Release -/

/-- An absorbed header loses its magic number. -/
theorem tracks_absorb {lo hi : ℕ} {p n : Block} (hl : Linked h.mem 0 (pre ++ p :: n :: post) 0)
    (ht : Tiles hdrSize lo hi (pre ++ p :: n :: post)) (hhi : hi < 2 ^ 32)
    (ha : Aligned 4 (pre ++ p :: n :: post)) :
    Tracks h.mem (pre ++ p :: n :: post) (absorb h p.start n.start).mem
      (pre ++ ⟨p.start, p.size + (hdrSize + n.size), p.used⟩ :: post) := by
  obtain ⟨hpstart, hpsize⟩ := ha p (by simp)
  obtain ⟨hnstart, hnsize⟩ := ha n (by simp)
  have hnext := dvd_headOr (l := post) fun c hc ↦ ha c (by simp [hc])
  obtain ⟨-, hp, hn, -⟩ := linked_middle.mp hl
  obtain ⟨mid, -, rfl, hpn, htpost⟩ := tiles_append.mp ht
  have hend := htpost.le
  have hhdr : 4 ∣ hdrSize := by norm_num [hdrSize]
  rw [absorb_mem hp hn hpn.symm (by omega)]
  have hsize := Tracks.write (m := h.mem) (l := pre ++ p :: n :: post) (n := p.start + 4)
    (v := p.size + (hdrSize + n.size)) (hpstart.add (by norm_num)) (by omega)
  have hlink := hsize.trans (Tracks.write (n := p.start + 16) (v := headOr 0 post)
    (hpstart.add (by norm_num)) (by omega))
  have hback := hlink.trans (Tracks.relink hnext (v := p.start) (by omega))
  exact hback.trans (Tracks.store hnstart (by norm_num) (by grind))

theorem absorbKeeps_tracks {lo hi : ℕ} (hhi : hi < 2 ^ 32) :
    AbsorbKeeps (fun m' l' ↦ Aligned 4 l' ∧ Tracks m l m' l') lo hi := by
  rintro h pre p n post hl ht ⟨ha, htracks⟩
  refine ⟨?_, htracks.trans (tracks_absorb hl ht hhi ha)⟩
  simp only [Aligned, List.forall_mem_append, List.forall_mem_cons] at ha ⊢
  obtain ⟨hpre, ⟨hpstart, hpsize⟩, ⟨-, hnsize⟩, hpost⟩ := ha
  exact ⟨hpre, ⟨hpstart, hpsize.add (Dvd.dvd.add (by norm_num [hdrSize]) hnsize)⟩, hpost⟩

/-- `kfree` of an allocated block. -/
theorem Represents.tracks_kfree (hr : Represents A h l) (hl : Aligned 4 l) (hb : b ∈ l)
    (hused : b.used = true) (hcall : kfree h (b.payload hdrSize) = .done h') :
    Tracks h.mem l h'.mem (release hdrSize (b.payload hdrSize) l) := by
  rw [hr.kfree_eq hb hused, Outcome.done.injEq] at hcall
  subst hcall
  obtain ⟨pre, post, rfl⟩ := List.append_of_mem hb
  obtain ⟨hstart, hsize⟩ := hl b hb
  have hmark : Tracks h.mem (pre ++ b :: post) (h.setUsed b.start 0).mem
      (pre ++ ⟨b.start, b.size, false⟩ :: post) :=
    (Tracks.write (hstart.add (by norm_num)) (by norm_num)).trans (Tracks.mono (by simp))
  have hl₀ : Aligned 4 (pre ++ ⟨b.start, b.size, false⟩ :: post) := by
    simp only [Aligned, List.forall_mem_append, List.forall_mem_cons] at hl ⊢
    exact hl
  exact ((absorbKeeps_tracks A.fits).kfree hr.linked hr.tiles hr.packed A.base_pos A.fits
    ⟨hl₀, hmark⟩).2

/-! ## Runs -/

variable {s : Usage} {issued : List ℕ}

/-- No aligned word of `heap_storage` has become the magic number. -/
def NoMagicStored (A : Arena) (m m' : Bytes) : Prop :=
  ∀ a, 4 ∣ a → A.base ≤ a → a < A.base + storageSize → m'.read32 a = kheapMagic →
    m.read32 a = kheapMagic

/-- Runs of the heap with the pointers that `kmalloc` has returned so far.  The clients free any of
them, or `NULL`, and store what they like where no header of the list stands, but not the magic
number. -/
inductive Careful (A : Arena) : Usage → List ℕ → Prop where
  | init (mem : Bytes) : Careful A ⟨kheapInit A mem, []⟩ []
  | malloc {s : Usage} {issued : List ℕ} {h' : Kheap} {p size : ℕ} (hs : Careful A s issued)
      (hsize : size < 2 ^ 32) (hcall : kmalloc s.heap size = .done (p, h')) :
      Careful A ⟨h', if p = 0 then s.live else p :: s.live⟩ (if p = 0 then issued else p :: issued)
  | free {s : Usage} {issued : List ℕ} {h' : Kheap} {p : ℕ} (hs : Careful A s issued)
      (hp : p = 0 ∨ p ∈ issued) (hcall : kfree s.heap p = .done h') :
      Careful A ⟨h', s.live.erase p⟩ issued
  | store {s : Usage} {issued : List ℕ} (m : Bytes) (hs : Careful A s issued)
      (hheaders : ∀ b, OnList s.heap b → ∀ i, b ≤ i → i < b + hdrSize → m i = s.heap.mem i)
      (hmagic : NoMagicStored A s.heap.mem m) :
      Careful A ⟨{ s.heap with mem := m }, s.live⟩ issued

/-- A pointer behind an aligned and tracked word of `heap_storage`. -/
structure Handed (A : Arena) (m : Bytes) (l : List Block) (p : ℕ) : Prop where
  base_le : A.base + hdrSize ≤ p
  le_stop : p ≤ A.base + storageSize
  aligned : 4 ∣ p
  tracked : Tracked m l (p - hdrSize)

theorem Handed.aligned_word (hp : Handed A m l p) : 4 ∣ p - hdrSize :=
  Nat.dvd_sub hp.aligned (by norm_num [hdrSize])

theorem Handed.step (hp : Handed A m l p) (ht : Tracks m l m' l') : Handed A m' l' p :=
  ⟨hp.base_le, hp.le_stop, hp.aligned, ht _ hp.aligned_word hp.tracked⟩

theorem Represents.handed (hr : Represents A h l) (hl : Aligned 4 l) (hb : b ∈ l) :
    Handed A h.mem l (b.payload hdrSize) := by
  have hbounds := hr.tiles.bounds hb
  unfold Block.stop at hbounds
  have hword : b.payload hdrSize - hdrSize = b.start :=
    Nat.add_sub_cancel b.start hdrSize
  refine ⟨?_, ?_, (hl b hb).1.add (by norm_num [hdrSize]), ?_⟩
  · unfold Block.payload
    omega
  · unfold Block.payload
    omega
  · rw [hword]
    exact fun _ ↦ List.mem_map_of_mem hb

/-- What holds along a run: the list is aligned and every pointer that was returned is handed
out. -/
structure Guarded (A : Arena) (s : Usage) (issued : List ℕ) : Prop where
  inv : HeapInv A s
  aligned : Aligned 4 (blockList s.heap)
  handed : ∀ p ∈ issued, Handed A s.heap.mem (blockList s.heap) p

/-- A pointer that was returned and is not allocated leads to no header or to a free one. -/
theorem Guarded.kfree_panics (hs : Guarded A s issued) (hp : p ∈ issued) (hfree : p ∉ s.live) :
    kfree s.heap p = kheapPanic "kfree: bad pointer" ∨
      kfree s.heap p = kheapPanic "kfree: double free" := by
  obtain ⟨l, hr, hlive⟩ := hs.inv
  have hhanded := hs.handed p hp
  rw [hr.blockList] at hhanded
  have hlo := hhanded.base_le
  have hhi := hhanded.le_stop
  have hfits := A.fits
  have hptr : Word.sub p hdrSize = p - hdrSize := Word.sub_eq (by omega) (by omega)
  have hne : p ≠ 0 := by
    unfold hdrSize at hlo
    omega
  rw [kfree, if_neg hne, hptr]
  by_cases hmagic : s.heap.magic (p - hdrSize) = kheapMagic
  · right
    obtain ⟨b, hb, hstart⟩ := List.mem_map.mp (hhanded.tracked hmagic)
    have hpayload : b.payload hdrSize = p := by
      unfold Block.payload
      omega
    have hunused : b.used = false := by
      by_contra hused
      exact hfree (hlive.mem_iff.mpr (mem_held.mpr ⟨b, hb, by simpa using hused, hpayload⟩))
    obtain ⟨pre, post, rfl⟩ := List.append_of_mem hb
    obtain ⟨-, hheader, -⟩ := linked_middle.mp hr.linked
    have hword : s.heap.used (p - hdrSize) = 0 := by
      rw [← hstart]
      simpa [Kheap.used, hunused] using hheader.used
    simp only [hmagic, ne_eq, not_true_eq_false, if_false, hword, if_true]
  · left
    simp only [ne_eq, hmagic, not_false_eq_true, if_true]

theorem Guarded.malloc {size : ℕ} (hs : Guarded A s issued) (hsize : size < 2 ^ 32)
    (hcall : kmalloc s.heap size = .done (p, h')) :
    Guarded A ⟨h', if p = 0 then s.live else p :: s.live⟩
      (if p = 0 then issued else p :: issued) := by
  obtain ⟨l, hr, -⟩ := hs.inv
  have hl := hs.aligned
  have hissued := hs.handed
  rw [hr.blockList] at hl hissued
  obtain ⟨p', h'', hcall', hinv⟩ := kmalloc_inv hs.inv size
  rw [hcall, Outcome.done.injEq, Prod.mk.injEq] at hcall'
  obtain ⟨rfl, rfl⟩ := hcall'
  rcases hr.kmalloc_returns hcall with ⟨rfl, rfl⟩ | ⟨pre, b, post, hfits, rfl, rfl, hr'⟩
  · exact ⟨hinv, hs.aligned, hs.handed⟩
  · have hn := dvd_alignUp hsize
    obtain rfl := hfits.split
    have hl' : Aligned 4 (pre ++ (split hdrSize kheapAlign _ b ++ post)) :=
      Aligned.split (by norm_num [hdrSize]) hl hn
    have htracks := hr.tracks_takeBlock hl hfits.room hn
    rw [if_neg (hr.payload_ne_zero (by simp))] at hinv ⊢
    refine ⟨hinv, hr'.blockList ▸ hl', ?_⟩
    rw [if_neg (hr.payload_ne_zero (by simp)), hr'.blockList]
    intro q hq
    rcases List.mem_cons.mp hq with rfl | hq
    · exact (hr.handed hl (by simp)).step htracks
    · exact (hissued q hq).step htracks

theorem Guarded.free (hs : Guarded A s issued) (hp : p = 0 ∨ p ∈ issued)
    (hcall : kfree s.heap p = .done h') : Guarded A ⟨h', s.live.erase p⟩ issued := by
  by_cases hlive : p ∈ s.live
  · obtain ⟨l, hr, hperm⟩ := hs.inv
    have hl := hs.aligned
    have hissued := hs.handed
    rw [hr.blockList] at hl hissued
    obtain ⟨b, hb, hused, rfl⟩ := mem_held.mp (hperm.mem_iff.mp hlive)
    obtain ⟨h'', hcall', hinv⟩ := kfree_inv hs.inv hlive
    rw [hcall, Outcome.done.injEq] at hcall'
    subst hcall'
    obtain ⟨h'', hcall', hr'⟩ := kfree_of_represents hr hb hused
    rw [hcall, Outcome.done.injEq] at hcall'
    subst hcall'
    refine ⟨hinv, ?_, ?_⟩
    · rw [hr'.blockList]
      exact Aligned.release (by norm_num [hdrSize]) hl
    · rw [hr'.blockList]
      exact fun q hq ↦ (hissued q hq).step (hr.tracks_kfree hl hb hused hcall)
  · -- a call that returned was for `NULL`
    rcases hp with rfl | hp
    · rw [kfree, if_pos rfl, Outcome.done.injEq] at hcall
      subst hcall
      rw [List.erase_of_not_mem hlive]
      exact hs
    · rcases hs.kfree_panics hp hlive with hpanic | hpanic
      · rw [hpanic] at hcall
        cases hcall
      · rw [hpanic] at hcall
        cases hcall

theorem Guarded.store (hs : Guarded A s issued)
    (hheaders : ∀ b, OnList s.heap b → ∀ i, b ≤ i → i < b + hdrSize → m i = s.heap.mem i)
    (hmagic : NoMagicStored A s.heap.mem m) :
    Guarded A ⟨{ s.heap with mem := m }, s.live⟩ issued := by
  obtain ⟨l, hr, hlive⟩ := hs.inv
  have hl := hs.aligned
  have hissued := hs.handed
  rw [hr.blockList] at hl hissued
  have hr' := hr.congr (m := m) fun b hb i hlo hhi ↦
    hheaders b.start (hr.onList_iff.mpr ⟨b, hb, rfl⟩) i hlo hhi
  refine ⟨⟨l, hr', hlive⟩, hr'.blockList ▸ hl, ?_⟩
  rw [hr'.blockList]
  intro p hp
  obtain ⟨hbase, hstop, hfour, htracked⟩ := hissued p hp
  have hword := (hissued p hp).aligned_word
  refine ⟨hbase, hstop, hfour, fun hstored ↦ htracked (hmagic _ hword ?_ ?_ hstored)⟩
  · omega
  · unfold hdrSize at hbase ⊢
    omega

theorem Careful.guarded (hs : Careful A s issued) : Guarded A s issued := by
  induction hs with
  | init mem =>
      refine ⟨(Reachable.init mem).inv, (Reachable.init mem).aligned, ?_⟩
      simp
  | malloc _ hsize hcall ih => exact ih.malloc hsize hcall
  | free _ hp hcall ih => exact ih.free hp hcall
  | store _ _ hheaders hmagic ih => exact ih.store hheaders hmagic

/-- `kfree` of a pointer that some `kmalloc` returned and that is not allocated panics. -/
theorem double_free_caught (hs : Careful A s issued) (hp : p ∈ issued) (hfree : p ∉ s.live) :
    kfree s.heap p = kheapPanic "kfree: bad pointer" ∨
      kfree s.heap p = kheapPanic "kfree: double free" :=
  hs.guarded.kfree_panics hp hfree

theorem double_free_caught_fresh :
    ∃ h₁ h₂, kmalloc (kheapInit lowArena fun _ ↦ 0) 8 = .done (0x20014, h₁) ∧
      kfree h₁ 0x20014 = .done h₂ ∧
      (kfree h₂ 0x20014 = kheapPanic "kfree: bad pointer" ∨
        kfree h₂ 0x20014 = kheapPanic "kfree: double free") := by
  obtain ⟨h₁, hcall⟩ := kmalloc_fresh
  have hs₁ : Careful lowArena ⟨h₁, [0x20014]⟩ [0x20014] :=
    Careful.malloc (Careful.init fun _ ↦ 0) (by norm_num) hcall
  obtain ⟨h₂, hfree, -⟩ := kfree_inv hs₁.guarded.inv List.mem_cons_self
  have hs₂ : Careful lowArena ⟨h₂, []⟩ [0x20014] :=
    Careful.free hs₁ (Or.inr List.mem_cons_self) hfree
  exact ⟨h₁, h₂, hcall, hfree, double_free_caught hs₂ List.mem_cons_self List.not_mem_nil⟩

end MyOS.Heap
