import MyOS.Heap.Sessions

/-!
# An allocation that is interrupted

`kmalloc` selects a block and computes what is left of it, and then splits the block and marks
it used.  Interrupts are enabled all the time, so the scheduler may free blocks of finished
tasks between the two parts.  The second part then works with a block that has been merged with
its neighbours since it was selected.
-/

namespace MyOS.Heap

open Bytes Tiling

variable {A : Arena} {h h₁ h' : Kheap} {s : Usage} {b c d q : Block} {l l₁ pre post : List Block}
  {a i size leftover : ℕ} {ps : List ℕ}

/-! ## The two parts -/

/-- The search of `kmalloc`: the block it selects and the bytes behind the first `size`. -/
def selectLoop (h : Kheap) (size : ℕ) : ℕ → ℕ → Outcome (Option (ℕ × ℕ))
  | 0, _ => .spin
  | fuel + 1, b =>
      if b = 0 then .done none
      else if h.magic b ≠ kheapMagic then kheapPanic "corrupted block"
      else if h.used b ≠ 0 then selectLoop h size fuel (h.next b)
      else if h.size b < size then selectLoop h size fuel (h.next b)
      else .done (some (b, Word.sub (h.size b) size))

/-- The first part of `kmalloc`, for a request of at least one byte. -/
def kmallocSelect (h : Kheap) (size : ℕ) : Outcome (Option (ℕ × ℕ)) :=
  selectLoop h (alignUp size kheapAlign) walkFuel h.head

/-- The second part, with the `leftover` of the first one. -/
def updateBlock (h : Kheap) (b size leftover : ℕ) : Kheap :=
  let h := if hdrSize + kheapAlign ≤ leftover then splitBlock h b size leftover else h
  h.setUsed b 1

/-- What `kmalloc` returns for the block that was selected. -/
def kmallocFinish (h : Kheap) (size : ℕ) : Option (ℕ × ℕ) → ℕ × Kheap
  | none => (0, h)
  | some (b, leftover) =>
      (Word.add b hdrSize, updateBlock h b (alignUp size kheapAlign) leftover)

theorem kmallocLoop_eq_select (h : Kheap) (size fuel b : ℕ) :
    kmallocLoop h (alignUp size kheapAlign) fuel b =
      selectLoop h (alignUp size kheapAlign) fuel b >>= fun r ↦ .done (kmallocFinish h size r) := by
  induction fuel generalizing b with
  | zero => rfl
  | succ fuel ih =>
      rw [kmallocLoop, selectLoop]
      split_ifs
      · rfl
      · rfl
      · exact ih (h.next b)
      · exact ih (h.next b)
      · rfl

/-- Without an interruption the two parts make up `kmalloc`. -/
theorem kmalloc_eq_select (h : Kheap) (hsize : size ≠ 0) :
    kmalloc h size = kmallocSelect h size >>= fun r ↦ .done (kmallocFinish h size r) := by
  rw [kmalloc, if_neg hsize]
  exact kmallocLoop_eq_select h size walkFuel h.head

theorem selectLoop_eq_some {fuel b₀ : ℕ} (hb₀ : b₀ = 0 ∨ OnList h b₀)
    (hcall : selectLoop h size fuel b₀ = .done (some (a, leftover))) :
    OnList h a ∧ h.used a = 0 ∧ size ≤ h.size a ∧ leftover = Word.sub (h.size a) size := by
  induction fuel generalizing b₀ with
  | zero => cases hcall
  | succ fuel ih =>
      rw [selectLoop] at hcall
      split_ifs at hcall with hzero hmagic hused hsmall
      · cases hcall
      · cases hcall
      · refine ih ?_ hcall
        by_cases hnext : h.next b₀ = 0
        · exact Or.inl hnext
        · exact Or.inr (.next (hb₀.resolve_left hzero) hnext)
      · refine ih ?_ hcall
        by_cases hnext : h.next b₀ = 0
        · exact Or.inl hnext
        · exact Or.inr (.next (hb₀.resolve_left hzero) hnext)
      · simp only [Outcome.done.injEq, Option.some.injEq, Prod.mk.injEq] at hcall
        obtain ⟨rfl, rfl⟩ := hcall
        exact ⟨hb₀.resolve_left hzero, not_not.mp hused, Nat.le_of_not_lt hsmall, rfl⟩

/-- The selected block is a free block of the list. -/
theorem Represents.select (hr : Represents A h l)
    (hcall : kmallocSelect h size = .done (some (a, leftover))) :
    ∃ b ∈ l, b.start = a ∧ b.used = false ∧ alignUp size kheapAlign ≤ b.size ∧
      leftover = b.size - alignUp size kheapAlign := by
  have hhead : h.head = 0 ∨ OnList h h.head := by
    by_cases hzero : h.head = 0
    · exact Or.inl hzero
    · exact Or.inr (.head hzero)
  obtain ⟨hon, hused, hsize, hleft⟩ := selectLoop_eq_some hhead hcall
  obtain ⟨b, hb, rfl⟩ := hr.onList_iff.mp hon
  obtain ⟨pre, post, rfl⟩ := List.append_of_mem hb
  obtain ⟨-, hheader, -⟩ := linked_middle.mp hr.linked
  have hstop := (hr.tiles.bounds hb).2
  have hfits := A.fits
  unfold Block.stop at hstop
  rw [show h.size b.start = b.size from hheader.size] at hsize hleft
  rw [show h.used b.start = b.used.toNat from hheader.used] at hused
  rw [Word.sub_eq hsize (by omega)] at hleft
  exact ⟨b, hb, rfl, by simpa using hused, hsize, hleft⟩

/-! ## What `kfree` writes -/

theorem absorb_frame {lo hi : ℕ} {p n : Block} (hl : Linked h.mem 0 (pre ++ p :: n :: post) 0)
    (ht : Tiles hdrSize lo hi (pre ++ p :: n :: post)) (hhi : hi < 2 ^ 32)
    (hp : i < p.start ∨ p.start + hdrSize ≤ i) (hn : i < n.start ∨ n.start + 4 ≤ i)
    (hpost : ∀ c ∈ post, i < c.start + 12 ∨ c.start + 16 ≤ i) :
    (absorb h p.start n.start).mem i = h.mem i := by
  obtain ⟨-, hpheader, hnheader, -⟩ := linked_middle.mp hl
  obtain ⟨mid, -, rfl, hpn, htpost⟩ := tiles_append.mp ht
  have hend := htpost.le
  have hrelink : ∀ m : Bytes, relink m (headOr 0 post) p.start i = m i := by
    intro m
    cases post with
    | nil => rfl
    | cons c post =>
        rw [headOr, relink]
        split
        · exact writeLE_apply_of_notMem (hpost c List.mem_cons_self)
        · rfl
  unfold hdrSize at hp
  rw [absorb_mem hpheader hnheader hpn.symm (by omega), Bytes.write32,
    writeLE_apply_of_notMem (by omega), hrelink]
  simp (disch := omega) only [writeLE_apply_of_notMem]

theorem mergeNext_frame {lo hi : ℕ} (hl : Linked h.mem 0 (pre ++ b :: post) 0)
    (ht : Tiles hdrSize lo hi (pre ++ b :: post)) (hhi : hi < 2 ^ 32)
    (hb : i < b.start ∨ b.start + hdrSize ≤ i)
    (hpost : ∀ c ∈ post, (i < c.start ∨ c.start + 4 ≤ i) ∧ (i < c.start + 12 ∨ c.start + 16 ≤ i)) :
    (mergeNext h b.start).mem i = h.mem i := by
  obtain ⟨-, hheader, -⟩ := linked_middle.mp hl
  rw [mergeNext, show h.next b.start = headOr 0 post from hheader.next]
  split
  · rename_i hmerge
    cases post with
    | nil => exact absurd rfl hmerge.1
    | cons n post =>
        exact absorb_frame hl ht hhi hb (hpost n List.mem_cons_self).1 fun c hc ↦
          (hpost c (List.mem_cons_of_mem n hc)).2
  · rfl

theorem mergePrev_frame {lo hi : ℕ} (hl : Linked h.mem 0 (pre ++ b :: post) 0)
    (ht : Tiles hdrSize lo hi (pre ++ b :: post)) (hhi : hi < 2 ^ 32)
    (hpre : ∀ c ∈ pre, i < c.start ∨ c.start + hdrSize ≤ i)
    (hb : i < b.start ∨ b.start + hdrSize ≤ i)
    (hpost : ∀ c ∈ post, i < c.start + 12 ∨ c.start + 16 ≤ i) :
    (mergePrev h b.start).mem i = h.mem i := by
  obtain ⟨-, hheader, -⟩ := linked_middle.mp hl
  have hprev : h.prev b.start = lastOr 0 pre := hheader.prev
  rw [mergePrev, hprev]
  split
  · rename_i hmerge
    rcases List.eq_nil_or_concat pre with rfl | ⟨pre, q, rfl⟩
    · exact absurd rfl hmerge.1
    · rw [List.concat_eq_append] at *
      rw [List.append_assoc, List.singleton_append] at hl ht
      have hlast : lastOr 0 (pre ++ [q]) = q.start := by
        rw [lastOr_append]
        rfl
      rw [hlast]
      unfold hdrSize at hb
      exact absorb_frame hl ht hhi (hpre q (by simp)) (by omega) hpost
  · rfl

/-- What stands behind a merged block stood behind the block before. -/
theorem join_tail (b : Block) (post : List Block) : ∃ e rest, join hdrSize b post = e :: rest ∧
    e.start = b.start ∧ ∀ c ∈ rest, c ∈ post := by
  cases post with
  | nil => exact ⟨b, [], rfl, rfl, nofun⟩
  | cons n post =>
      rw [join]
      split
      · exact ⟨_, post, rfl, rfl, fun c hc ↦ List.mem_cons_of_mem n hc⟩
      · exact ⟨b, n :: post, rfl, rfl, fun c hc ↦ hc⟩

theorem merge_frame {lo hi : ℕ} (hl : Linked h.mem 0 (pre ++ b :: post) 0)
    (ht : Tiles hdrSize lo hi (pre ++ b :: post)) (hlo : 0 < lo) (hhi : hi < 2 ^ 32)
    (hfree : b.used = false) (hpre : ∀ c ∈ pre, i < c.start ∨ c.start + hdrSize ≤ i)
    (hb : i < b.start ∨ b.start + hdrSize ≤ i)
    (hpost : ∀ c ∈ post, (i < c.start ∨ c.start + 4 ≤ i) ∧ (i < c.start + 12 ∨ c.start + 16 ≤ i)) :
    (mergePrev (mergeNext h b.start) b.start).mem i = h.mem i := by
  have hl₁ := linked_mergeNext hl ht hlo hhi hfree
  have ht₁ : Tiles hdrSize lo hi (pre ++ join hdrSize b post) := by
    obtain ⟨mid, htpre, rfl, htpost⟩ := tiles_append.mp ht
    exact tiles_append.mpr ⟨b.start, htpre, htpost.join⟩
  obtain ⟨e, rest, hjoin, hestart, hrest⟩ := join_tail b post
  rw [hjoin] at hl₁ ht₁
  have hprev := mergePrev_frame hl₁ ht₁ hhi hpre (by rw [hestart]; exact hb) fun c hc ↦
    (hpost c (hrest c hc)).2
  rw [hestart] at hprev
  exact hprev.trans (mergeNext_frame hl ht hhi hb hpost)

/-- `kfree` writes to the headers of its block and of those in front of it, and to the magic
words and the back links of those behind it. -/
theorem kfree_frame (hr : Represents A h (pre ++ b :: post)) (hused : b.used = true)
    (hcall : kfree h (b.payload hdrSize) = .done h')
    (hpre : ∀ c ∈ pre, i < c.start ∨ c.start + hdrSize ≤ i)
    (hb : i < b.start ∨ b.start + hdrSize ≤ i)
    (hpost : ∀ c ∈ post, (i < c.start ∨ c.start + 4 ≤ i) ∧ (i < c.start + 12 ∨ c.start + 16 ≤ i)) :
    h'.mem i = h.mem i := by
  rw [hr.kfree_eq (by simp) hused, Outcome.done.injEq] at hcall
  rw [← hcall]
  have hl₀ := linked_setUsed hr.linked hr.tiles
  have ht₀ : Tiles hdrSize A.base (A.base + storageSize)
      (pre ++ ⟨b.start, b.size, false⟩ :: post) := by
    obtain ⟨mid, htpre, htb, htpost⟩ := tiles_append.mp hr.tiles
    exact tiles_append.mpr ⟨mid, htpre, htb, htpost⟩
  have hmerge := merge_frame hl₀ ht₀ A.base_pos A.fits rfl hpre hb hpost
  have hfield : i < b.start + 8 ∨ b.start + 8 + 4 ≤ i := by
    unfold hdrSize at hb
    omega
  simp only at hmerge
  rw [hmerge, Kheap.setUsed]
  exact write32_apply_of_notMem hfield

/-! ## What is left of a free block -/

/-- Where a free block was selected at `a` there is a free block, or the header of the selected
one stands inside a larger free block.  Its `next` leads to nothing, to the block behind the
larger one or to another place inside. -/
def Remains (h : Kheap) (l : List Block) (a : ℕ) : Prop :=
  ∃ c ∈ l, c.used = false ∧ (c.start = a ∨ c.start + hdrSize ≤ a ∧ a + hdrSize ≤ c.stop hdrSize ∧
    (h.next a = 0 ∨ h.next a = c.stop hdrSize ∨
      a + hdrSize ≤ h.next a ∧ h.next a + hdrSize ≤ c.stop hdrSize))

theorem Represents.next_eq (hr : Represents A h l) (hc : c ∈ l) :
    h.next c.start = 0 ∨ h.next c.start = c.stop hdrSize := by
  obtain ⟨pre, post, rfl⟩ := List.append_of_mem hc
  obtain ⟨-, hheader, -⟩ := linked_middle.mp hr.linked
  obtain ⟨mid, -, -, hpost⟩ := tiles_append.mp hr.tiles
  rw [show h.next c.start = headOr 0 post from hheader.next]
  cases post with
  | nil => exact Or.inl rfl
  | cons n post => exact Or.inr hpost.1

/-- The link of a header is kept when no header that `kfree` writes meets it. -/
theorem next_eq_of_frame (hframe : ∀ i, a + 16 ≤ i → i < a + 20 → h'.mem i = h.mem i) :
    h'.next a = h.next a :=
  readLE_congr fun i hlo hhi ↦ hframe i hlo (by omega)

theorem mem_inUse_release (hr : Represents A h l) (hb : b ∈ inUse l) :
    d ∈ inUse (release hdrSize (b.payload hdrSize) l) ↔ d ∈ inUse l ∧ d ≠ b := by
  have hperm := hr.tiles.inUse_release (by norm_num [hdrSize]) hb
  have hnodup : (inUse l).Nodup := by
    refine (hr.tiles.pairwise.filter _).imp fun {x y} hxy ↦ ?_
    rintro rfl
    unfold Block.stop hdrSize at hxy
    omega
  have hfresh := (List.nodup_cons.mp (hperm.nodup_iff.mp hnodup)).1
  rw [hperm.mem_iff, List.mem_cons]
  constructor
  · intro hd
    refine ⟨Or.inr hd, ?_⟩
    rintro rfl
    exact hfresh hd
  · rintro ⟨hd, hne⟩
    exact hd.resolve_left hne

/-- `kfree` keeps the link of the block behind the one it frees. -/
theorem kfree_next_behind (hr : Represents A h l) (hb : b ∈ l) (hbused : b.used = true)
    (hc : c ∈ l) (hstop : b.stop hdrSize = c.start)
    (hcall : kfree h (b.payload hdrSize) = .done h') : h'.next c.start = h.next c.start := by
  have hlen : ∀ d : Block, d.start + hdrSize ≤ d.stop hdrSize := Block.start_add_le_stop
  have hhdr : hdrSize = 20 := rfl
  obtain ⟨pre, post, rfl⟩ := List.append_of_mem hb
  refine next_eq_of_frame fun i hlo hhi ↦ ?_
  have hpair := List.pairwise_append.mp hr.tiles.pairwise
  have hblen := hlen b
  refine kfree_frame hr hbused hcall (fun d hd ↦ ?_) (by omega) fun d hd ↦ ?_
  · have hbefore := hpair.2.2 d hd b List.mem_cons_self
    have hdlen := hlen d
    omega
  · by_cases hdc : d = c
    · subst hdc
      omega
    · have hsep := hr.tiles.separate (show d ∈ pre ++ b :: post by simp [hd]) hc hdc
      have hbehind := (List.pairwise_cons.mp hpair.2.1).1 d hd
      have hclen := hlen c
      have hdlen := hlen d
      omega

/-- `kfree` keeps the link of a header inside a block. -/
theorem kfree_next_inside (hr : Represents A h l) (hb : b ∈ l) (hbused : b.used = true)
    (hc : c ∈ l) (hlo : c.start + hdrSize ≤ a) (hhi : a + hdrSize ≤ c.stop hdrSize)
    (hcall : kfree h (b.payload hdrSize) = .done h') : h'.next a = h.next a := by
  have hhdr : hdrSize = 20 := rfl
  obtain ⟨pre, post, rfl⟩ := List.append_of_mem hb
  refine next_eq_of_frame fun i hilo hihi ↦ ?_
  have haway : ∀ d ∈ pre ++ b :: post, i < d.start ∨ d.start + hdrSize ≤ i := by
    intro d hd
    by_cases hdc : d = c
    · subst hdc
      omega
    · have hsep := hr.tiles.separate hd hc hdc
      have hdlen : d.start + hdrSize ≤ d.stop hdrSize := d.start_add_le_stop
      omega
  refine kfree_frame hr hbused hcall (fun d hd ↦ haway d (by simp [hd]))
    (haway b (by simp)) fun d hd ↦ ?_
  have hd' := haway d (by simp [hd])
  omega

theorem kfree_remains (hr : Represents A h l) (hremains : Remains h l a) (hb : b ∈ inUse l)
    (hcall : kfree h (b.payload hdrSize) = .done h') :
    Remains h' (release hdrSize (b.payload hdrSize) l) a := by
  obtain ⟨hbl, hbused⟩ := List.mem_filter.mp hb
  obtain ⟨c, hc, hcfree, hplace⟩ := hremains
  obtain ⟨c', hc', hfree', hstart, hstop, hgrowl, hgrowr⟩ := hr.tiles.free_grows
    (by norm_num [hdrSize]) hr.packed hr.tiles.release hr.packed.release
    (fun d hd ↦ ((mem_inUse_release hr hb).mp hd).1) hc hcfree
  have hclen : c.start + hdrSize ≤ c.stop hdrSize := c.start_add_le_stop
  have hhdr : hdrSize = 20 := rfl
  refine ⟨c', hc', hfree', ?_⟩
  rcases hplace with rfl | ⟨hlo, hhi, hnext⟩
  · rcases hstart with hsame | hgrown
    · exact Or.inl hsame
    · -- the block in front was freed and has taken in the selected one
      right
      have hstop' : b.stop hdrSize = c.start := by
        by_contra hne
        have hkept : c'.start = c.start := hgrowl.mpr fun d hd hdstop ↦
          (mem_inUse_release hr hb).mpr ⟨hd, by rintro rfl; exact hne hdstop⟩
        omega
      have hkeep : c'.stop hdrSize = c.stop hdrSize := hgrowr.mpr fun d hd hdstart ↦
        (mem_inUse_release hr hb).mpr ⟨hd, by
          rintro rfl
          have hdlen : d.start + hdrSize ≤ d.stop hdrSize := d.start_add_le_stop
          omega⟩
      rw [kfree_next_behind hr hbl hbused hc hstop' hcall, hkeep]
      refine ⟨hgrown, hclen, ?_⟩
      rcases hr.next_eq hc with hzero | hend
      · exact Or.inl hzero
      · exact Or.inr (Or.inl hend)
  · right
    rw [kfree_next_inside hr hbl hbused hc hlo hhi hcall]
    refine ⟨by omega, by omega, ?_⟩
    rcases hnext with hzero | hend | hinside
    · exact Or.inl hzero
    · rcases hstop with hsame | hgrown
      · exact Or.inr (Or.inl (by omega))
      · exact Or.inr (Or.inr ⟨by omega, by omega⟩)
    · exact Or.inr (Or.inr ⟨hinside.1, by omega⟩)

/-- The blocks that an interruption frees. -/
theorem foldlM_kfree (hr : Represents A h l) (hremains : Remains h l a) (hps : ps.Nodup)
    (hheld : ∀ p ∈ ps, p ∈ held hdrSize l) :
    ∃ h₁ l₁, ps.foldlM kfree h = .done h₁ ∧ Represents A h₁ l₁ ∧ Remains h₁ l₁ a ∧
      ∀ d, d ∈ inUse l₁ ↔ d ∈ inUse l ∧ d.payload hdrSize ∉ ps := by
  induction ps generalizing h l with
  | nil => exact ⟨h, l, rfl, hr, hremains, by simp⟩
  | cons p ps ih =>
      obtain ⟨hp, hrest⟩ := List.nodup_cons.mp hps
      obtain ⟨b, hb, hused, rfl⟩ := mem_held.mp (hheld p List.mem_cons_self)
      have hbuse : b ∈ inUse l := List.mem_filter.mpr ⟨hb, hused⟩
      obtain ⟨h', hcall, hr'⟩ := kfree_of_represents hr hb hused
      have hheld' : ∀ q ∈ ps, q ∈ held hdrSize (release hdrSize (b.payload hdrSize) l) := by
        intro q hq
        obtain ⟨d, hd, hdused, rfl⟩ := mem_held.mp (hheld q (List.mem_cons_of_mem _ hq))
        have hne : d ≠ b := by
          rintro rfl
          exact hp hq
        have hd' := (mem_inUse_release hr hbuse).mpr ⟨List.mem_filter.mpr ⟨hd, hdused⟩, hne⟩
        obtain ⟨hdl, hdu⟩ := List.mem_filter.mp hd'
        exact mem_held.mpr ⟨d, hdl, hdu, rfl⟩
      obtain ⟨h₁, l₁, hloop, hr₁, hremains₁, huse₁⟩ :=
        ih hr' (kfree_remains hr hremains hbuse hcall) hrest hheld'
      refine ⟨h₁, l₁, ?_, hr₁, hremains₁, fun d ↦ ?_⟩
      · rw [List.foldlM_cons, hcall, Outcome.done_bind]
        exact hloop
      · rw [huse₁, mem_inUse_release hr hbuse, List.mem_cons, not_or]
        constructor
        · rintro ⟨⟨hd, hne⟩, hfree⟩
          refine ⟨hd, fun hpay ↦ hne ?_, hfree⟩
          refine hr.tiles.eq_of_start_eq (by norm_num [hdrSize]) (List.mem_filter.mp hd).1 hb ?_
          unfold Block.payload at hpay
          omega
        · rintro ⟨hd, hne, hfree⟩
          exact ⟨⟨hd, by rintro rfl; exact hne rfl⟩, hfree⟩

/-! ## The second part after an interruption -/

/-- The list tiles the heap, and no other block meets the `n` bytes at `p` or the header in front
of them. -/
structure Sound (A : Arena) (h : Kheap) (p n : ℕ) : Prop where
  tiles : Tiles hdrSize A.base (A.base + storageSize) (blockList h)
  apart : ∀ c ∈ blockList h, c.payload hdrSize ≠ p →
    c.stop hdrSize + hdrSize ≤ p ∨ p + n ≤ c.start

theorem Represents.sound (hr : Represents A h l) (hc : c ∈ l) (hsize : size ≤ c.size) :
    Sound A h (c.payload hdrSize) size := by
  constructor
  · rw [hr.blockList]
    exact hr.tiles
  · intro d hd hne
    rw [hr.blockList] at hd
    have hdc : d ≠ c := by
      rintro rfl
      exact hne rfl
    have hsep := hr.tiles.separate hd hc hdc
    unfold Block.payload
    unfold Block.stop at hsep ⊢
    omega

/-- When the block still starts where it did, the update is right if it does not split or if
the block has kept its size. -/
theorem Represents.updateBlock (hr : Represents A h (pre ++ c :: post)) (hfree : c.used = false)
    (hsize : size ≤ c.size)
    (hleft : leftover = c.size - size ∨ leftover < hdrSize + kheapAlign) :
    Sound A (updateBlock h c.start size leftover) (c.payload hdrSize) size := by
  have hmem : c ∈ pre ++ c :: post := by simp
  have hstop := (hr.tiles.bounds hmem).2
  have hfits := A.fits
  have hheader := (linked_middle.mp hr.linked).2.1
  have hsub : ∀ n, n ≤ c.size → Word.sub (h.size c.start) n = c.size - n := by
    intro n hn
    unfold Block.stop at hstop
    rw [show h.size c.start = c.size from hheader.size]
    exact Word.sub_eq hn (by omega)
  have htake : ∀ n, n ≤ c.size → Heap.updateBlock h c.start n (c.size - n) =
      Heap.takeBlock h c.start n := by
    intro n hn
    rw [Heap.updateBlock, Heap.takeBlock, hsub n hn]
  -- both ways the block that is marked is one of the list
  obtain ⟨n, hn, hnsize, heq⟩ : ∃ n, n ≤ c.size ∧ size ≤ n ∧
      Heap.updateBlock h c.start size leftover = Heap.takeBlock h c.start n := by
    by_cases hsplit : hdrSize + kheapAlign ≤ leftover
    · have hkept : leftover = c.size - size := hleft.resolve_right (by omega)
      refine ⟨size, hsize, le_refl _, ?_⟩
      rw [hkept, htake size hsize]
    · refine ⟨c.size, le_refl _, hsize, ?_⟩
      rw [← htake c.size (le_refl _), Heap.updateBlock, Heap.updateBlock, if_neg hsplit,
        if_neg (by rw [Nat.sub_self]; norm_num [hdrSize])]
  obtain ⟨e, he, hestart, hesize⟩ : ∃ e ∈ split hdrSize kheapAlign n c,
      e.start = c.start ∧ n ≤ e.size := by
    unfold split
    split
    · exact ⟨_, List.mem_cons_self, rfl, le_refl _⟩
    · exact ⟨_, List.mem_cons_self, rfl, hn⟩
  have hpayload : c.payload hdrSize = e.payload hdrSize := by
    rw [Block.payload, Block.payload, hestart]
  rw [heq, hpayload]
  exact (hr.takeBlock hfree hn).sound (by simp [he]) (hnsize.trans hesize)

/-- A block that has grown since is split as if it had not, and the bytes it has gained are on no
block any more. -/
theorem Represents.split_short (hr : Represents A h (pre ++ c :: post)) (hfree : c.used = false)
    (hsize : size + leftover < c.size) (hleft : hdrSize + kheapAlign ≤ leftover) (p n : ℕ) :
    ¬Sound A (Heap.updateBlock h c.start size leftover) p n := by
  intro hsound
  have hlinked := linked_splitBlock hr.linked hr.tiles A.base_pos A.fits hfree hsize.le hleft
  set l₂ := pre ++ ⟨c.start, size, true⟩ ::
    ⟨c.start + hdrSize + size, leftover - hdrSize, false⟩ :: post with hl₂
  have hupdate : Heap.updateBlock h c.start size leftover =
      (splitBlock h c.start size leftover).setUsed c.start 1 := by
    rw [Heap.updateBlock, if_pos hleft]
  have hhead : (Heap.updateBlock h c.start size leftover).head = headOr 0 l₂ := by
    have hsplit : (splitBlock h c.start size leftover).head = h.head := by
      simp [splitBlock, apply_ite Kheap.head]
    have hold := hr.head_eq_headOr
    rw [headOr_append] at hold
    rw [hupdate, Kheap.setUsed_head, hsplit, hl₂, headOr_append]
    exact hold
  have hcstart := hr.start_pos (show c ∈ pre ++ c :: post by simp)
  have hlist : Heap.blockList (Heap.updateBlock h c.start size leftover) = l₂ := by
    rw [Heap.blockList, hhead, hupdate]
    refine blockLoop_of_linked hlinked (fun d hd ↦ ?_) ?_
    · simp only [hl₂, List.mem_append, List.mem_cons] at hd
      rcases hd with hd | rfl | rfl | hd
      · exact hr.start_pos (by simp [hd])
      · exact hcstart
      · exact Nat.add_pos_left (Nat.add_pos_left hcstart _) _
      · exact hr.start_pos (by simp [hd])
    · have hsum := hr.tiles.sum_eq
      have hfits := A.fits
      simp only [hl₂, List.length_append, List.length_cons] at hsum ⊢
      unfold hdrSize storageSize at *
      unfold walkFuel
      omega
  have htiles := hsound.tiles
  rw [hlist, hl₂] at htiles
  -- the rest ends before the next block, or before the end of the heap
  obtain ⟨mid, -, -, -, hpost⟩ := tiles_append.mp htiles
  obtain ⟨mid', -, -, hpost'⟩ := tiles_append.mp hr.tiles
  unfold Block.stop at hpost hpost'
  simp only at hpost
  cases post with
  | nil =>
      rw [tiles_nil] at hpost hpost'
      omega
  | cons d post =>
      have hd := hpost.1
      have hd' := hpost'.1
      omega

/-- When the header stands inside another free block, the list does not change: the region that
is handed out belongs to that block. -/
theorem Represents.update_inside (size leftover : ℕ) (hr : Represents A h l) (hc : c ∈ l)
    (hlo : c.start + hdrSize ≤ a) (hhi : a + hdrSize + size + leftover ≤ c.stop hdrSize)
    (hnext : h.next a = 0 ∨ h.next a = c.stop hdrSize ∨
      a + hdrSize ≤ h.next a ∧ h.next a + hdrSize ≤ c.stop hdrSize) :
    Heap.blockList (Heap.updateBlock h a size leftover) = l := by
  have hstop := (hr.tiles.bounds hc).2
  have hfits := A.fits
  have hhdr : hdrSize = 20 := rfl
  -- no word of a header but back links is written
  have hframe : ∀ i, (i < c.start + hdrSize ∨ c.stop hdrSize ≤ i) →
      (i < c.stop hdrSize + 12 ∨ c.stop hdrSize + 16 ≤ i) →
      (Heap.updateBlock h a size leftover).mem i = h.mem i := by
    intro i hout hback
    rw [Heap.updateBlock]
    split
    · rename_i hsplit
      have hmem := splitBlock_mem size leftover rfl (h := h) (a := a) (by omega) (by omega)
        (by omega)
      have hrelink : ∀ m : Bytes, relink m (h.next a) (a + hdrSize + size) i = m i := by
        intro m
        rw [relink]
        split
        · exact write32_apply_of_notMem (by omega)
        · rfl
      change (splitBlock h a size leftover).mem.write32 (a + 8) 1 i = h.mem i
      rw [hmem, write32_apply_of_notMem (by omega), write32_apply_of_notMem (by omega),
        write32_apply_of_notMem (by omega), hrelink]
      exact writeHeader_apply_of_notMem (by simp only; omega)
    · change h.mem.write32 (a + 8) 1 i = h.mem i
      exact write32_apply_of_notMem (by omega)
  have hfield : ∀ d ∈ l, ∀ k, k + 4 ≤ 12 ∨ k = 16 →
      (Heap.updateBlock h a size leftover).mem.read32 (d.start + k) =
        h.mem.read32 (d.start + k) := by
    intro d hd k hk
    refine readLE_congr fun i hilo hihi ↦ ?_
    by_cases hdc : d = c
    · subst hdc
      unfold Block.stop at *
      exact hframe i (by omega) (by omega)
    · have hsep := hr.tiles.separate hd hc hdc
      have hdlen : d.start + hdrSize ≤ d.stop hdrSize := by
        unfold Block.stop
        omega
      have hback : d.stop hdrSize ≤ c.start ∨ d.start = c.stop hdrSize ∨
          c.stop hdrSize + hdrSize ≤ d.start := by
        rcases hsep with hbefore | hbehind
        · exact Or.inl hbefore
        · exact Or.inr (hr.tiles.next_start hc hd hbehind)
      exact hframe i (by omega) (by omega)
  have hhead : (Heap.updateBlock h a size leftover).head = h.head := by
    simp [Heap.updateBlock, splitBlock, apply_ite Kheap.head]
  rw [← hr.blockList, Heap.blockList, hhead]
  refine blockLoop_congr fun d hd ↦ ?_
  have hdl : d ∈ l := by
    rw [← hr.blockList]
    exact hd
  exact ⟨hfield d hdl 4 (by omega), hfield d hdl 8 (by omega), hfield d hdl 16 (by omega)⟩

/-- The block in front of a free block is used, and `prev` leads to it. -/
theorem Represents.forall_front_iff {P : ℕ → Prop} (hr : Represents A h l) (hb : b ∈ l)
    (hfree : b.used = false) :
    (∀ d ∈ inUse l, d.stop hdrSize = b.start → P (d.payload hdrSize)) ↔
      (h.prev b.start ≠ 0 → P (h.prev b.start + hdrSize)) := by
  obtain ⟨pre, post, rfl⟩ := List.append_of_mem hb
  have hprev : h.prev b.start = lastOr 0 pre := (linked_middle.mp hr.linked).2.1.prev
  obtain ⟨mid, hpre, rfl, -⟩ := tiles_append.mp hr.tiles
  rw [hprev]
  rcases List.eq_nil_or_concat pre with rfl | ⟨pre, q, rfl⟩
  · refine ⟨fun _ hne ↦ absurd rfl hne, fun _ d hd hstop ↦ ?_⟩
    have hlo := (hr.tiles.bounds (List.mem_filter.mp hd).1).1
    rw [tiles_nil] at hpre
    unfold Block.stop hdrSize at hstop
    omega
  · rw [List.concat_eq_append] at *
    obtain ⟨mid', -, hq, hend⟩ := tiles_append.mp hpre
    have hstart := hr.start_pos (show q ∈ pre ++ [q] ++ b :: post by simp)
    have hused : q.used = true := by
      have hlink := (List.isChain_append.mp hr.packed).2.2 q (by simp) b (by simp)
      simpa [hfree] using hlink
    have hmem : q ∈ inUse (pre ++ [q] ++ b :: post) := List.mem_filter.mpr ⟨by simp, hused⟩
    have hlast : lastOr 0 (pre ++ [q]) = q.start := by
      rw [lastOr_append]
      rfl
    rw [hlast]
    refine ⟨fun hall _ ↦ hall q hmem hend, fun hP d hd hstop ↦ ?_⟩
    obtain rfl : d = q := by
      by_contra hne
      have hsep := hr.tiles.separate (List.mem_filter.mp hd).1 (List.mem_filter.mp hmem).1 hne
      rw [tiles_nil] at hend
      unfold Block.stop hdrSize at *
      omega
    exact hP hstart.ne'

/-- The block behind a free block is used, and `next` leads to it. -/
theorem Represents.forall_behind_iff {P : ℕ → Prop} (hr : Represents A h l) (hb : b ∈ l)
    (hfree : b.used = false) :
    (∀ d ∈ inUse l, d.start = b.stop hdrSize → P (d.payload hdrSize)) ↔
      (h.next b.start ≠ 0 → P (h.next b.start + hdrSize)) := by
  obtain ⟨pre, post, rfl⟩ := List.append_of_mem hb
  have hnext : h.next b.start = headOr 0 post := (linked_middle.mp hr.linked).2.1.next
  obtain ⟨mid, -, -, hpost⟩ := tiles_append.mp hr.tiles
  rw [hnext]
  cases post with
  | nil =>
      refine ⟨fun _ hne ↦ absurd rfl hne, fun _ d hd hstart ↦ ?_⟩
      have hhi := (hr.tiles.bounds (List.mem_filter.mp hd).1).2
      rw [tiles_nil] at hpost
      unfold Block.stop hdrSize at *
      omega
  | cons n post =>
      have hstart := hr.start_pos (show n ∈ pre ++ b :: n :: post by simp)
      have hused : n.used = true := by
        have hlink := (List.isChain_cons.mp hr.packed.right_of_append).1 n rfl
        simpa [hfree] using hlink
      have hmem : n ∈ inUse (pre ++ b :: n :: post) := List.mem_filter.mpr ⟨by simp, hused⟩
      rw [headOr]
      refine ⟨fun hall _ ↦ hall n hmem hpost.1, fun hP d hd hdstart ↦ ?_⟩
      obtain rfl : d = n := hr.tiles.eq_of_start_eq (by norm_num [hdrSize])
        (List.mem_filter.mp hd).1 (List.mem_filter.mp hmem).1 (hdstart.trans hpost.1.symm)
      exact hP hstart.ne'

/-- Where the neighbours of the selected block are still in use, the block is as it was. -/
theorem updateBlock_sound_iff (hr : Represents A h l)
    (hselect : kmallocSelect h size = .done (some (a, leftover))) (hps : ps.Nodup)
    (hheld : ∀ p ∈ ps, p ∈ held hdrSize l) :
    ∃ h₁, ps.foldlM kfree h = .done h₁ ∧
      (Sound A (updateBlock h₁ a (alignUp size kheapAlign) leftover) (Word.add a hdrSize)
          (alignUp size kheapAlign) ↔
        (h.prev a ≠ 0 → h.prev a + hdrSize ∉ ps) ∧
          (leftover < hdrSize + kheapAlign ∨ (h.next a ≠ 0 → h.next a + hdrSize ∉ ps))) := by
  obtain ⟨b, hb, rfl, hfree, hsize, hleft⟩ := hr.select hselect
  obtain ⟨h₁, l₁, hcall, hr₁, hremains, huse⟩ :=
    foldlM_kfree hr ⟨b, hb, hfree, Or.inl rfl⟩ hps hheld
  refine ⟨h₁, hcall, ?_⟩
  obtain ⟨c, hc, hcfree, hstart, hstop, hfront, hbehind⟩ := hr.tiles.free_grows
    (by norm_num [hdrSize]) hr.packed hr₁.tiles hr₁.packed (fun d hd ↦ ((huse d).mp hd).1) hb hfree
  have hfront' : c.start = b.start ↔ (h.prev b.start ≠ 0 → h.prev b.start + hdrSize ∉ ps) := by
    rw [hfront, ← hr.forall_front_iff (P := fun p ↦ p ∉ ps) hb hfree]
    exact forall₂_congr fun d hd ↦ by simp [huse, hd]
  have hbehind' : c.stop hdrSize = b.stop hdrSize ↔
      (h.next b.start ≠ 0 → h.next b.start + hdrSize ∉ ps) := by
    rw [hbehind, ← hr.forall_behind_iff (P := fun p ↦ p ∉ ps) hb hfree]
    exact forall₂_congr fun d hd ↦ by simp [huse, hd]
  rw [← hfront', ← hbehind']
  have hbounds := hr.tiles.bounds hb
  have hfits := A.fits
  have hhdr : hdrSize = 20 := rfl
  have hptr : Word.add b.start hdrSize = b.payload hdrSize := by
    unfold Block.stop at hbounds
    exact Word.add_eq (by omega)
  have hbstop : b.stop hdrSize = b.start + hdrSize + b.size := rfl
  have hcstop : c.stop hdrSize = c.start + hdrSize + c.size := rfl
  rw [hptr]
  constructor
  · intro hsound
    by_contra hnot
    rcases hstart with hsame | hgrown
    · -- the block has grown behind and is split
      have hcond : ¬(leftover < hdrSize + kheapAlign ∨ c.stop hdrSize = b.stop hdrSize) :=
        fun hcond ↦ hnot ⟨hsame, hcond⟩
      obtain ⟨hsplit, hne⟩ := not_or.mp hcond
      obtain ⟨pre, post, rfl⟩ := List.append_of_mem hc
      rw [← hsame] at hsound
      exact hr₁.split_short hcfree (by omega) (Nat.le_of_not_lt hsplit) _ _ hsound
    · -- the block has become part of another one
      obtain ⟨e, he, hefree, hplace⟩ := hremains
      obtain rfl : e = c := by
        by_contra hne
        have hsep := hr₁.tiles.separate he hc hne
        have hestop : e.stop hdrSize = e.start + hdrSize + e.size := rfl
        omega
      obtain ⟨-, -, hnext⟩ := hplace.resolve_left (by omega)
      have hlist := hr₁.update_inside (alignUp size kheapAlign) leftover hc hgrown (by omega) hnext
      have hapart := hsound.apart e (hlist ▸ hc) (by unfold Block.payload; omega)
      unfold Block.payload at hapart
      omega
  · rintro ⟨hsame, hkept⟩
    obtain ⟨pre, post, rfl⟩ := List.append_of_mem hc
    have hpayload : b.payload hdrSize = c.payload hdrSize := by
      rw [Block.payload, Block.payload, hsame]
    rw [hpayload, ← hsame]
    refine hr₁.updateBlock hcfree (by omega) ?_
    rcases hkept with hsmall | hend
    · exact Or.inr hsmall
    · exact Or.inl (by omega)

/-- Let blocks that are in use be freed after `kmalloc` has selected the block at `a`.  The
allocation is right in the end exactly when the block in front of `a` is not among them, and the
one behind it is not either or the block at `a` is not split. -/
theorem interrupted_kmalloc_iff (hs : Reachable A s)
    (hselect : kmallocSelect s.heap size = .done (some (a, leftover))) (hps : ps.Nodup)
    (hlive : ∀ p ∈ ps, p ∈ s.live) :
    ∃ h₁, ps.foldlM kfree s.heap = .done h₁ ∧
      (Sound A (updateBlock h₁ a (alignUp size kheapAlign) leftover) (Word.add a hdrSize)
          (alignUp size kheapAlign) ↔
        (s.heap.prev a ≠ 0 → s.heap.prev a + hdrSize ∉ ps) ∧
          (leftover < hdrSize + kheapAlign ∨
            (s.heap.next a ≠ 0 → s.heap.next a + hdrSize ∉ ps))) := by
  obtain ⟨l, hr, hheld⟩ := hs.inv
  exact updateBlock_sound_iff hr hselect hps fun p hp ↦ hheld.mem_iff.mp (hlive p hp)

/-! ## In a heap with a hole -/

/-- The hole is not split for 8 bytes, so its neighbour behind may be freed meanwhile. -/
theorem interrupted_kmalloc_iff_holed :
    ∃ h₁, [0x2005C].foldlM kfree holedHeap = .done h₁ ∧
      (Sound lowArena (updateBlock h₁ 0x20024 (alignUp 8 kheapAlign) 8) (Word.add 0x20024 hdrSize)
          (alignUp 8 kheapAlign) ↔
        (holedHeap.prev 0x20024 ≠ 0 → holedHeap.prev 0x20024 + hdrSize ∉ [0x2005C]) ∧
          (8 < hdrSize + kheapAlign ∨
            (holedHeap.next 0x20024 ≠ 0 → holedHeap.next 0x20024 + hdrSize ∉ [0x2005C]))) :=
  interrupted_kmalloc_iff holedHeap_reachable (by decide +kernel) (by decide)
    (by decide)

/-- `kmalloc(8)` has selected the hole when the block in front of it is freed: the pointer that is
returned leads into a free block. -/
theorem interrupted_kmalloc_overlaps :
    kmallocSelect holedHeap 8 = .done (some (0x20024, 8)) ∧
      kfree holedHeap 0x20014 = .done (afterKfree holedHeap 0x20014) ∧
      ⟨0x20000, 52, false⟩ ∈ blockList (updateBlock (afterKfree holedHeap 0x20014) 0x20024 8 8) ∧
      ¬Sound lowArena (updateBlock (afterKfree holedHeap 0x20014) 0x20024 8 8) 0x20038 8 := by
  have hmem : (⟨0x20000, 52, false⟩ : Block) ∈
      blockList (updateBlock (afterKfree holedHeap 0x20014) 0x20024 8 8) := by
    decide +kernel
  refine ⟨by decide +kernel, kfree_eq_after (by decide +kernel), hmem, fun hsound ↦ ?_⟩
  have hapart := hsound.apart _ hmem (by decide)
  revert hapart
  decide

end MyOS.Heap
