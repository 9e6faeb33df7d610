import Mathlib.Tactic

/-!
# Memory tiled by headed blocks

An interval of memory is cut into consecutive blocks, each with a header of `hdr`
bytes in front of its payload.  Taking a block splits it when the rest can hold
another header and `grain` payload bytes, and giving one back merges it with its
free neighbours.  Both keep the tiling and both keep free blocks apart.
-/

namespace Tiling

structure Block where
  start : ℕ
  size : ℕ
  used : Bool
  deriving DecidableEq, Repr

/-- The address of the payload of a block. -/
def Block.payload (hdr : ℕ) (b : Block) : ℕ := b.start + hdr

/-- The first address behind a block. -/
def Block.stop (hdr : ℕ) (b : Block) : ℕ := b.start + hdr + b.size

variable {hdr grain lo mid hi n p : ℕ} {b c : Block} {l l₁ l₂ pre post : List Block}

/-- The blocks of the list follow each other from `lo` to `hi` without gap or overlap. -/
def Tiles (hdr : ℕ) : ℕ → ℕ → List Block → Prop
  | lo, hi, [] => lo = hi
  | lo, hi, b :: l => b.start = lo ∧ Tiles hdr (b.stop hdr) hi l

@[simp] theorem tiles_nil : Tiles hdr lo hi [] ↔ lo = hi := Iff.rfl

@[simp] theorem tiles_cons :
    Tiles hdr lo hi (b :: l) ↔ b.start = lo ∧ Tiles hdr (b.stop hdr) hi l := Iff.rfl

theorem tiles_append :
    Tiles hdr lo hi (l₁ ++ l₂) ↔ ∃ mid, Tiles hdr lo mid l₁ ∧ Tiles hdr mid hi l₂ := by
  induction l₁ generalizing lo with
  | nil => simp
  | cons b l₁ ih =>
      simp only [List.cons_append, tiles_cons, ih, and_assoc]
      exact exists_and_left.symm

namespace Tiles

theorem le (h : Tiles hdr lo hi l) : lo ≤ hi := by
  induction l generalizing lo with
  | nil => exact h.le
  | cons b l ih =>
      obtain ⟨rfl, hl⟩ := h
      have hstop := ih hl
      unfold Block.stop at hstop
      omega

theorem bounds (h : Tiles hdr lo hi l) (hb : b ∈ l) : lo ≤ b.start ∧ b.stop hdr ≤ hi := by
  obtain ⟨pre, post, rfl⟩ := List.append_of_mem hb
  obtain ⟨mid, hpre, rfl, hpost⟩ := tiles_append.mp h
  exact ⟨hpre.le, hpost.le⟩

/-- Earlier blocks end before later ones start. -/
theorem pairwise (h : Tiles hdr lo hi l) : l.Pairwise fun a b ↦ a.stop hdr ≤ b.start := by
  induction l generalizing lo with
  | nil => exact List.Pairwise.nil
  | cons b l ih =>
      obtain ⟨rfl, hl⟩ := h
      exact List.pairwise_cons.mpr ⟨fun c hc ↦ (hl.bounds hc).1, ih hl⟩

/-- Two different blocks lie on either side of each other. -/
theorem separate (h : Tiles hdr lo hi l) (hb : b ∈ l) (hc : c ∈ l) (hbc : b ≠ c) :
    b.stop hdr ≤ c.start ∨ c.stop hdr ≤ b.start := by
  let apart : Block → Block → Prop := fun x y ↦ x.stop hdr ≤ y.start ∨ y.stop hdr ≤ x.start
  have hsymm : Std.Symm apart := ⟨fun _ _ hxy ↦ hxy.symm⟩
  have hpair : l.Pairwise apart := h.pairwise.imp Or.inl
  exact hpair.forall hb hc hbc

theorem eq_of_start_eq (h : Tiles hdr lo hi l) (hhdr : 0 < hdr) (hb : b ∈ l) (hc : c ∈ l)
    (hbc : b.start = c.start) : b = c := by
  by_contra hne
  have hsep := h.separate hb hc hne
  unfold Block.stop at hsep
  omega

theorem sum_eq (h : Tiles hdr lo hi l) :
    lo + (l.map Block.size).sum + hdr * l.length = hi := by
  induction l generalizing lo with
  | nil => simpa using h
  | cons b l ih =>
      obtain ⟨rfl, hl⟩ := h
      have hsum := ih hl
      simp only [Block.stop, List.map_cons, List.sum_cons, List.length_cons] at hsum ⊢
      linarith

end Tiles

/-- No two neighbouring blocks are both free. -/
def Packed (l : List Block) : Prop := l.IsChain fun a b ↦ a.used = true ∨ b.used = true

/-! ## Taking a block -/

/-- A block that serves a request of `n` bytes, with the rest split off when it is large enough. -/
def split (hdr grain n : ℕ) (b : Block) : List Block :=
  if hdr + grain ≤ b.size - n then
    [⟨b.start, n, true⟩, ⟨b.start + hdr + n, b.size - n - hdr, false⟩]
  else [⟨b.start, b.size, true⟩]

/-- Serve a request of `n` bytes from the first free block that can hold it. -/
def firstFit (hdr grain n : ℕ) : List Block → Option (ℕ × List Block)
  | [] => none
  | b :: l =>
      if b.used = false ∧ n ≤ b.size then some (b.payload hdr, split hdr grain n b ++ l)
      else (firstFit hdr grain n l).map fun r ↦ (r.1, b :: r.2)

theorem firstFit_eq_none_iff :
    firstFit hdr grain n l = none ↔ ∀ b ∈ l, b.used = false → b.size < n := by
  induction l with
  | nil => simp [firstFit]
  | cons b l ih =>
      rw [firstFit, List.forall_mem_cons, ← ih]
      by_cases hfit : b.used = false ∧ n ≤ b.size
      · simp [hfit]
      · simp only [if_neg hfit, Option.map_eq_none_iff]
        constructor
        · exact fun hl ↦ ⟨fun hb ↦ Nat.lt_of_not_le fun hn ↦ hfit ⟨hb, hn⟩, hl⟩
        · exact And.right

/-- A request is served by a free block that is large enough, and every block in front of it
is not. -/
theorem firstFit_eq_some {r : ℕ × List Block} (h : firstFit hdr grain n l = some r) :
    ∃ pre b post, l = pre ++ b :: post ∧ b.used = false ∧ n ≤ b.size ∧
      (∀ a ∈ pre, a.used = false → a.size < n) ∧
      r = (b.payload hdr, pre ++ (split hdr grain n b ++ post)) := by
  induction l generalizing r with
  | nil => simp [firstFit] at h
  | cons b l ih =>
      rw [firstFit] at h
      by_cases hfit : b.used = false ∧ n ≤ b.size
      · rw [if_pos hfit] at h
        exact ⟨[], b, l, rfl, hfit.1, hfit.2, by simp, (Option.some.inj h).symm⟩
      · rw [if_neg hfit, Option.map_eq_some_iff] at h
        obtain ⟨r', hr', rfl⟩ := h
        obtain ⟨pre, c, post, rfl, hc, hn, hpre, rfl⟩ := ih hr'
        refine ⟨b :: pre, c, post, rfl, hc, hn, ?_, rfl⟩
        intro a ha hfree
        rcases List.mem_cons.mp ha with rfl | ha
        · exact Nat.lt_of_not_le fun hle ↦ hfit ⟨hfree, hle⟩
        · exact hpre a ha hfree

theorem tiles_split (hn : n ≤ b.size) :
    Tiles hdr b.start (b.stop hdr) (split hdr grain n b) := by
  unfold split
  split
  · simp only [tiles_cons, tiles_nil, Block.stop, true_and]
    omega
  · simp [Block.stop]

theorem Tiles.split (h : Tiles hdr lo hi (pre ++ b :: post)) (hn : n ≤ b.size) :
    Tiles hdr lo hi (pre ++ (Tiling.split hdr grain n b ++ post)) := by
  obtain ⟨mid, hpre, rfl, hpost⟩ := tiles_append.mp h
  exact tiles_append.mpr ⟨b.start, hpre, tiles_append.mpr ⟨b.stop hdr, tiles_split hn, hpost⟩⟩

theorem Packed.split (h : Packed (pre ++ b :: post)) (hb : b.used = false) :
    Packed (pre ++ (Tiling.split hdr grain n b ++ post)) := by
  obtain ⟨hpre, hbpost, hlink⟩ := List.isChain_append.mp h
  obtain ⟨hhead, hpost⟩ := List.isChain_cons.mp hbpost
  -- the neighbours of a free block are used
  have hused : ∀ c ∈ post.head?, c.used = true := by
    intro c hc
    simpa [hb] using hhead c hc
  have hblock : Packed (Tiling.split hdr grain n b ++ post) := by
    unfold Tiling.split
    split
    · refine List.isChain_cons.mpr ⟨by simp, List.isChain_cons.mpr ⟨?_, hpost⟩⟩
      exact fun c hc ↦ Or.inr (hused c hc)
    · exact List.isChain_cons.mpr ⟨by simp, hpost⟩
  refine List.isChain_append.mpr ⟨hpre, hblock, ?_⟩
  intro a ha c hc
  have hused' : c.used = true := by
    unfold Tiling.split at hc
    split at hc <;> simp at hc <;> simp [← hc]
  exact Or.inr hused'

/-! ## Giving a block back -/

/-- Put a block in front of a list and merge the two blocks that meet when both are free. -/
def join (hdr : ℕ) (b : Block) : List Block → List Block
  | [] => [b]
  | c :: l =>
      if b.used = false ∧ c.used = false then ⟨b.start, b.size + (hdr + c.size), false⟩ :: l
      else b :: c :: l

/-- Free the block whose payload is at `p` and merge it with its free neighbours. -/
def release (hdr p : ℕ) : List Block → List Block
  | [] => []
  | b :: l =>
      if b.payload hdr = p then join hdr ⟨b.start, b.size, false⟩ l
      else join hdr b (release hdr p l)

theorem Tiles.join (hl : Tiles hdr (b.stop hdr) hi l) :
    Tiles hdr b.start hi (Tiling.join hdr b l) := by
  cases l with
  | nil => exact ⟨rfl, hl⟩
  | cons c l =>
      obtain ⟨hc, hl⟩ := hl
      rw [Tiling.join]
      split
      · refine ⟨rfl, ?_⟩
        simpa only [Block.stop, hc, Nat.add_assoc] using hl
      · exact ⟨rfl, hc, hl⟩

theorem Tiles.release (h : Tiles hdr lo hi l) : Tiles hdr lo hi (release hdr p l) := by
  induction l generalizing lo with
  | nil => exact h
  | cons b l ih =>
      obtain ⟨rfl, hl⟩ := h
      rw [Tiling.release]
      split
      · exact Tiles.join (b := ⟨b.start, b.size, false⟩) hl
      · exact (ih hl).join

theorem Packed.join (hl : Packed l) : Packed (Tiling.join hdr b l) := by
  cases l with
  | nil => exact List.IsChain.singleton b
  | cons c l =>
      obtain ⟨hhead, htail⟩ := List.isChain_cons.mp hl
      rw [Tiling.join]
      split
      · rename_i hfree
        refine List.isChain_cons.mpr ⟨?_, htail⟩
        intro d hd
        simpa [hfree.2] using hhead d hd
      · rename_i hnot
        refine List.isChain_cons.mpr ⟨?_, hl⟩
        intro d hd
        simp only [List.head?_cons, Option.mem_def, Option.some.injEq] at hd
        subst hd
        by_contra hneither
        simp at hneither
        exact hnot hneither

theorem Packed.release (h : Packed l) : Packed (release hdr p l) := by
  induction l with
  | nil => exact h
  | cons b l ih =>
      have hl : Packed l := (List.isChain_cons.mp h).2
      rw [Tiling.release]
      split
      · exact hl.join
      · exact (ih hl).join

/-- Joining keeps the start and the state of the block in front. -/
theorem join_eq_cons (hdr : ℕ) (b : Block) (l : List Block) :
    ∃ c l', join hdr b l = c :: l' ∧ c.start = b.start ∧ c.used = b.used := by
  cases l with
  | nil => exact ⟨b, [], rfl, rfl, rfl⟩
  | cons d l =>
      rw [join]
      split
      · rename_i hfree
        exact ⟨_, l, rfl, rfl, hfree.1.symm⟩
      · exact ⟨b, d :: l, rfl, rfl, rfl⟩

theorem foldr_join_of_packed (h : Packed (pre ++ [b]))
    (hl : ∃ c l', l = c :: l' ∧ c.used = b.used) : pre.foldr (join hdr) l = pre ++ l := by
  induction pre with
  | nil => rfl
  | cons a pre ih =>
      obtain ⟨hhead, htail⟩ := List.isChain_cons.mp h
      rw [List.foldr_cons, ih htail]
      obtain ⟨c, l', rfl, hc⟩ := hl
      -- the block behind `a` has the state of its old neighbour
      obtain ⟨d, l₂, hd, hdused⟩ :
          ∃ d l₂, pre ++ c :: l' = d :: l₂ ∧ (a.used = true ∨ d.used = true) := by
        cases pre with
        | nil => exact ⟨c, l', rfl, by simpa [hc] using hhead⟩
        | cons d pre => exact ⟨d, pre ++ c :: l', rfl, by simpa using hhead⟩
      rw [List.cons_append, hd, join, if_neg]
      rintro ⟨ha, hd'⟩
      simp [ha, hd'] at hdused

/-- Releasing a block changes it, the free block behind it and the free block in front of it. -/
theorem release_middle {q : Block} (hdist : ∀ a ∈ pre ++ [q], a.payload hdr ≠ b.payload hdr)
    (hpacked : Packed (pre ++ [q])) :
    release hdr (b.payload hdr) (pre ++ q :: b :: post) =
      pre ++ join hdr q (join hdr ⟨b.start, b.size, false⟩ post) := by
  have hfold : ∀ pre : List Block, (∀ a ∈ pre, a.payload hdr ≠ b.payload hdr) →
      release hdr (b.payload hdr) (pre ++ b :: post) =
        pre.foldr (join hdr) (join hdr ⟨b.start, b.size, false⟩ post) := by
    intro pre hpre
    induction pre with
    | nil => simp [release]
    | cons a pre ih =>
        rw [List.cons_append, release, if_neg (hpre a List.mem_cons_self), List.foldr_cons,
          ih fun c hc ↦ hpre c (List.mem_cons_of_mem a hc)]
  have hall := hfold (pre ++ [q]) hdist
  rw [List.append_assoc, List.singleton_append] at hall
  rw [hall, List.foldr_append, List.foldr_cons, List.foldr_nil]
  obtain ⟨c, l', hc, -, hcused⟩ := join_eq_cons hdr q (join hdr ⟨b.start, b.size, false⟩ post)
  exact foldr_join_of_packed hpacked ⟨c, l', hc, hcused⟩

/-! ## Alignment -/

/-- Starts and sizes of all blocks are multiples of `k`. -/
def Aligned (k : ℕ) (l : List Block) : Prop := ∀ b ∈ l, k ∣ b.start ∧ k ∣ b.size

section Aligned

variable {k : ℕ} (hhdr : k ∣ hdr)

include hhdr

theorem Aligned.split (h : Aligned k (pre ++ b :: post)) (hk : k ∣ n) :
    Aligned k (pre ++ (split hdr grain n b ++ post)) := by
  obtain ⟨hpre, ⟨hstart, hsize⟩, hpost⟩ : Aligned k pre ∧ (k ∣ b.start ∧ k ∣ b.size) ∧
      Aligned k post := by
    simpa only [Aligned, List.forall_mem_append, List.forall_mem_cons] using h
  have hsplit : Aligned k (Tiling.split hdr grain n b) := by
    unfold Tiling.split
    split_ifs
    · simp only [Aligned, List.forall_mem_cons, List.not_mem_nil, false_imp_iff, implies_true,
        and_true]
      exact ⟨⟨hstart, hk⟩, (hstart.add hhdr).add hk, Nat.dvd_sub (Nat.dvd_sub hsize hk) hhdr⟩
    · simpa only [Aligned, List.forall_mem_singleton] using ⟨hstart, hsize⟩
  simpa only [Aligned, List.forall_mem_append] using ⟨hpre, hsplit, hpost⟩

theorem Aligned.join (hb : k ∣ b.start ∧ k ∣ b.size) (h : Aligned k l) :
    Aligned k (join hdr b l) := by
  cases l with
  | nil => simpa only [Tiling.join, Aligned, List.forall_mem_singleton] using hb
  | cons c l =>
      obtain ⟨hc, hl⟩ := List.forall_mem_cons.mp h
      rw [Tiling.join]
      split_ifs
      · exact List.forall_mem_cons.mpr ⟨⟨hb.1, hb.2.add (hhdr.add hc.2)⟩, hl⟩
      · exact List.forall_mem_cons.mpr ⟨hb, h⟩

theorem Aligned.release {p : ℕ} (h : Aligned k l) : Aligned k (release hdr p l) := by
  induction l with
  | nil => exact h
  | cons b l ih =>
      obtain ⟨hb, hl⟩ := List.forall_mem_cons.mp h
      rw [Tiling.release]
      split_ifs
      · exact Aligned.join (b := ⟨b.start, b.size, false⟩) hhdr hb hl
      · exact Aligned.join hhdr hb (ih hl)

end Aligned

/-! ## The payloads in use -/

/-- The payload addresses of the used blocks. -/
def held (hdr : ℕ) (l : List Block) : List ℕ := (l.filter Block.used).map (Block.payload hdr)

theorem held_cons : held hdr (b :: l) =
    if b.used = true then b.payload hdr :: held hdr l else held hdr l := by
  cases hb : b.used <;> simp [held, hb]

theorem held_append : held hdr (l₁ ++ l₂) = held hdr l₁ ++ held hdr l₂ := by
  simp [held]

theorem mem_held : p ∈ held hdr l ↔ ∃ b ∈ l, b.used = true ∧ b.payload hdr = p := by
  simp [held, and_assoc]

theorem Tiles.held_nodup (h : Tiles hdr lo hi l) (hhdr : 0 < hdr) : (held hdr l).Nodup := by
  have hpair : l.Pairwise fun a b ↦ a.payload hdr ≠ b.payload hdr := by
    refine h.pairwise.imp fun {a b} hab ↦ ?_
    unfold Block.stop at hab
    unfold Block.payload
    omega
  exact List.pairwise_map.mpr (hpair.sublist List.filter_sublist)

theorem held_split : held hdr (split hdr grain n b) = [b.payload hdr] := by
  unfold split
  split <;> simp [held, Block.payload]

/-- A request adds its payload to those in use. -/
theorem held_firstFit {r : ℕ × List Block} (hr : firstFit hdr grain n l = some r) :
    (held hdr r.2).Perm (r.1 :: held hdr l) := by
  obtain ⟨pre, b, post, rfl, hb, _, _, rfl⟩ := firstFit_eq_some hr
  simp only [held_append, held_split, held_cons, hb, Bool.false_eq_true, if_false]
  exact List.perm_middle

theorem held_join : held hdr (join hdr b l) = held hdr (b :: l) := by
  cases l with
  | nil => rfl
  | cons c l =>
      rw [join]
      split
      · rename_i hfree
        simp [held_cons, hfree]
      · rfl

/-- A release takes its payload out of those in use. -/
theorem Tiles.held_release (h : Tiles hdr lo hi l) (hhdr : 0 < hdr) (hp : p ∈ held hdr l) :
    held hdr (Tiling.release hdr p l) = (held hdr l).erase p := by
  induction l generalizing lo with
  | nil => rfl
  | cons b l ih =>
      obtain ⟨rfl, hl⟩ := h
      rw [Tiling.release]
      by_cases hb : b.payload hdr = p
      · rw [if_pos hb, held_join, held_cons, if_neg Bool.false_ne_true]
        cases hused : b.used with
        | true => simp [held_cons, hused, hb]
        | false =>
            -- no other block has the payload of `b`
            rw [held_cons, hused, if_neg Bool.false_ne_true] at hp
            obtain ⟨c, hc, -, hcp⟩ := mem_held.mp hp
            have hstart := (hl.bounds hc).1
            unfold Block.stop at hstart
            unfold Block.payload at hb hcp
            omega
      · rw [if_neg hb, held_join]
        cases hused : b.used with
        | true =>
            rw [held_cons, hused, if_pos rfl] at hp
            have hp' := (List.mem_cons.mp hp).resolve_left (Ne.symm hb)
            rw [held_cons, held_cons, if_pos hused, if_pos hused, ih hl hp',
              List.erase_cons_tail (by simpa using hb)]
        | false =>
            rw [held_cons, hused, if_neg Bool.false_ne_true] at hp
            rw [held_cons, held_cons, hused, if_neg Bool.false_ne_true,
              if_neg Bool.false_ne_true, ih hl hp]

/-! ## The blocks in use determine the list -/

/-- The used blocks, in memory order. -/
def inUse (l : List Block) : List Block := l.filter Block.used

theorem inUse_cons_of_used (hb : b.used = true) : inUse (b :: l) = b :: inUse l :=
  List.filter_cons_of_pos hb

theorem inUse_cons_of_free (hb : b.used = false) : inUse (b :: l) = inUse l :=
  List.filter_cons_of_neg (by simp [hb])

theorem inUse_append : inUse (l₁ ++ l₂) = inUse l₁ ++ inUse l₂ := List.filter_append l₁ l₂

/-- Behind a free block the list ends or goes on with a used block. -/
theorem Packed.behind_free (h : Packed (b :: l)) (hb : b.used = false) :
    l = [] ∨ ∃ c l', l = c :: l' ∧ inUse l = c :: inUse l' := by
  cases l with
  | nil => exact Or.inl rfl
  | cons c l' =>
      obtain ⟨hhead, -⟩ := List.isChain_cons.mp h
      have hc : c.used = true := by simpa [hb] using hhead c rfl
      exact Or.inr ⟨c, l', rfl, inUse_cons_of_used hc⟩

/-- In two packed tilings of one interval with the same used blocks, a free block at the front
ends at the same place. -/
theorem stop_eq_of_inUse_eq {l' : List Block} {b' : Block} (hp : Packed (b :: l))
    (hp' : Packed (b' :: l')) (ht : Tiles hdr (b.stop hdr) hi l)
    (ht' : Tiles hdr (b'.stop hdr) hi l') (hb : b.used = false) (hb' : b'.used = false)
    (hused : inUse l = inUse l') : b.stop hdr = b'.stop hdr := by
  rcases hp.behind_free hb with rfl | ⟨c, t, rfl, hc⟩ <;>
    rcases hp'.behind_free hb' with rfl | ⟨c', t', rfl, hc'⟩
  · exact ht.trans ht'.symm
  · rw [hc'] at hused
    cases hused
  · rw [hc] at hused
    cases hused
  · rw [hc, hc', List.cons.injEq] at hused
    rw [← ht.1, ← ht'.1, hused.1]

/-- No used block starts where a free block stands. -/
theorem inUse_ne_of_free {l' : List Block} {b' : Block} (hhdr : 0 < hdr) (hp' : Packed (b' :: l'))
    (ht' : Tiles hdr (b'.stop hdr) hi l') (hb' : b'.used = false) (hstart : b.start = b'.start) :
    b :: l ≠ inUse l' := by
  intro hused
  rcases hp'.behind_free hb' with rfl | ⟨c, t, rfl, hc⟩
  · cases hused
  · rw [hc, List.cons.injEq] at hused
    obtain ⟨rfl, -⟩ := hused
    have hc := ht'.1
    unfold Block.stop at hc
    omega

/-- A packed tiling is determined by its used blocks. -/
theorem Tiles.eq_of_inUse_eq {l' : List Block} (hhdr : 0 < hdr) (ht : Tiles hdr lo hi l)
    (hp : Packed l) (ht' : Tiles hdr lo hi l') (hp' : Packed l') (hused : inUse l = inUse l') :
    l = l' := by
  induction l generalizing lo l' with
  | nil =>
      cases l' with
      | nil => rfl
      | cons b' l' =>
          obtain ⟨rfl, hl'⟩ := ht'
          have hstop := hl'.le
          rw [← show b'.start = hi from ht] at hstop
          unfold Block.stop at hstop
          omega
  | cons b l ih =>
      obtain ⟨rfl, hl⟩ := ht
      cases l' with
      | nil =>
          have hstop := hl.le
          rw [← show b.start = hi from ht'] at hstop
          unfold Block.stop at hstop
          omega
      | cons b' l' =>
          obtain ⟨hstart, hl'⟩ := ht'
          have hpl : Packed l := (List.isChain_cons.mp hp).2
          have hpl' : Packed l' := (List.isChain_cons.mp hp').2
          cases hb : b.used with
          | true =>
              rw [inUse_cons_of_used hb] at hused
              cases hb' : b'.used with
              | true =>
                  rw [inUse_cons_of_used hb', List.cons.injEq] at hused
                  obtain ⟨rfl, hused⟩ := hused
                  rw [ih hl hpl hl' hpl' hused]
              | false =>
                  rw [inUse_cons_of_free hb'] at hused
                  exact absurd hused (inUse_ne_of_free hhdr hp' hl' hb' hstart.symm)
          | false =>
              rw [inUse_cons_of_free hb] at hused
              cases hb' : b'.used with
              | true =>
                  rw [inUse_cons_of_used hb'] at hused
                  exact absurd hused.symm (inUse_ne_of_free hhdr hp hl hb hstart)
              | false =>
                  rw [inUse_cons_of_free hb'] at hused
                  have hstop := stop_eq_of_inUse_eq hp hp' hl hl' hb hb' hused
                  have hsize : b.size = b'.size := by
                    unfold Block.stop at hstop
                    omega
                  have hblock : b = b' := by
                    cases b
                    cases b'
                    simp only at hstart hsize hb hb'
                    rw [hstart, hsize, hb, hb']
                  subst hblock
                  rw [ih hl hpl hl' hpl' hused]

/-- The order in which the used blocks are listed does not matter. -/
theorem Tiles.eq_of_inUse_perm {l' : List Block} (hhdr : 0 < hdr) (ht : Tiles hdr lo hi l)
    (hp : Packed l) (ht' : Tiles hdr lo hi l') (hp' : Packed l')
    (hused : (inUse l).Perm (inUse l')) : l = l' := by
  refine ht.eq_of_inUse_eq hhdr hp ht' hp' ?_
  refine hused.eq_of_pairwise ?_ (ht.pairwise.filter _) (ht'.pairwise.filter _)
  intro a b _ _ hab hba
  unfold Block.stop at hab hba
  omega

/-- A request adds one block to those in use. -/
theorem inUse_firstFit {r : ℕ × List Block} (hr : firstFit hdr grain n l = some r) :
    ∃ b, b.payload hdr = r.1 ∧ (inUse r.2).Perm (b :: inUse l) := by
  obtain ⟨pre, b, post, rfl, hb, -, -, rfl⟩ := firstFit_eq_some hr
  obtain ⟨c, hc, hsplit⟩ : ∃ c : Block, c.start = b.start ∧ inUse (split hdr grain n b) = [c] := by
    unfold split
    split
    · exact ⟨⟨b.start, n, true⟩, rfl, rfl⟩
    · exact ⟨⟨b.start, b.size, true⟩, rfl, rfl⟩
  refine ⟨c, by rw [Block.payload, Block.payload, hc], ?_⟩
  simp only [inUse_append, hsplit, inUse_cons_of_free hb]
  exact List.perm_middle

theorem inUse_join : inUse (join hdr b l) = inUse (b :: l) := by
  cases l with
  | nil => rfl
  | cons c l =>
      rw [join]
      split
      · rename_i hfree
        rw [inUse_cons_of_free rfl, inUse_cons_of_free hfree.1, inUse_cons_of_free hfree.2]
      · rfl

/-- A release takes one block out of those in use. -/
theorem Tiles.inUse_release (h : Tiles hdr lo hi l) (hhdr : 0 < hdr) (hb : b ∈ inUse l) :
    (inUse l).Perm (b :: inUse (Tiling.release hdr (b.payload hdr) l)) := by
  induction l generalizing lo with
  | nil => cases hb
  | cons c l ih =>
      obtain ⟨rfl, hl⟩ := h
      rw [Tiling.release]
      by_cases hc : c.payload hdr = b.payload hdr
      · have hstart : b.start = c.start := by
          unfold Block.payload at hc
          omega
        have hmem := List.mem_filter.mp hb
        obtain rfl : b = c := by
          rcases List.mem_cons.mp hmem.1 with rfl | hbl
          · rfl
          · have hlo := (hl.bounds hbl).1
            unfold Block.stop at hlo
            omega
        rw [if_pos rfl, inUse_join, inUse_cons_of_used hmem.2,
          inUse_cons_of_free (b := ⟨b.start, b.size, false⟩) rfl]
      · rw [if_neg hc, inUse_join]
        cases hused : c.used with
        | true =>
            rw [inUse_cons_of_used hused] at hb ⊢
            have hbl : b ∈ inUse l := by
              rcases List.mem_cons.mp hb with rfl | hbl
              · exact absurd rfl hc
              · exact hbl
            rw [inUse_cons_of_used hused]
            exact ((ih hl hbl).cons c).trans (List.Perm.swap b c _)
        | false =>
            rw [inUse_cons_of_free hused] at hb ⊢
            rw [inUse_cons_of_free hused]
            exact ih hl hb

/-! ## Where a free block ends -/

theorem Tiles.exists_cover {a : ℕ} (h : Tiles hdr lo hi l) (hlo : lo ≤ a) (hhi : a < hi) :
    ∃ c ∈ l, c.start ≤ a ∧ a < c.stop hdr := by
  induction l generalizing lo with
  | nil =>
      rw [tiles_nil] at h
      omega
  | cons b l ih =>
      obtain ⟨rfl, hl⟩ := h
      by_cases ha : a < b.stop hdr
      · exact ⟨b, List.mem_cons_self, hlo, ha⟩
      · obtain ⟨c, hc, hcover⟩ := ih hl (Nat.le_of_not_lt ha)
        exact ⟨c, List.mem_cons_of_mem b hc, hcover⟩

/-- A block behind another one starts at its end, or behind a further header. -/
theorem Tiles.next_start (h : Tiles hdr lo hi l) (hb : b ∈ l) (hc : c ∈ l)
    (hbc : b.stop hdr ≤ c.start) : c.start = b.stop hdr ∨ b.stop hdr + hdr ≤ c.start := by
  by_cases heq : c.start = b.stop hdr
  · exact Or.inl heq
  · right
    have hclo := (h.bounds hc).2
    have hblo := (h.bounds hb).1
    obtain ⟨d, hd, hdlo, hdhi⟩ := h.exists_cover (a := b.stop hdr)
      (by unfold Block.stop at *; omega) (by unfold Block.stop at *; omega)
    have hdb : d ≠ b := by
      rintro rfl
      omega
    have hdc : d ≠ c := by
      rintro rfl
      omega
    have hsepb := h.separate hd hb hdb
    have hsepc := h.separate hd hc hdc
    unfold Block.stop at *
    omega

/-- A free block is followed by a used one, unless it is the last. -/
theorem Tiles.free_stop (h : Tiles hdr lo hi l) (hp : Packed l) (hc : c ∈ l)
    (hfree : c.used = false) : c.stop hdr = hi ∨ ∃ d ∈ inUse l, d.start = c.stop hdr := by
  obtain ⟨pre, post, rfl⟩ := List.append_of_mem hc
  obtain ⟨mid, -, -, hpost⟩ := tiles_append.mp h
  cases post with
  | nil => exact Or.inl hpost
  | cons d post =>
      have hhead := (List.isChain_cons.mp hp.right_of_append).1 d rfl
      have hd : d.used = true := by simpa [hfree] using hhead
      exact Or.inr ⟨d, List.mem_filter.mpr ⟨by simp, hd⟩, hpost.1⟩

/-- A free block is preceded by a used one, unless it is the first. -/
theorem Tiles.free_start (h : Tiles hdr lo hi l) (hp : Packed l) (hc : c ∈ l)
    (hfree : c.used = false) : c.start = lo ∨ ∃ d ∈ inUse l, d.stop hdr = c.start := by
  induction l generalizing lo with
  | nil => cases hc
  | cons b l ih =>
      obtain ⟨rfl, hl⟩ := h
      obtain ⟨hhead, hpl⟩ := List.isChain_cons.mp hp
      rcases List.mem_cons.mp hc with rfl | hc
      · exact Or.inl rfl
      · rcases ih hl hpl hc with hstart | ⟨d, hd, hstop⟩
        · right
          obtain ⟨e, l', rfl⟩ := List.exists_cons_of_ne_nil (List.ne_nil_of_mem hc)
          have he : e.start = c.start := hl.1.trans hstart.symm
          cases hb : b.used with
          | true => exact ⟨b, List.mem_filter.mpr ⟨List.mem_cons_self, hb⟩, hstart.symm⟩
          | false =>
              -- then `e` is used, and `c` is not behind it
              have heused : e.used = true := by simpa [hb] using hhead e rfl
              rcases List.mem_cons.mp hc with rfl | hc'
              · simp [hfree] at heused
              · have hlo := (hl.2.bounds hc').1
                unfold Block.stop at hlo
                exact ⟨e, List.mem_filter.mpr ⟨by simp, heused⟩, by unfold Block.stop; omega⟩
        · refine Or.inr ⟨d, ?_, hstop⟩
          obtain ⟨hdl, hdused⟩ := List.mem_filter.mp hd
          exact List.mem_filter.mpr ⟨List.mem_cons_of_mem b hdl, hdused⟩

theorem Block.start_add_le_stop (d : Block) : d.start + hdr ≤ d.stop hdr := by
  unfold Block.stop
  omega

/-- Used blocks keep away from a free one. -/
theorem Tiles.inUse_away {d : Block} (h : Tiles hdr lo hi l) (hc : c ∈ l)
    (hfree : c.used = false) (hd : d ∈ inUse l) :
    d.stop hdr ≤ c.start ∨ c.stop hdr ≤ d.start := by
  obtain ⟨hdl, hdused⟩ := List.mem_filter.mp hd
  exact h.separate hdl hc fun heq ↦ by simp [heq, hfree] at hdused

/-- Used blocks that overlap are the same. -/
theorem Tiles.inUse_eq {d e : Block} (h : Tiles hdr lo hi l) (hd : d ∈ inUse l)
    (he : e ∈ inUse l) (hde : d.start < e.stop hdr) (hed : e.start < d.stop hdr) : d = e := by
  by_contra hne
  have hsep := h.separate (List.mem_filter.mp hd).1 (List.mem_filter.mp he).1 hne
  omega

section Released

variable {l' : List Block} (hhdr : 0 < hdr) (ht : Tiles hdr lo hi l) (hp : Packed l)
  (ht' : Tiles hdr lo hi l') (hp' : Packed l') (hsub : ∀ d ∈ inUse l', d ∈ inUse l) (hb : b ∈ l)
  (hfree : b.used = false)

include hhdr ht ht' hp' hsub hb hfree

/-- After blocks have been released, a free block covers what a free block was before. -/
theorem Tiles.free_covered :
    ∃ c ∈ l', c.used = false ∧ c.start ≤ b.start ∧ b.stop hdr ≤ c.stop hdr := by
  have hbounds := ht.bounds hb
  have hblen : b.start + hdr ≤ b.stop hdr := b.start_add_le_stop
  obtain ⟨c, hc, hlo, hhi⟩ := ht'.exists_cover hbounds.1 (by omega : b.start < hi)
  have hcfree : c.used = false := by
    by_contra hused
    have hcl := ht.inUse_away hb hfree
      (hsub c (List.mem_filter.mpr ⟨hc, by simpa using hused⟩))
    omega
  refine ⟨c, hc, hcfree, hlo, ?_⟩
  rcases ht'.free_stop hp' hc hcfree with hend | ⟨d, hd, hdstart⟩
  · omega
  · have hd' := ht.inUse_away hb hfree (hsub d hd)
    have hdlen : d.start + hdr ≤ d.stop hdr := d.start_add_le_stop
    omega

variable (hc : c ∈ l') (hcfree : c.used = false) (hlo : c.start ≤ b.start)
  (hhi : b.stop hdr ≤ c.stop hdr)

include hp hc hcfree hlo hhi

/-- It grows to the left exactly when the neighbour there has been released. -/
theorem Tiles.free_start_grows :
    (c.start = b.start ∨ c.start + hdr ≤ b.start) ∧
      (c.start = b.start ↔ ∀ d ∈ inUse l, d.stop hdr = b.start → d ∈ inUse l') := by
  have hblen : b.start + hdr ≤ b.stop hdr := b.start_add_le_stop
  have hclo := (ht'.bounds hc).1
  have hstart := ht'.free_start hp' hc hcfree
  refine ⟨?_, fun heq d hd hdstop ↦ ?_, fun hkept ↦ ?_⟩
  · rcases ht.free_start hp hb hfree with hfirst | ⟨d, hd, hdstop⟩
    · omega
    · have hdlen : d.start + hdr ≤ d.stop hdr := d.start_add_le_stop
      have hdlo := (ht.bounds (List.mem_filter.mp hd).1).1
      rcases hstart with hfirst | ⟨e, he, hestop⟩
      · omega
      · have helen : e.start + hdr ≤ e.stop hdr := e.start_add_le_stop
        by_cases hde : d.start < e.stop hdr
        · obtain rfl := ht.inUse_eq hd (hsub e he) hde (by omega)
          omega
        · omega
  · have hdlen : d.start + hdr ≤ d.stop hdr := d.start_add_le_stop
    have hdlo := (ht.bounds (List.mem_filter.mp hd).1).1
    rcases hstart with hfirst | ⟨e, he, hestop⟩
    · omega
    · have helen : e.start + hdr ≤ e.stop hdr := e.start_add_le_stop
      exact (ht.inUse_eq hd (hsub e he) (by omega) (by omega)) ▸ he
  · rcases ht.free_start hp hb hfree with hfirst | ⟨d, hd, hdstop⟩
    · omega
    · have hside := ht'.inUse_away hc hcfree (hkept d hd hdstop)
      have hdlen : d.start + hdr ≤ d.stop hdr := d.start_add_le_stop
      omega

/-- The same to the right. -/
theorem Tiles.free_stop_grows :
    (c.stop hdr = b.stop hdr ∨ b.stop hdr + hdr ≤ c.stop hdr) ∧
      (c.stop hdr = b.stop hdr ↔ ∀ d ∈ inUse l, d.start = b.stop hdr → d ∈ inUse l') := by
  have hblen : b.start + hdr ≤ b.stop hdr := b.start_add_le_stop
  have hchi := (ht'.bounds hc).2
  have hstop := ht'.free_stop hp' hc hcfree
  refine ⟨?_, fun heq d hd hdstart ↦ ?_, fun hkept ↦ ?_⟩
  · rcases ht.free_stop hp hb hfree with hlast | ⟨d, hd, hdstart⟩
    · omega
    · have hdlen : d.start + hdr ≤ d.stop hdr := d.start_add_le_stop
      have hdhi := (ht.bounds (List.mem_filter.mp hd).1).2
      rcases hstop with hend | ⟨e, he, hestart⟩
      · omega
      · have helen : e.start + hdr ≤ e.stop hdr := e.start_add_le_stop
        by_cases hed : e.start < d.stop hdr
        · obtain rfl := ht.inUse_eq hd (hsub e he) (by omega) hed
          omega
        · omega
  · have hdlen : d.start + hdr ≤ d.stop hdr := d.start_add_le_stop
    have hdhi := (ht.bounds (List.mem_filter.mp hd).1).2
    rcases hstop with hlast | ⟨e, he, hestart⟩
    · omega
    · have helen : e.start + hdr ≤ e.stop hdr := e.start_add_le_stop
      exact (ht.inUse_eq hd (hsub e he) (by omega) (by omega)) ▸ he
  · rcases ht.free_stop hp hb hfree with hlast | ⟨d, hd, hdstart⟩
    · omega
    · have hside := ht'.inUse_away hc hcfree (hkept d hd hdstart)
      have hdlen : d.start + hdr ≤ d.stop hdr := d.start_add_le_stop
      omega

end Released

/-- When blocks are released, a free block stays or becomes part of a larger one.  It grows to a
side exactly when its neighbour there is released, and then by a header at least. -/
theorem Tiles.free_grows {l' : List Block} (hhdr : 0 < hdr) (ht : Tiles hdr lo hi l)
    (hp : Packed l) (ht' : Tiles hdr lo hi l') (hp' : Packed l')
    (hsub : ∀ d ∈ inUse l', d ∈ inUse l) (hb : b ∈ l) (hfree : b.used = false) :
    ∃ c ∈ l', c.used = false ∧ (c.start = b.start ∨ c.start + hdr ≤ b.start) ∧
      (c.stop hdr = b.stop hdr ∨ b.stop hdr + hdr ≤ c.stop hdr) ∧
      (c.start = b.start ↔ ∀ d ∈ inUse l, d.stop hdr = b.start → d ∈ inUse l') ∧
      (c.stop hdr = b.stop hdr ↔ ∀ d ∈ inUse l, d.start = b.stop hdr → d ∈ inUse l') := by
  obtain ⟨c, hc, hcfree, hlo, hhi⟩ := ht.free_covered hhdr ht' hp' hsub hb hfree
  obtain ⟨hstart, hstart_iff⟩ :=
    ht.free_start_grows hhdr hp ht' hp' hsub hb hfree hc hcfree hlo hhi
  obtain ⟨hstop, hstop_iff⟩ :=
    ht.free_stop_grows hhdr hp ht' hp' hsub hb hfree hc hcfree hlo hhi
  exact ⟨c, hc, hcfree, hstart, hstop, hstart_iff, hstop_iff⟩

end Tiling
