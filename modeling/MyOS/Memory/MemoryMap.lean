import MyOS.Memory.Frames

/-!
# The memory map

`pmm_init` turns the entries of the e820 table into page numbers: both ends of an entry are rounded
down, and addresses count modulo `2 ^ 44` because the page numbers are cut to 32 bits.  The pages
that become free depend on the set of usable entries alone.  They are the pages inside usable
entries unless an entry begins within a page or reaches beyond the addresses that can be told
apart.
-/

namespace MyOS

namespace E820Entry

/-- All bytes of page `p` are bytes of the entry. -/
def Covers (e : E820Entry) (p : ℕ) : Prop :=
  e.base.toNat ≤ p * pageSize ∧ (p + 1) * pageSize ≤ e.base.toNat + e.length.toNat

/-- The pages that `region_free` goes through. -/
def Marks (e : E820Entry) (p : ℕ) : Prop :=
  e.base.toNat % 2 ^ 44 / pageSize ≤ p ∧
    p < (e.base.toNat + e.length.toNat) % 2 ^ 44 / pageSize

instance (e : E820Entry) (p : ℕ) : Decidable (e.Covers p) := inferInstanceAs (Decidable (_ ∧ _))

instance (e : E820Entry) (p : ℕ) : Decidable (e.Marks p) := inferInstanceAs (Decidable (_ ∧ _))

/-- The entry reaches beyond the 16 TiB of addresses whose page numbers have 32 bits. -/
def Far (e : E820Entry) : Prop := 2 ^ 44 ≤ e.base.toNat + e.length.toNat

/-- The entry begins inside page `p`, behind its first byte, and holds the rest of it. -/
def BeginsWithin (e : E820Entry) (p : ℕ) : Prop :=
  ¬e.Far ∧ ¬pageSize ∣ e.base.toNat ∧ p = e.base.toNat / pageSize ∧
    (p + 1) * pageSize ≤ e.base.toNat + e.length.toNat

/-- A far entry takes in page `p` when its ends are reduced modulo 16 TiB. -/
def Aliases (e : E820Entry) (p : ℕ) : Prop :=
  e.Far ∧ e.base.toNat % 2 ^ 44 / pageSize ≤ p ∧
    p < (e.base.toNat + e.length.toNat) % 2 ^ 44 / pageSize

/-- A far entry that starts no later than page `p` stops before it when its end is reduced. -/
def CutOff (e : E820Entry) (p : ℕ) : Prop :=
  e.Far ∧ e.base.toNat ≤ p * pageSize ∧
    (e.base.toNat + e.length.toNat) % 2 ^ 44 / pageSize ≤ p

variable {e : E820Entry} {p : ℕ}

theorem marks_iff : e.Marks p ↔ ¬e.Far ∧ e.Covers p ∨ e.BeginsWithin p ∨ e.Aliases p := by
  rw [Marks, Covers, BeginsWithin, Aliases, Far, pageSize]
  omega

/-- An entry covers the pages it marks as it should and those that are cut off. -/
theorem covers_iff (hp : p < totalPages) :
    e.Covers p ↔ ¬e.Far ∧ e.Covers p ∨ e.Aliases p ∧ e.Covers p ∨ e.CutOff p := by
  rw [totalPages] at hp
  rw [Covers, Aliases, CutOff, Far, pageSize]
  omega

end E820Entry

namespace Pmm

variable {m m' : Pmm} {p q n : ℕ} {table table' : List E820Entry}

/-! ## Which pages are free -/

theorem pageIsFree_congr (h : m'.bitmap = m.bitmap) : m'.pageIsFree q ↔ m.pageIsFree q := by
  rw [pageIsFree, pageIsFree, h]

theorem pageIsFree_regionFreeLoop :
    (regionFreeLoop n p m).pageIsFree q ↔ m.pageIsFree q ∨ p ≤ q ∧ q < p + n := by
  induction n generalizing p m with
  | zero =>
      rw [regionFreeLoop]
      exact ⟨Or.inl, fun h ↦ h.resolve_right (by omega)⟩
  | succ n ih =>
      rw [regionFreeLoop, ih]
      by_cases hfree : m.pageIsFree p
      · rw [if_neg (not_not_intro hfree)]
        by_cases hq : q = p
        · subst hq
          exact iff_of_true (Or.inl hfree) (Or.inl hfree)
        · exact or_congr_right (by omega)
      · rw [if_pos hfree]
        have hset : ({ m.pageSetFree p with
            freeCount := Word.add m.freeCount 1
            totalCount := Word.add m.totalCount 1 } : Pmm).pageIsFree q ↔
            (m.pageSetFree p).pageIsFree q := pageIsFree_congr rfl
        rw [hset, pageIsFree_setFree, or_assoc]
        exact or_congr_right (by omega)

theorem pageIsFree_regionReserveLoop :
    (regionReserveLoop n p m).pageIsFree q ↔ m.pageIsFree q ∧ ¬(p ≤ q ∧ q < p + n) := by
  induction n generalizing p m with
  | zero =>
      rw [regionReserveLoop]
      exact ⟨fun h ↦ ⟨h, by omega⟩, And.left⟩
  | succ n ih =>
      rw [regionReserveLoop, ih]
      by_cases hfree : m.pageIsFree p
      · rw [if_pos hfree]
        have hset :
            ({ m.pageSetUsed p with freeCount := Word.sub m.freeCount 1 } : Pmm).pageIsFree q ↔
              (m.pageSetUsed p).pageIsFree q := pageIsFree_congr rfl
        rw [hset, pageIsFree_setUsed, and_assoc]
        exact and_congr_right fun _ ↦ by omega
      · rw [if_neg hfree]
        by_cases hq : q = p
        · subst hq
          exact iff_of_false (fun h ↦ hfree h.1) fun h ↦ hfree h.1
        · exact and_congr_right fun _ ↦ by omega

/-- `region_free` frees the pages of the entry that it can see. -/
theorem pageIsFree_regionFree (e : E820Entry) (hq : q < totalPages) :
    (m.regionFree e.base e.length).pageIsFree q ↔ m.pageIsFree q ∨ e.Marks q := by
  rw [regionFree, pageIsFree_regionFreeLoop]
  refine or_congr_right ?_
  rw [UInt64.toNat_add, E820Entry.Marks, pageSize]
  rw [totalPages] at hq ⊢
  split_ifs
  · omega
  · omega

theorem pageIsFree_freeUsable (table : List E820Entry) (hq : q < totalPages) :
    (table.foldl (fun m e ↦ if e.type = e820Usable then m.regionFree e.base e.length else m)
        m).pageIsFree q ↔
      m.pageIsFree q ∨ ∃ e ∈ table, e.type = e820Usable ∧ e.Marks q := by
  induction table generalizing m with
  | nil => simp
  | cons e table ih =>
      rw [List.foldl_cons, ih]
      by_cases husable : e.type = e820Usable
      · rw [if_pos husable, pageIsFree_regionFree e hq]
        simp [husable, or_assoc]
      · rw [if_neg husable]
        simp [husable]

/-- The pages that the usable entries of a table mark. -/
def markedPages (table : List E820Entry) : Finset ℕ :=
  (Finset.range totalPages).filter fun p ↦ ∃ e ∈ table, e.type = e820Usable ∧ e.Marks p

theorem mem_markedPages : p ∈ markedPages table ↔
    p < totalPages ∧ ∃ e ∈ table, e.type = e820Usable ∧ e.Marks p := by
  rw [markedPages, Finset.mem_filter, Finset.mem_range]

theorem pageIsFree_pmmInit (m : Pmm) (table : List E820Entry) (hq : q < totalPages) :
    (m.pmmInit table).pageIsFree q ↔
      256 ≤ q ∧ ∃ e ∈ table, e.type = e820Usable ∧ e.Marks q := by
  have hreserve : ∀ m' : Pmm, (m'.regionReserve 0 0x100000).pageIsFree q ↔
      m'.pageIsFree q ∧ ¬(0 ≤ q ∧ q < 0 + 256) := fun m' ↦ pageIsFree_regionReserveLoop
  rw [pmmInit, hreserve, pageIsFree_freeUsable table hq]
  constructor
  · rintro ⟨hreset | hmarked, hhigh⟩
    · exact absurd hreset (not_pageIsFree_reset hq)
    · exact ⟨by omega, hmarked⟩
  · rintro ⟨hhigh, hmarked⟩
    exact ⟨Or.inr hmarked, by omega⟩

/-- The pages below 1 MB are taken back from the marked ones. -/
theorem freePages_pmmInit (m : Pmm) (table : List E820Entry) :
    (m.pmmInit table).freePages = (markedPages table).filter (256 ≤ ·) := by
  ext p
  rw [mem_freePages, Finset.mem_filter, mem_markedPages]
  constructor
  · rintro ⟨hp, hfree⟩
    obtain ⟨hhigh, hmarked⟩ := (pageIsFree_pmmInit m table hp).mp hfree
    exact ⟨⟨hp, hmarked⟩, hhigh⟩
  · rintro ⟨⟨hp, hmarked⟩, hhigh⟩
    exact ⟨hp, (pageIsFree_pmmInit m table hp).mpr ⟨hhigh, hmarked⟩⟩

theorem totalCount_pmmInit (m : Pmm) (table : List E820Entry) :
    (m.pmmInit table).totalCount = (markedPages table).card := by
  obtain ⟨hcount, htotal⟩ := (tallied_reset m).freeUsable table
  have hres := reserved_regionReserveLoop (p := 0) (n := 256) hcount (by norm_num [totalPages])
  have hpages : (table.foldl (fun m e ↦ if e.type = e820Usable then m.regionFree e.base e.length
      else m) m.reset).freePages = markedPages table := by
    ext p
    rw [mem_freePages, mem_markedPages]
    refine and_congr_right fun hp ↦ ?_
    rw [pageIsFree_freeUsable table hp]
    exact or_iff_right (not_pageIsFree_reset hp)
  rw [hpages] at htotal
  exact hres.total.trans htotal

/-- The words of the bitmap are known when the free pages are. -/
theorem bitmap_eq (h : m.freePages = m'.freePages) {i : ℕ} (hi : i < bitmapWords) :
    m.bitmap i = m'.bitmap i := by
  apply BitVec.eq_of_getLsbD_eq
  intro k hk
  have hp : i * 32 + k < totalPages := by
    rw [bitmapWords] at hi
    rw [totalPages] at hi ⊢
    omega
  have hword : (i * 32 + k) / 32 = i := by omega
  have hbit : (i * 32 + k) % 32 = k := by omega
  have hsame : m.pageIsFree (i * 32 + k) ↔ m'.pageIsFree (i * 32 + k) := by
    have hmem := mem_freePages (m := m) (p := i * 32 + k)
    rw [h, mem_freePages] at hmem
    exact (and_congr_right_iff.mp hmem hp).symm
  rw [pageIsFree_iff, pageIsFree_iff, Bitmap.test, Bitmap.test, hword, hbit] at hsame
  exact Bool.eq_iff_iff.mpr (by simpa using not_congr hsame)

/-! ## The usable pages -/

/-- The free pages are the pages from 1 MB on that lie inside usable entries. -/
def FreesUsable (m : Pmm) (table : List E820Entry) : Prop :=
  ∀ p < totalPages, (m.pmmInit table).pageIsFree p ↔
    0x100000 ≤ p * pageSize ∧ ∃ e ∈ table, e.type = e820Usable ∧ e.Covers p

/-- What the marks of the entries have to do with the pages they cover. -/
theorem freesUsable_iff (m : Pmm) (table : List E820Entry) :
    FreesUsable m table ↔ ∀ p < totalPages, 256 ≤ p →
      ((∃ e ∈ table, e.type = e820Usable ∧ e.Marks p) ↔
        ∃ e ∈ table, e.type = e820Usable ∧ e.Covers p) := by
  refine forall₂_congr fun p hp ↦ ?_
  have hbytes : 0x100000 ≤ p * pageSize ↔ 256 ≤ p := by
    rw [pageSize]
    omega
  rw [pageIsFree_pmmInit m table hp, hbytes, and_congr_right_iff]

/-- The free pages are the pages from 1 MB on inside usable entries just when each page that an
entry begins within, or that a far entry aliases, is covered by a usable entry, and each page that
is cut off a far entry is marked through another one.  Without far entries that leaves the entries
whose base is not a multiple of the page size. -/
theorem free_iff_usable_iff (m : Pmm) (table : List E820Entry) :
    (FreesUsable m table ↔
      ∀ e ∈ table, e.type = e820Usable → ∀ p < totalPages, 256 ≤ p →
        (e.BeginsWithin p ∨ e.Aliases p →
          ∃ e' ∈ table, e'.type = e820Usable ∧ e'.Covers p) ∧
        (e.CutOff p → ∃ e' ∈ table, e'.type = e820Usable ∧
          (¬e'.Far ∧ e'.Covers p ∨ e'.BeginsWithin p ∨ e'.Aliases p))) ∧
    ((∀ e ∈ table, e.type = e820Usable → e.base.toNat + e.length.toNat < 2 ^ 44) →
      (FreesUsable m table ↔
        ∀ e ∈ table, e.type = e820Usable → ¬pageSize ∣ e.base.toNat →
          256 ≤ e.base.toNat / pageSize → e.base.toNat / pageSize < totalPages →
          (e.base.toNat / pageSize + 1) * pageSize ≤ e.base.toNat + e.length.toNat →
          ∃ e' ∈ table, e'.type = e820Usable ∧ e'.Covers (e.base.toNat / pageSize))) := by
  have hall : FreesUsable m table ↔
      ∀ e ∈ table, e.type = e820Usable → ∀ p < totalPages, 256 ≤ p →
        (e.BeginsWithin p ∨ e.Aliases p →
          ∃ e' ∈ table, e'.type = e820Usable ∧ e'.Covers p) ∧
        (e.CutOff p → ∃ e' ∈ table, e'.type = e820Usable ∧
          (¬e'.Far ∧ e'.Covers p ∨ e'.BeginsWithin p ∨ e'.Aliases p)) := by
    rw [freesUsable_iff]
    constructor
    · intro hexact e he husable p hp hhigh
      obtain ⟨hcovered, hmarked⟩ := hexact p hp hhigh
      refine ⟨fun hmark ↦ hcovered ⟨e, he, husable, E820Entry.marks_iff.mpr (Or.inr hmark)⟩,
        fun hcut ↦ ?_⟩
      have hcovers : e.Covers p := (E820Entry.covers_iff hp).mpr (Or.inr (Or.inr hcut))
      obtain ⟨e', he', husable', hmarks⟩ := hmarked ⟨e, he, husable, hcovers⟩
      exact ⟨e', he', husable', E820Entry.marks_iff.mp hmarks⟩
    · intro hcond p hp hhigh
      constructor
      · rintro ⟨e, he, husable, hmarks⟩
        rcases E820Entry.marks_iff.mp hmarks with hnear | hmark
        · exact ⟨e, he, husable, hnear.2⟩
        · exact (hcond e he husable p hp hhigh).1 hmark
      · rintro ⟨e, he, husable, hcovers⟩
        rcases (E820Entry.covers_iff hp).mp hcovers with hnear | halias | hcut
        · exact ⟨e, he, husable, E820Entry.marks_iff.mpr (Or.inl hnear)⟩
        · exact ⟨e, he, husable, E820Entry.marks_iff.mpr (Or.inr (Or.inr halias.1))⟩
        · obtain ⟨e', he', husable', hmark⟩ := (hcond e he husable p hp hhigh).2 hcut
          exact ⟨e', he', husable', E820Entry.marks_iff.mpr hmark⟩
  refine ⟨hall, fun hnear ↦ hall.trans ⟨fun hcond e he husable hodd hhigh hp hend ↦ ?_,
    fun hcond e he husable p hp hhigh ↦ ?_⟩⟩
  · have hfar : ¬e.Far := Nat.not_le.mpr (hnear e he husable)
    exact (hcond e he husable _ hp hhigh).1 (Or.inl ⟨hfar, hodd, rfl, hend⟩)
  · have hfar : ¬e.Far := Nat.not_le.mpr (hnear e he husable)
    refine ⟨?_, fun hcut ↦ absurd hcut.1 hfar⟩
    rintro (⟨-, hodd, rfl, hend⟩ | halias)
    · exact hcond e he husable hodd hhigh hp hend
    · exact absurd halias.1 hfar

/-- One usable entry that begins in the middle of a page. -/
def oddStart : List E820Entry := [⟨0x100800, 0x1800, 1⟩]

/-- The page it begins in is free, with 2048 bytes that are not usable. -/
theorem oddStart_frees_partial_page : 256 < totalPages ∧ (unset.pmmInit oddStart).pageIsFree 256 ∧
    ¬∃ e ∈ oddStart, e.type = e820Usable ∧ e.Covers 256 := by
  have hp : 256 < totalPages := by norm_num [totalPages]
  refine ⟨hp, (pageIsFree_pmmInit unset oddStart hp).mpr ?_, ?_⟩
  · decide
  · decide

/-! ## The order of the entries -/

theorem markedPages_congr (h : ∀ e : E820Entry, e.type = e820Usable → (e ∈ table ↔ e ∈ table')) :
    markedPages table = markedPages table' := by
  ext p
  rw [mem_markedPages, mem_markedPages]
  refine and_congr_right fun _ ↦ exists_congr fun e ↦ ?_
  constructor
  · rintro ⟨he, husable, hmarks⟩
    exact ⟨(h e husable).mp he, husable, hmarks⟩
  · rintro ⟨he, husable, hmarks⟩
    exact ⟨(h e husable).mpr he, husable, hmarks⟩

/-- Tables with the same usable entries give the same bitmap and the same counts, whatever was
there before. -/
theorem pmmInit_order (m m' : Pmm)
    (h : ∀ e : E820Entry, e.type = e820Usable → (e ∈ table ↔ e ∈ table')) :
    (∀ i < bitmapWords, (m.pmmInit table).bitmap i = (m'.pmmInit table').bitmap i) ∧
      (m.pmmInit table).freeCount = (m'.pmmInit table').freeCount ∧
      (m.pmmInit table).totalCount = (m'.pmmInit table').totalCount ∧
      (m.pmmInit table).freeCount ≤ (m.pmmInit table).totalCount := by
  have hmarked := markedPages_congr h
  have hpages : (m.pmmInit table).freePages = (m'.pmmInit table').freePages := by
    rw [freePages_pmmInit, freePages_pmmInit, hmarked]
  obtain ⟨hcount, hle, -⟩ := m.pmmInit_spec table
  obtain ⟨hcount', -, -⟩ := m'.pmmInit_spec table'
  rw [Counted] at hcount hcount'
  refine ⟨fun i hi ↦ bitmap_eq hpages hi, ?_, ?_, ?_⟩
  · rw [hcount, hcount', hpages]
  · rw [totalCount_pmmInit, totalCount_pmmInit, hmarked]
  · rw [hcount]
    exact hle

/-- Two overlapping entries, and the same two in another order with one of them twice. -/
theorem pmmInit_order_overlap :
    let e : E820Entry := ⟨0x100000, 0x3000, 1⟩
    let e' : E820Entry := ⟨0x102000, 0x2000, 1⟩
    (∀ i < bitmapWords, (unset.pmmInit [e, e']).bitmap i = (unset.pmmInit [e', e, e']).bitmap i) ∧
      (unset.pmmInit [e, e']).freeCount = (unset.pmmInit [e', e, e']).freeCount ∧
      (unset.pmmInit [e, e']).totalCount = (unset.pmmInit [e', e, e']).totalCount ∧
      (unset.pmmInit [e, e']).freeCount ≤ (unset.pmmInit [e, e']).totalCount := by
  refine pmmInit_order unset unset fun e _ ↦ ?_
  simp only [List.mem_cons, List.not_mem_nil, or_false]
  tauto

end Pmm

end MyOS
