import MyOS.Memory.Pmm

/-!
# Runs of the page allocator

After `pmm_init` the counters fit the bitmap and no page of the first megabyte is free.  As
long as callers give back only what they hold, no page is handed out twice.  `pmm_free` does
not know which pages `pmm_init` found usable: it makes any page free, and `pmm_alloc` then
hands that page out.
-/

namespace MyOS.Pmm

variable {m m' : Pmm} {p n : ℕ} {table : List E820Entry}

/-! ## Initialisation -/

/-- While regions are being freed, both counters are the number of free pages. -/
def Tallied (m : Pmm) : Prop := m.Counted ∧ m.totalCount = m.freePages.card

theorem Tallied.regionFreeLoop (h : m.Tallied) (hp : p + n ≤ totalPages) :
    (regionFreeLoop n p m).Tallied := by
  induction n generalizing p m with
  | zero => exact h
  | succ n ih =>
      rw [Pmm.regionFreeLoop]
      apply ih _ (by omega)
      split
      · obtain ⟨hcount, htotal⟩ := h
        rename_i hused
        have hlt : p < totalPages := by omega
        have hcard := card_freePages_le m
        have hnot : p ∉ m.freePages := fun hmem ↦ hused (mem_freePages.mp hmem).2
        rw [totalPages] at hcard
        have hpages : ({ m.pageSetFree p with
            freeCount := Word.add m.freeCount 1
            totalCount := Word.add m.totalCount 1 } : Pmm).freePages = insert p m.freePages := by
          rw [← freePages_give hlt]
          exact freePages_congr rfl
        rw [Tallied, Counted, hpages, Finset.card_insert_of_notMem hnot]
        constructor
        · rw [← hcount]
          exact Word.add_eq (by rw [hcount]; omega)
        · rw [← htotal]
          exact Word.add_eq (by omega)
      · exact h

theorem Tallied.regionFree (h : m.Tallied) (base len : UInt64) :
    (m.regionFree base len).Tallied := by
  have hclip : ∀ first last : ℕ, (Pmm.regionFreeLoop
      ((if last > totalPages then totalPages else last) - first) first m).Tallied := by
    intro first last
    have hclipped : (if last > totalPages then totalPages else last) ≤ totalPages := by
      split <;> omega
    generalize (if last > totalPages then totalPages else last) = last' at hclipped ⊢
    by_cases hnone : last' ≤ first
    · rw [Nat.sub_eq_zero_of_le hnone]
      exact h
    · exact h.regionFreeLoop (by omega)
  exact hclip _ _

theorem Tallied.freeUsable (h : m.Tallied) (table : List E820Entry) :
    (table.foldl (fun m e ↦ if e.type = e820Usable then m.regionFree e.base e.length else m)
      m).Tallied := by
  induction table generalizing m with
  | nil => exact h
  | cons e table ih =>
      apply ih
      beta_reduce
      split
      · exact h.regionFree e.base e.length
      · exact h

/-- What reserving does to counters and pages. -/
structure Reserved (m m' : Pmm) (lo hi : ℕ) : Prop where
  counted : m'.Counted
  total : m'.totalCount = m.totalCount
  subset : m'.freePages ⊆ m.freePages
  none_left : ∀ p, lo ≤ p → p < hi → p ∉ m'.freePages

theorem reserved_regionReserveLoop (h : m.Counted) (hp : p + n ≤ totalPages) :
    Reserved m (regionReserveLoop n p m) p (p + n) := by
  induction n generalizing p m with
  | zero => exact ⟨h, rfl, Finset.Subset.refl _, fun q hlo hhi ↦ by omega⟩
  | succ n ih =>
      rw [regionReserveLoop]
      split
      · rename_i hfree
        have hmem : p ∈ m.freePages := mem_freePages.mpr ⟨by omega, hfree⟩
        have hrest := ih (h.take hmem) (p := p + 1) (by omega)
        have hsub := hrest.subset
        rw [freePages_take] at hsub
        refine ⟨hrest.counted, hrest.total, hsub.trans (Finset.erase_subset _ _), ?_⟩
        intro q hlo hhi hq
        rcases Nat.eq_or_lt_of_le hlo with rfl | hlt
        · exact (Finset.mem_erase.mp (hsub hq)).1 rfl
        · exact hrest.none_left q hlt (by omega) hq
      · rename_i hused
        have hrest := ih h (p := p + 1) (by omega)
        refine ⟨hrest.counted, hrest.total, hrest.subset, ?_⟩
        intro q hlo hhi hq
        rcases Nat.eq_or_lt_of_le hlo with rfl | hlt
        · exact hused (mem_freePages.mp (hrest.subset hq)).2
        · exact hrest.none_left q hlt (by omega) hq

/-- The state in which `pmm_init` looks at the table: every page is in use. -/
def reset (m : Pmm) : Pmm :=
  { bitmap := fun i ↦ if i < bitmapWords then 0xFFFFFFFF#32 else m.bitmap i
    freeCount := 0
    totalCount := 0 }

theorem not_pageIsFree_reset (hp : p < totalPages) : ¬m.reset.pageIsFree p := by
  refine word_full (if_pos ?_)
  rw [bitmapWords]
  rw [totalPages] at hp ⊢
  omega

theorem tallied_reset (m : Pmm) : m.reset.Tallied := by
  have hnone : m.reset.freePages = ∅ := by
    apply Finset.eq_empty_of_forall_notMem
    intro p hp
    obtain ⟨hlt, hfree⟩ := mem_freePages.mp hp
    exact not_pageIsFree_reset hlt hfree
  rw [Tallied, Counted, hnone]
  exact ⟨rfl, rfl⟩

/-- After `pmm_init` the free pages are counted, no more of them than the total says, and none
is in the first megabyte. -/
theorem pmmInit_spec (m : Pmm) (table : List E820Entry) :
    (m.pmmInit table).Counted ∧ (m.pmmInit table).freePages.card ≤ (m.pmmInit table).totalCount ∧
      ∀ p ∈ (m.pmmInit table).freePages, 256 ≤ p := by
  have htally := (tallied_reset m).freeUsable table
  have hres := reserved_regionReserveLoop (p := 0) (n := 256) htally.1 (by norm_num [totalPages])
  refine ⟨hres.counted, ?_, fun p hp ↦ ?_⟩
  · have hle := Finset.card_le_card hres.subset
    rw [← htally.2] at hle
    exact hle.trans_eq hres.total.symm
  · by_contra hlow
    exact hres.none_left p (Nat.zero_le p) (by omega) hp

/-! ## Pages that are held -/

/-- The states of the allocator after `pmm_init`, with the addresses that callers hold: each
`pmm_alloc` adds one, and `pmm_free` takes one back. -/
inductive Run (table : List E820Entry) : Pmm → Finset ℕ → Prop
  | init (m : Pmm) : Run table (m.pmmInit table) ∅
  | alloc {m : Pmm} {held : Finset ℕ} : Run table m held → m.pmmAlloc.1 ≠ 0 →
      Run table m.pmmAlloc.2 (insert m.pmmAlloc.1 held)
  | exhausted {m : Pmm} {held : Finset ℕ} : Run table m held → m.pmmAlloc.1 = 0 →
      Run table m.pmmAlloc.2 held
  | free {m : Pmm} {held : Finset ℕ} {addr : ℕ} : Run table m held → addr ∈ held →
      Run table (m.pmmFree addr) (held.erase addr)

/-- A page address that no one can get a second time. -/
structure Owned (m : Pmm) (addr : ℕ) : Prop where
  aligned : pageSize ∣ addr
  word : addr < 2 ^ 32
  high : 0x100000 ≤ addr
  used : addr / pageSize ∉ m.freePages

structure Inv (m : Pmm) (held : Finset ℕ) : Prop where
  counted : m.Counted
  high : ∀ p ∈ m.freePages, 256 ≤ p
  owned : ∀ addr ∈ held, m.Owned addr

variable {held : Finset ℕ} {addr : ℕ}

theorem page_mul_div (p : ℕ) : p * pageSize / pageSize = p :=
  Nat.mul_div_cancel p (by norm_num [pageSize])

theorem eq_of_page_eq {a b : ℕ} (ha : pageSize ∣ a) (hb : pageSize ∣ b)
    (h : a / pageSize = b / pageSize) : a = b := by
  rw [← Nat.div_mul_cancel ha, ← Nat.div_mul_cancel hb, h]

/-- What `pmm_alloc` returns is nobody's, and belongs to the caller afterwards. -/
theorem Inv.alloc (h : Inv m held) :
    m.freePages = ∅ ∧ m.pmmAlloc = (0, m) ∨
      m.freePages ≠ ∅ ∧ m.pmmAlloc.1 ∉ held ∧ m.pmmAlloc.1 ≠ 0 ∧
        Inv m.pmmAlloc.2 (insert m.pmmAlloc.1 held) := by
  rcases m.pmmAlloc_spec with hnone | ⟨p, hp, -, hsome⟩
  · exact Or.inl hnone
  obtain ⟨hlt, -⟩ := mem_freePages.mp hp
  have hlow := h.high p hp
  rw [totalPages] at hlt
  rw [hsome]
  refine Or.inr ⟨Finset.ne_empty_of_mem hp, fun hmem ↦ ?_, ?_, ?_⟩
  · have hused := (h.owned _ hmem).used
    rw [page_mul_div] at hused
    exact hused hp
  · have hpos : 256 * pageSize ≤ p * pageSize := Nat.mul_le_mul_right _ hlow
    norm_num [pageSize] at hpos ⊢
    omega
  · refine ⟨h.counted.take hp, fun q hq ↦ ?_, fun a ha ↦ ?_⟩
    · rw [freePages_take] at hq
      exact h.high q (Finset.mem_of_mem_erase hq)
    · rcases Finset.mem_insert.mp ha with rfl | ha
      · refine ⟨Nat.dvd_mul_left _ _, ?_, ?_, ?_⟩
        · rw [pageSize]
          omega
        · rw [pageSize]
          omega
        · rw [page_mul_div, freePages_take]
          exact Finset.notMem_erase p _
      · obtain ⟨haligned, hword, hhigh, hused⟩ := h.owned a ha
        refine ⟨haligned, hword, hhigh, fun hmem ↦ hused ?_⟩
        rw [freePages_take] at hmem
        exact Finset.mem_of_mem_erase hmem

theorem Inv.free (h : Inv m held) (haddr : addr ∈ held) :
    Inv (m.pmmFree addr) (held.erase addr) := by
  obtain ⟨haligned, hword, hhigh, hused⟩ := h.owned addr haddr
  have hpages := m.freePages_pmmFree hword
  refine ⟨h.counted.pmmFree hword, fun p hp ↦ ?_, fun a ha ↦ ?_⟩
  · rw [hpages] at hp
    rcases Finset.mem_insert.mp hp with rfl | hp
    · exact Nat.div_le_div_right (c := pageSize) hhigh
    · exact h.high p hp
  · obtain ⟨hne, hmem⟩ := Finset.mem_erase.mp ha
    obtain ⟨haligned', hword', hhigh', hused'⟩ := h.owned a hmem
    refine ⟨haligned', hword', hhigh', fun hfree ↦ ?_⟩
    rw [hpages] at hfree
    rcases Finset.mem_insert.mp hfree with hsame | hfree
    · exact hne (eq_of_page_eq haligned' haligned hsame)
    · exact hused' hfree

theorem Run.inv (h : Run table m held) : Inv m held := by
  induction h with
  | init m =>
      obtain ⟨hcount, -, hhigh⟩ := m.pmmInit_spec table
      exact ⟨hcount, hhigh, fun _ hmem ↦ absurd hmem (Finset.notMem_empty _)⟩
  | alloc _ hne ih =>
      rcases ih.alloc with ⟨-, hnone⟩ | ⟨-, -, -, hinv⟩
      · rw [hnone] at hne
        exact absurd rfl hne
      · exact hinv
  | exhausted _ hzero ih =>
      rcases ih.alloc with ⟨-, hnone⟩ | ⟨-, -, hne, -⟩
      · rw [hnone]
        exact ih
      · exact absurd hzero hne
  | free _ hmem ih => exact ih.free hmem

/-- In every run the counter is exact, `pmm_alloc` fails only without free pages and otherwise
returns a page of the upper memory that nobody holds, and `pmm_free` makes just its page
free. -/
theorem allocator_exact (h : Run table m held) :
    m.freeCount = m.freePages.card ∧ (m.pmmAlloc.1 = 0 ↔ m.freeCount = 0) ∧
      (m.pmmAlloc.1 ≠ 0 →
        pageSize ∣ m.pmmAlloc.1 ∧ 0x100000 ≤ m.pmmAlloc.1 ∧ m.pmmAlloc.1 ∉ held) ∧
      ∀ addr ∈ held, addr / pageSize ∉ m.freePages ∧
        (m.pmmFree addr).freePages = insert (addr / pageSize) m.freePages := by
  have hinv := h.inv
  have hcount : m.freeCount = m.freePages.card := hinv.counted
  refine ⟨hcount, ?_, ?_, fun addr haddr ↦ ⟨(hinv.owned addr haddr).used,
    m.freePages_pmmFree (hinv.owned addr haddr).word⟩⟩
  · rcases hinv.alloc with ⟨hempty, hnone⟩ | ⟨hne, -, hsome, -⟩
    · rw [hcount, hempty, hnone]
      simp
    · rw [hcount, Finset.card_eq_zero]
      exact iff_of_false hsome hne
  · intro hsome
    rcases hinv.alloc with ⟨-, hnone⟩ | ⟨-, hnew, -, hafter⟩
    · rw [hnone] at hsome
      exact absurd rfl hsome
    · have howned := hafter.owned _ (Finset.mem_insert_self _ _)
      exact ⟨howned.aligned, howned.high, hnew⟩

/-- Before `pmm_init`. -/
def unset : Pmm := ⟨fun _ ↦ 0#32, 0, 0⟩

/-- One usable region of two pages at 1 MB. -/
def twoPages : List E820Entry := [⟨0x100000, 0x2000, 1⟩]

/-- Both pages are taken and the first one is given back. -/
def onePage : Pmm := (unset.pmmInit twoPages).pmmAlloc.2.pmmAlloc.2.pmmFree 0x100000

theorem onePage_run : Run twoPages onePage {0x101000} := by
  have hinit : Run twoPages (unset.pmmInit twoPages) ∅ := .init unset
  have hone := hinit.alloc (by decide +kernel)
  have htwo := hone.alloc (by decide +kernel)
  have hfirst : (unset.pmmInit twoPages).pmmAlloc.1 = 0x100000 := by decide +kernel
  have hsecond : (unset.pmmInit twoPages).pmmAlloc.2.pmmAlloc.1 = 0x101000 := by decide +kernel
  rw [hfirst, hsecond] at htwo
  have hheld : 0x100000 ∈ ({0x101000, 0x100000} : Finset ℕ) := by decide
  exact htwo.free hheld

theorem allocator_exact_held : onePage.freeCount = onePage.freePages.card ∧
    (onePage.pmmAlloc.1 = 0 ↔ onePage.freeCount = 0) ∧ onePage.pmmAlloc.1 ≠ 0 ∧
    pageSize ∣ onePage.pmmAlloc.1 ∧ 0x100000 ≤ onePage.pmmAlloc.1 ∧
    onePage.pmmAlloc.1 ∉ ({0x101000} : Finset ℕ) ∧ 0x101000 / pageSize ∉ onePage.freePages ∧
    (onePage.pmmFree 0x101000).freePages = insert (0x101000 / pageSize) onePage.freePages := by
  obtain ⟨hcount, hzero, hnew, hheld⟩ := allocator_exact onePage_run
  have hsome : onePage.pmmAlloc.1 ≠ 0 := by decide +kernel
  obtain ⟨haligned, hhigh, hapart⟩ := hnew hsome
  exact ⟨hcount, hzero, hsome, haligned, hhigh, hapart, hheld 0x101000 (by decide)⟩

/-! ## Arbitrary releases -/

inductive Request where
  | alloc
  | free (addr : ℕ)

def Request.run (m : Pmm) : Request → Pmm
  | alloc => m.pmmAlloc.2
  | free addr => m.pmmFree addr

/-- The state after the requests. -/
def serve (m : Pmm) (rs : List Request) : Pmm := rs.foldl Request.run m

/-- The page that `pmm_alloc` would take now is in the upper memory and was found free at first,
and no more pages are free than there are. -/
structure Proper (first m : Pmm) : Prop where
  handed : m.freePages.Nonempty →
    0x100000 ≤ m.pmmAlloc.1 ∧ m.pmmAlloc.1 / pageSize ∈ first.freePages
  count : m.freeCount ≤ m.totalCount

/-- Every state on the way is proper. -/
def ProperAlong (first : Pmm) (rs : List Request) : Prop :=
  ∀ rs', rs' <+: rs → Proper first (first.serve rs')

/-- The requests release page addresses only. -/
def Aligned (rs : List Request) : Prop :=
  ∀ addr, Request.free addr ∈ rs → addr < 2 ^ 32 ∧ pageSize ∣ addr

variable {first : Pmm} {rs : List Request}

theorem serve_append (m : Pmm) (rs rs' : List Request) :
    m.serve (rs ++ rs') = (m.serve rs).serve rs' := List.foldl_append

theorem alloc_totalCount (m : Pmm) : m.pmmAlloc.2.totalCount = m.totalCount := by
  rcases m.pmmAlloc_spec with ⟨-, hnone⟩ | ⟨p, -, -, hsome⟩
  · rw [hnone]
  · rw [hsome]
    rfl

theorem Request.run_counted (r : Request) (h : m.Counted) (hr : Aligned [r]) :
    (r.run m).Counted ∧ (r.run m).totalCount = m.totalCount := by
  cases r with
  | alloc =>
      refine ⟨?_, m.alloc_totalCount⟩
      rcases m.pmmAlloc_spec with ⟨-, hnone⟩ | ⟨p, hp, -, hsome⟩
      · rw [run, hnone]
        exact h
      · rw [run, hsome]
        exact h.take hp
  | free addr => exact ⟨h.pmmFree (hr addr List.mem_cons_self).1, m.pmmFree_totalCount addr⟩

/-- If only pages are released that were free at first, no other page becomes free. -/
theorem Request.run_subset (r : Request) (h : m.freePages ⊆ first.freePages)
    (hr : Aligned [r]) (hfree : ∀ addr, r = .free addr → addr / pageSize ∈ first.freePages) :
    (r.run m).freePages ⊆ first.freePages := by
  cases r with
  | alloc =>
      rcases m.pmmAlloc_spec with ⟨-, hnone⟩ | ⟨p, -, -, hsome⟩
      · rw [run, hnone]
        exact h
      · rw [run, hsome, freePages_take]
        exact (Finset.erase_subset _ _).trans h
  | free addr =>
      rw [run, m.freePages_pmmFree (hr addr List.mem_cons_self).1]
      exact Finset.insert_subset (hfree addr rfl) h

theorem serve_spec (hcount : m.Counted) (hsub : m.freePages ⊆ first.freePages)
    (hrs : Aligned rs) (hfree : ∀ addr, .free addr ∈ rs → addr / pageSize ∈ first.freePages) :
    (m.serve rs).Counted ∧ (m.serve rs).totalCount = m.totalCount ∧
      (m.serve rs).freePages ⊆ first.freePages := by
  induction rs generalizing m with
  | nil => exact ⟨hcount, rfl, hsub⟩
  | cons r rs ih =>
      have hr : Aligned [r] := fun addr hmem ↦ hrs addr (by
        rw [List.mem_singleton.mp hmem]
        exact List.mem_cons_self)
      obtain ⟨hcount', htotal'⟩ := r.run_counted hcount hr
      have hsub' := r.run_subset hsub hr fun addr hsame ↦ hfree addr (by
        rw [← hsame]
        exact List.mem_cons_self)
      obtain ⟨hc, ht, hs⟩ := ih hcount' hsub'
        (fun addr hmem ↦ hrs addr (List.mem_cons_of_mem r hmem))
        (fun addr hmem ↦ hfree addr (List.mem_cons_of_mem r hmem))
      exact ⟨hc, ht.trans htotal', hs⟩

theorem proper_of_subset (hcount : m.Counted) (hsub : m.freePages ⊆ first.freePages)
    (htotal : first.freePages.card ≤ m.totalCount) (hhigh : ∀ p ∈ first.freePages, 256 ≤ p) :
    Proper first m := by
  constructor
  · intro hne
    rcases m.pmmAlloc_spec with ⟨hempty, -⟩ | ⟨p, hp, -, hsome⟩
    · exact absurd hempty hne.ne_empty
    · have hmul : 256 * pageSize ≤ p * pageSize := Nat.mul_le_mul_right _ (hhigh p (hsub hp))
      rw [hsome, page_mul_div]
      exact ⟨hmul, hsub hp⟩
  · rw [hcount]
    exact (Finset.card_le_card hsub).trans htotal

/-- A page that was not free at first stays free as long as everything is proper: only
`pmm_alloc` could take it. -/
theorem mem_serve (hp : p ∈ m.freePages) (hfirst : p ∉ first.freePages) (hrs : Aligned rs)
    (hproper : ∀ rs', rs' <+: rs → Proper first (m.serve rs')) : p ∈ (m.serve rs).freePages := by
  induction rs generalizing m with
  | nil => exact hp
  | cons r rs ih =>
      have hnext : p ∈ (r.run m).freePages := by
        cases r with
        | alloc =>
            rcases m.pmmAlloc_spec with ⟨hempty, -⟩ | ⟨q, hq, -, hsome⟩
            · rw [hempty] at hp
              exact absurd hp (Finset.notMem_empty p)
            · rw [Request.run, hsome, freePages_take]
              refine Finset.mem_erase.mpr ⟨?_, hp⟩
              rintro rfl
              have hnow := ((hproper [] List.nil_prefix).handed ⟨p, hp⟩).2
              have hm : m.serve [] = m := rfl
              rw [hm, hsome, page_mul_div] at hnow
              exact hfirst hnow
        | free addr =>
            rw [Request.run, m.freePages_pmmFree (hrs addr List.mem_cons_self).1]
            exact Finset.mem_insert_of_mem hp
      refine ih hnext (fun addr hmem ↦ hrs addr (List.mem_cons_of_mem r hmem)) fun rs' hpre ↦ ?_
      have hlong : r :: rs' <+: r :: rs := (List.prefix_cons_inj r).mpr hpre
      exact hproper (r :: rs') hlong

/-- Enough calls of `pmm_alloc` empty the allocator. -/
theorem serve_allocs_empty (m : Pmm) :
    (m.serve (List.replicate m.freePages.card .alloc)).freePages = ∅ := by
  induction hcard : m.freePages.card generalizing m with
  | zero => exact Finset.card_eq_zero.mp hcard
  | succ n ih =>
      have hnext : m.pmmAlloc.2.freePages.card = n := by
        rcases m.pmmAlloc_spec with ⟨hempty, -⟩ | ⟨p, hp, -, hsome⟩
        · rw [hempty] at hcard
          cases hcard
        · rw [hsome, freePages_take, Finset.card_erase_of_mem hp, hcard]
          rfl
      exact ih m.pmmAlloc.2 hnext

theorem aligned_append_allocs (h : Aligned rs) (k : ℕ) :
    Aligned (rs ++ List.replicate k .alloc) := by
  intro addr hmem
  rcases List.mem_append.mp hmem with hmem | hmem
  · exact h addr hmem
  · cases List.eq_of_mem_replicate hmem

/-- However much is allocated after the requests, `pmm_alloc` never hands out anything but
pages that `pmm_init` found usable and the counters stay in order, exactly when the requests
have released such pages only. -/
theorem usable_only_iff (h : Aligned rs) :
    (∀ k, ProperAlong (m.pmmInit table) (rs ++ List.replicate k .alloc)) ↔
      ∀ addr, .free addr ∈ rs → addr / pageSize ∈ (m.pmmInit table).freePages := by
  obtain ⟨hcount, htotal, hhigh⟩ := m.pmmInit_spec table
  generalize m.pmmInit table = first at hcount htotal hhigh
  constructor
  · intro hproper addr hmem
    by_contra hfirst
    obtain ⟨pre, post, hsplit⟩ := List.append_of_mem hmem
    have hword := (h addr hmem).1
    -- the page is free after its release, and so it is after everything else
    have hfree : addr / pageSize ∈ (first.serve (pre ++ [.free addr])).freePages := by
      rw [serve_append]
      change _ ∈ ((first.serve pre).pmmFree addr).freePages
      rw [freePages_pmmFree _ hword]
      exact Finset.mem_insert_self _ _
    have hstays : ∀ k, addr / pageSize ∈
        (first.serve (rs ++ List.replicate k .alloc)).freePages := by
      intro k
      have hall : rs ++ List.replicate k .alloc =
          (pre ++ [.free addr]) ++ (post ++ List.replicate k .alloc) := by
        rw [hsplit]
        simp
      rw [hall, serve_append]
      have haligned := aligned_append_allocs h k
      rw [hall] at haligned
      refine mem_serve hfree hfirst (fun a ha ↦ haligned a (List.mem_append_right _ ha)) ?_
      intro rs' hpre
      have hlong := hproper k ((pre ++ [.free addr]) ++ rs') (by
        rw [hall]
        exact (List.prefix_append_right_inj _).mpr hpre)
      rwa [serve_append] at hlong
    have hlast := hstays (first.serve rs).freePages.card
    rw [serve_append, serve_allocs_empty] at hlast
    exact absurd hlast (Finset.notMem_empty _)
  · intro hfree k rs' hpre
    have haligned := aligned_append_allocs h k
    have hfree' : ∀ addr, .free addr ∈ rs' → addr / pageSize ∈ first.freePages := by
      intro addr hmem
      rcases List.mem_append.mp (hpre.subset hmem) with hmem | hmem
      · exact hfree addr hmem
      · cases List.eq_of_mem_replicate hmem
    obtain ⟨hc, ht, hs⟩ := serve_spec hcount (Finset.Subset.refl _)
      (fun addr hmem ↦ haligned addr (hpre.subset hmem)) hfree'
    exact proper_of_subset hc hs (by rwa [ht]) hhigh

theorem usable_only_iff_two :
    (∀ k, ProperAlong (unset.pmmInit twoPages)
      ([.alloc, .free 0x100000] ++ List.replicate k .alloc)) ↔
      ∀ addr, Request.free addr ∈ [Request.alloc, .free 0x100000] →
        addr / pageSize ∈ (unset.pmmInit twoPages).freePages :=
  usable_only_iff (by
    intro addr hmem
    obtain rfl : addr = 0x100000 := by simpa using hmem
    decide)

theorem not_properAlong_of_count {addr : ℕ}
    (h : (first.pmmFree addr).totalCount < (first.pmmFree addr).freeCount) :
    ¬ProperAlong first [.free addr] :=
  fun hproper ↦ absurd (hproper [.free addr] (List.prefix_refl _)).count (Nat.not_le.mpr h)

/-- Without any usable memory, page 1 is released: it is handed out, and one page more is free
than there are. -/
theorem low_page_handed_out :
    ((unset.pmmInit []).pmmFree 0x1000).pmmAlloc.1 = 0x1000 ∧
      ((unset.pmmInit []).pmmFree 0x1000).totalCount <
        ((unset.pmmInit []).pmmFree 0x1000).freeCount ∧
      ¬ProperAlong (unset.pmmInit []) [.free 0x1000] := by
  have hcount : ((unset.pmmInit []).pmmFree 0x1000).totalCount <
      ((unset.pmmInit []).pmmFree 0x1000).freeCount := by decide +kernel
  exact ⟨by decide +kernel, hcount, not_properAlong_of_count hcount⟩

end MyOS.Pmm
