import MyOS.Memory.Paging

/-!
# Translation by the processor

The processor reads the tables that `paging.c` writes, with the rights in both of their words, and
keeps what it has read.  It may read a page's words at any time, long before the page is used, and
may forget a translation at any time; `invlpg` makes it forget one.  `vmm_map` and `vmm_unmap`
first write a word and then forget its page, and anything can happen in between, calls of the two
for other tasks included.

Paging is on while `get_pt` and its callers run: the addresses of the directory and of the tables
are translated as well.  They take the address of a frame for that of its table, which is right
where the frame is mapped to itself, as `paging_init` does below 4 MB.

What the processor does with an address is what the last calls said, for every page but those
between the two steps of a call, as long as the calls find their tables in this way.
-/

namespace MyOS

open Bytes

/-! ## The processor -/

/-- The frame of a page, and who may use it how. -/
structure Rights where
  frame : ℕ
  rw : Bool
  user : Bool
  deriving DecidableEq

/-- An access in ring 3 needs the page to be a user page, and writable if it is a write.  The
kernel may do anything, since `enable_paging` does not set `CR0.WP`. -/
def Rights.allows (r : Rights) (user write : Bool) : Bool :=
  !user || r.user && (!write || r.rw)

/-- The processor reads both levels and joins their rights. -/
def Mm.walk (s : Mm) (cr3 v : ℕ) : Option Rights :=
  let pde := s.mem.read32 (cr3 + 4 * (v / 1024))
  if pde &&& pagePresent = 0 then none
  else
    let pte := s.mem.read32 ((pde &&& 0xFFFFF000) + 4 * (v % 1024))
    if pte &&& pagePresent = 0 then none
    else
      some
        { frame := pte / 4096
          rw := pde.testBit 1 && pte.testBit 1
          user := pde.testBit 2 && pte.testBit 2 }

structure Mmu where
  mm : Mm
  cr3 : ℕ
  tlb : ℕ → Option Rights

namespace Mmu

/-- What the processor goes by: what it has kept, or else the tables. -/
def rights (m : Mmu) (v : ℕ) : Option Rights :=
  match m.tlb v with
  | some r => some r
  | none => m.mm.walk m.cr3 v

/-- The physical address of an access, `none` for a page fault. -/
def access (m : Mmu) (user write : Bool) (a : ℕ) : Option ℕ :=
  match m.rights (a / 4096) with
  | some r => if r.allows user write then some (r.frame * 4096 + a % 4096) else none
  | none => none

def fill (m : Mmu) (v : ℕ) : Mmu := { m with tlb := Function.update m.tlb v (m.mm.walk m.cr3 v) }

def invlpg (m : Mmu) (v : ℕ) : Mmu := { m with tlb := Function.update m.tlb v none }

theorem fill_self (m : Mmu) (v : ℕ) : (m.fill v).tlb v = m.mm.walk m.cr3 v :=
  Function.update_self v _ m.tlb

theorem fill_of_ne (m : Mmu) {v w : ℕ} (h : w ≠ v) : (m.fill v).tlb w = m.tlb w :=
  Function.update_of_ne h _ m.tlb

theorem invlpg_self (m : Mmu) (v : ℕ) : (m.invlpg v).tlb v = none :=
  Function.update_self v _ m.tlb

theorem invlpg_of_ne (m : Mmu) {v w : ℕ} (h : w ≠ v) : (m.invlpg v).tlb w = m.tlb w :=
  Function.update_of_ne h _ m.tlb

/-- `paging_init`; loading `CR3` makes the processor forget everything. -/
def pagingInit (T : Tables) (s : Mm) : Mmu :=
  { mm := s.pagingInit T, cr3 := T.pageDirectory, tlb := fun _ ↦ none }

/-! ## The code under translation -/

/-- A word that the kernel reads; `none` for a page fault. -/
def load (m : Mmu) (a : ℕ) : Option ℕ := (m.access false false a).map m.mm.mem.read32

def store (m : Mmu) (a e : ℕ) : Option Mmu :=
  (m.access false true a).map fun p ↦ { m with mm := { m.mm with mem := m.mm.mem.write32 p e } }

/-- `for (int i = 0; i < n; i++) new_pt[i] = 0;` -/
def clear (m : Mmu) (pt : ℕ) : ℕ → Option Mmu
  | 0 => some m
  | n + 1 => (m.clear pt n).bind fun m ↦ m.store (pt + 4 * n) 0

def getPt (T : Tables) (m : Mmu) (virt : ℕ) (create : Bool) : Option (ℕ × Mmu) := do
  let pdi := pageDirIndex virt
  let pde ← m.load (T.pageDirectory + 4 * pdi)
  if pde &&& pagePresent ≠ 0 then some (pde &&& 0xFFFFF000, m)
  else if create = false then some (0, m)
  else
    let r := m.mm.pmm.pmmAlloc
    let pt := r.1
    if pt = 0 then some (0, { m with mm := { m.mm with pmm := r.2 } })
    else do
      let m ← ({ m with mm := { m.mm with pmm := r.2, cleared := pt :: m.mm.cleared } } : Mmu).clear
        pt 1024
      let m ← m.store (T.pageDirectory + 4 * pdi) (pt ||| pagePresent ||| pageRw ||| pageUser)
      some (pt, m)

/-- `vmm_map` up to its `invlpg`, which follows only if it succeeds. -/
def vmmMap (T : Tables) (m : Mmu) (virt phys flags : ℕ) : Option (ℤ × Mmu) :=
  if (virt ||| phys) &&& 0xFFF ≠ 0 then some (-1, m)
  else do
    let r ← m.getPt T virt true
    let pt := r.1
    if pt = 0 then some (-1, r.2)
    else do
      let m ← r.2.store (pt + 4 * pageTblIndex virt)
        (phys &&& 0xFFFFF000 ||| flags &&& 0xFFF ||| pagePresent)
      some (0, m)

/-- `vmm_unmap` up to its `invlpg`, and whether that follows. -/
def vmmUnmap (T : Tables) (m : Mmu) (virt : ℕ) : Option (Bool × Mmu) := do
  let r ← m.getPt T virt false
  let pt := r.1
  if pt = 0 then some (false, r.2)
  else do
    let m ← r.2.store (pt + 4 * pageTblIndex virt) 0
    some (true, m)

end Mmu

/-! ## What the calls say -/

/-- What the calls have asked for, page by page. -/
abbrev Asked := ℕ → Option Rights

namespace Asked

def identity : Asked := fun v ↦ if v < 1024 then some ⟨v, true, true⟩ else none

def access (φ : Asked) (user write : Bool) (a : ℕ) : Option ℕ :=
  match φ (a / 4096) with
  | some r => if r.allows user write then some (r.frame * 4096 + a % 4096) else none
  | none => none

/-- The rights that `flags` gives. -/
def granted (phys flags : ℕ) : Rights := ⟨phys / 4096, flags.testBit 1, flags.testBit 2⟩

/-- Page `p` is mapped to the frame of the same number, and no call is just changing it. -/
def Flat (φ : Asked) (P : Set ℕ) (p : ℕ) : Prop := p ∉ P ∧ ∃ r, φ p = some r ∧ r.frame = p

end Asked

/-- The pages of the directory and of the table that `get_pt` returns. -/
def Mm.Uses (T : Tables) (s : Mm) (virt : ℕ) (create : Bool) (p : ℕ) : Prop :=
  p = T.pageDirectory / 4096 ∨
    (s.getPt T virt create).1 ≠ 0 ∧ p = (s.getPt T virt create).1 / 4096

/-- The states of the processor after `paging_init`, beside what the calls have asked for and the
pages that some call is still to make the processor forget.  Whenever a call is made, the frames
that it uses as tables are mapped to themselves. -/
inductive Translates (T : Tables) : Mmu → Asked → Set ℕ → Prop
  | init (s : Mm) : T.pageDirectory / 4096 ∉ s.pmm.freePages →
      T.firstPageTable / 4096 ∉ s.pmm.freePages →
      Translates T (Mmu.pagingInit T s) Asked.identity ∅
  | fill {m : Mmu} {φ : Asked} {P : Set ℕ} (v : ℕ) : Translates T m φ P → v < 2 ^ 20 →
      Translates T (m.fill v) φ P
  | forget {m : Mmu} {φ : Asked} {P : Set ℕ} (v : ℕ) : Translates T m φ P →
      Translates T (m.invlpg v) φ P
  | map {m m' : Mmu} {φ : Asked} {P : Set ℕ} {virt phys : ℕ} (flags : ℕ) : Translates T m φ P →
      virt < 2 ^ 32 → phys < 2 ^ 32 → (∀ p, m.mm.Uses T virt true p → φ.Flat P p) →
      m.vmmMap T virt phys flags = some (0, m') →
      Translates T m' (Function.update φ (virt / 4096) (some (Asked.granted phys flags)))
        (insert (virt / 4096) P)
  | mapFails {m m' : Mmu} {φ : Asked} {P : Set ℕ} {virt phys flags : ℕ} {r : ℤ} :
      Translates T m φ P → virt < 2 ^ 32 → phys < 2 ^ 32 →
      (∀ p, m.mm.Uses T virt true p → φ.Flat P p) → m.vmmMap T virt phys flags = some (r, m') →
      r ≠ 0 → Translates T m' φ P
  | unmap {m m' : Mmu} {φ : Asked} {P : Set ℕ} {virt : ℕ} : Translates T m φ P →
      virt < 2 ^ 32 → (∀ p, m.mm.Uses T virt false p → φ.Flat P p) →
      m.vmmUnmap T virt = some (true, m') →
      Translates T m' (Function.update φ (virt / 4096) none) (insert (virt / 4096) P)
  /-- `vmm_unmap` of a page that has no table returns at once. -/
  | unmapNothing {m m' : Mmu} {φ : Asked} {P : Set ℕ} {virt : ℕ} : Translates T m φ P →
      virt < 2 ^ 32 → (∀ p, m.mm.Uses T virt false p → φ.Flat P p) →
      m.vmmUnmap T virt = some (false, m') →
      Translates T m' (Function.update φ (virt / 4096) none) P
  | invlpg {m : Mmu} {φ : Asked} {P : Set ℕ} {v : ℕ} : Translates T m φ P → v ∈ P →
      Translates T (m.invlpg v) φ (P \ {v})
  | other {m : Mmu} {s : Mm} {φ : Asked} {P : Set ℕ} : Translates T m φ P →
      (∀ a, m.mm.TablePage T (a / 4096) → s.mem a = m.mm.mem a) →
      (∀ p, m.mm.TablePage T p → p ∉ s.pmm.freePages) → Translates T { m with mm := s } φ P

/-! ## The words of the tables -/

variable {T : Tables} {s s' : Mm} {m m' : Mmu} {φ : Asked} {P : Set ℕ}
variable {a e i n p pt t v virt phys flags : ℕ}

/-- The rights in the word of a page. -/
def rightsOf (e : ℕ) : Option Rights :=
  if e % 2 = 1 then some ⟨e / 4096, e.testBit 1, e.testBit 2⟩ else none

namespace Mm

/-- The directory never takes rights away. -/
def Lenient (T : Tables) (s : Mm) : Prop :=
  ∀ i < 1024, s.mem.read32 (T.pageDirectory + 4 * i) % 2 = 1 →
    s.mem.read32 (T.pageDirectory + 4 * i) % 8 = 7

theorem walk_eq (hlenient : s.Lenient T) (hv : v < 2 ^ 20) :
    s.walk T.pageDirectory v = rightsOf (s.entry T v) := by
  have hslot : v / 1024 < 1024 := by omega
  have hword := hlenient _ hslot
  rw [walk, entry, table]
  generalize hpde : s.mem.read32 (T.pageDirectory + 4 * (v / 1024)) = pde at hword
  have hlt : pde < 2 ^ 32 := hpde ▸ read32_lt _ _
  by_cases hodd : pde % 2 = 1
  · have hbits : pde.testBit 1 = true ∧ pde.testBit 2 = true := by
      have hseven := hword hodd
      rw [Nat.testBit_eq_decide_div_mod_eq, Nat.testBit_eq_decide_div_mod_eq, decide_eq_true_eq,
        decide_eq_true_eq]
      omega
    rw [if_neg (present_ne_zero.mpr hodd), frameOf, if_pos hodd, frame_mask hlt, hbits.1, hbits.2]
    simp only [Option.map_some, Bool.true_and]
    generalize s.mem.read32 (pde / 4096 * 4096 + 4 * (v % 1024)) = pte
    rw [rightsOf]
    by_cases hpte : pte % 2 = 1
    · rw [if_neg (present_ne_zero.mpr hpte), if_pos hpte]
    · rw [if_pos (not_not.mp (mt present_ne_zero.mp hpte)), if_neg hpte]
  · rw [if_pos (not_not.mp (mt present_ne_zero.mp hodd)), frameOf, if_neg hodd]
    rfl

theorem Lenient.congr (h : s.Lenient T)
    (hmem : ∀ a, s.TablePage T (a / 4096) → s'.mem a = s.mem a) : s'.Lenient T := by
  intro i hi
  have haligned := T.directory_aligned
  have hword : s'.mem.read32 (T.pageDirectory + 4 * i) =
      s.mem.read32 (T.pageDirectory + 4 * i) := by
    apply readLE_congr
    intro a hlo hhi
    exact hmem a (.inl (by omega))
  rw [hword]
  exact h i hi

/-- Tables with the same words are the same to the processor. -/
theorem walk_congr (h : s.Lenient T) (h' : s'.Lenient T) (hv : v < 2 ^ 20)
    (hentry : s'.entry T v = s.entry T v) :
    s'.walk T.pageDirectory v = s.walk T.pageDirectory v := by
  rw [walk_eq h' hv, walk_eq h hv, hentry]

/-- A word written into a table is not one of the directory. -/
theorem Lenient.write (h : s.Lenient T) (hok : s.Ok T) (hi : i < 1024)
    (ht : s.table T i = some t) {j : ℕ} (hj : j < 1024) (e : ℕ) (pmm : Pmm)
    (cleared : List ℕ) :
    (⟨s.mem.write32 (t + 4 * j) e, pmm, cleared⟩ : Mm).Lenient T := by
  intro k hk
  have hapart := words_apart (j := k) (k := j) T.directory_aligned (table_aligned ht)
    (hok.apart i hi t ht).symm hk hj
  have hsame : (s.mem.write32 (t + 4 * j) e).read32 (T.pageDirectory + 4 * k)
      = s.mem.read32 (T.pageDirectory + 4 * k) := read32_write32_of_disjoint hapart
  rw [hsame]
  exact h k hk

/-- A new table is entered with all rights. -/
theorem Lenient.withTable (h : s.Lenient T) (hok : s.Ok T) (ht : 4096 ∣ t)
    (hpage : t / 4096 ∈ s.pmm.freePages) (i : ℕ) (pmm : Pmm) (cleared : List ℕ) :
    (⟨Mm.withTable T s.mem i t, pmm, cleared⟩ : Mm).Lenient T := by
  intro k hk
  change (Mm.withTable T s.mem i t).read32 _ % 2 = 1 → (Mm.withTable T s.mem i t).read32 _ % 8 = 7
  rw [read32_withTable hok ht hpage i hk]
  split_ifs
  · omega
  · exact h k hk

theorem Lenient.getPt (h : s.Lenient T) (hok : s.Ok T) (virt : ℕ) (create : Bool) :
    (s.getPt T virt create).2.Lenient T := by
  rw [Mm.getPt]
  dsimp only
  split
  case isTrue => exact h
  case isFalse =>
    split
    case isTrue => exact h
    case isFalse =>
      split
      case isTrue => exact h
      case isFalse hnull =>
        rcases s.pmm.pmmAlloc_spec with ⟨-, hzero⟩ | ⟨p, hp, -, hsome⟩
        · rw [hzero] at hnull
          exact absurd rfl hnull
        · have hdvd : 4096 ∣ p * pageSize := Nat.dvd_mul_left _ _
          have hdiv : p * pageSize / 4096 = p := Pmm.page_mul_div p
          rw [hsome, table_word hdvd]
          exact h.withTable hok hdvd (by rwa [hdiv]) (pageDirIndex virt) (s.pmm.take p)
            (p * pageSize :: s.cleared)

/-- A table made by `get_pt` has no entries. -/
theorem getPt_entry (hok : s.Ok T) (hvirt : virt < 2 ^ 32) (create : Bool) (w : ℕ)
    (hw : w < 2 ^ 20) : (s.getPt T virt create).2.entry T w = s.entry T w := by
  rcases hold : s.table T (virt / 4096 / 1024) with - | t
  · cases create with
    | false => rw [getPt_of_none hvirt hold]
    | true =>
        rcases getPt_create hok hvirt with ⟨t, ht, -⟩ | ⟨-, ⟨t, s', hget, hnew⟩ | ⟨hget, -⟩⟩
        · rw [hold] at ht
          cases ht
        · rw [hget]
          exact hnew.entry w hw
        · rw [hget]
          rfl
  · rw [getPt_of_table hvirt create hold]

/-- Without `create` nothing changes. -/
theorem getPt_snd (s : Mm) (virt : ℕ) : (s.getPt T virt false).2 = s := by
  rw [getPt]
  dsimp only
  by_cases hpresent : s.mem.read32 (T.pageDirectory + 4 * pageDirIndex virt) &&& pagePresent ≠ 0
  · rw [if_pos hpresent]
  · rw [if_neg hpresent, if_pos rfl]

/-- A missing table is made in the next frame. -/
theorem getPt_of_alloc (hvirt : virt < 2 ^ 32) (h : s.table T (virt / 4096 / 1024) = none) :
    (s.getPt T virt true).1 = s.pmm.pmmAlloc.1 := by
  rw [getPt, pageDirIndex_eq hvirt, if_neg (not_present_of_table h), if_neg (by decide)]
  dsimp only
  split_ifs with hnull
  · exact hnull.symm
  · rfl

/-- A frame for a new table is in no table yet. -/
theorem Ok.alloc_page (h : s.Ok T) (hne : s.pmm.pmmAlloc.1 ≠ 0) :
    4096 ∣ s.pmm.pmmAlloc.1 ∧ s.pmm.pmmAlloc.1 / 4096 < 2 ^ 20 ∧
      ¬s.TablePage T (s.pmm.pmmAlloc.1 / 4096) := by
  rcases s.pmm.pmmAlloc_spec with ⟨-, hzero⟩ | ⟨p, hp, -, hsome⟩
  · rw [hzero] at hne
    exact absurd rfl hne
  · have hlt := (Pmm.mem_freePages.mp hp).1
    have hdiv : p * pageSize / 4096 = p := Pmm.page_mul_div p
    rw [hsome, hdiv]
    rw [totalPages] at hlt
    exact ⟨Nat.dvd_mul_left _ _, by omega, fun htable ↦ h.used p htable hp⟩

theorem Ok.getPt_page (h : s.Ok T) (virt : ℕ) (create : Bool) :
    4096 ∣ (s.getPt T virt create).1 ∧ (s.getPt T virt create).1 / 4096 < 2 ^ 20 := by
  have hlt := read32_lt s.mem (T.pageDirectory + 4 * pageDirIndex virt)
  rw [getPt]
  dsimp only
  split_ifs with hpresent hcreate hnull
  · rw [frame_mask hlt]
    exact ⟨Nat.dvd_mul_left _ _, by omega⟩
  · exact ⟨dvd_zero _, by norm_num⟩
  · exact ⟨dvd_zero _, by norm_num⟩
  · obtain ⟨hdvd, hpage, -⟩ := h.alloc_page hnull
    exact ⟨hdvd, hpage⟩

/-- What a `vmm_map` that succeeds writes, word by word. -/
theorem vmmMap_words (h : s.Ok T) (hlenient : s.Lenient T) (hvirt : virt < 2 ^ 32)
    (hphys : phys < 2 ^ 32) (hr : (s.vmmMap T virt phys flags).1 = 0) :
    4096 ∣ phys ∧ (s.vmmMap T virt phys flags).2.Lenient T ∧
      ∀ w < 2 ^ 20, (s.vmmMap T virt phys flags).2.entry T w =
        if w = virt / 4096 then phys &&& 0xFFFFF000 ||| flags &&& 0xFFF ||| pagePresent
        else s.entry T w := by
  have hgot := hlenient.getPt h virt true
  rw [vmmMap] at hr ⊢
  by_cases haligned : (virt ||| phys) &&& 0xFFF = 0
  · rw [if_neg (not_not.mpr haligned)] at hr ⊢
    obtain ⟨hva, hpa⟩ := aligned_iff.mp haligned
    obtain ⟨hword, -⟩ := mapped_word hphys hpa flags
    have hv : virt / 4096 < 2 ^ 20 := by omega
    have hindex : virt / 4096 % 1024 < 1024 := Nat.mod_lt _ (by norm_num)
    refine ⟨hpa, ?_⟩
    rw [pageTblIndex_eq] at hr ⊢
    rcases getPt_create h hvirt with
      ⟨t, ht, hget⟩ | ⟨-, ⟨t, s₁, hget, hnew⟩ | ⟨hget, hnull⟩⟩
    · simp only [hget, if_neg (h.pos _ (slot_lt hvirt) t ht)]
      exact ⟨hlenient.write h (slot_lt hvirt) ht hindex _ _ _, (entry_write h hv ht hword rfl).2⟩
    · simp only [hget, if_neg hnew.pos]
      rw [hget] at hgot
      refine ⟨hgot.write hnew.ok (slot_lt hvirt) hnew.table hindex _ _ _, fun w hw ↦ ?_⟩
      rw [(entry_write hnew.ok hv hnew.table hword rfl).2 w hw, hnew.entry w hw]
    · simp only [hget, if_true] at hr
      exact absurd hr (by decide)
  · rw [if_pos haligned] at hr
    exact absurd hr (by simp)

theorem vmmUnmap_words (h : s.Ok T) (hlenient : s.Lenient T) (hvirt : virt < 2 ^ 32) :
    (s.vmmUnmap T virt).Lenient T ∧ ∀ w < 2 ^ 20,
      (s.vmmUnmap T virt).entry T w = if w = virt / 4096 then 0 else s.entry T w := by
  have hv : virt / 4096 < 2 ^ 20 := by omega
  rw [vmmUnmap]
  rcases hold : s.table T (virt / 4096 / 1024) with - | t
  · rw [getPt_of_none hvirt hold, if_pos rfl]
    refine ⟨hlenient, fun w hw ↦ ?_⟩
    split
    case isTrue hwv => rw [hwv, entry_of_none hold]
    case isFalse => rfl
  · have hindex : virt / 4096 % 1024 < 1024 := Nat.mod_lt _ (by norm_num)
    rw [getPt_of_table hvirt false hold, if_neg (h.pos _ (slot_lt hvirt) t hold), pageTblIndex_eq]
    exact ⟨hlenient.write h (slot_lt hvirt) hold hindex _ _ _,
      (entry_write h hv hold (by norm_num) rfl).2⟩

theorem pagingInit_lenient (T : Tables) (s : Mm) : (s.pagingInit T).Lenient T := by
  have htaligned := T.table_aligned
  intro i hi
  rw [pagingInit_directory T s hi]
  split
  · omega
  · omega

end Mm

/-! ## Tables that are mapped to themselves -/

namespace Mmu

/-- Page `p` is mapped to the frame of the same number. -/
def Own (m : Mmu) (p : ℕ) : Prop := ∃ r, m.rights p = some r ∧ r.frame = p

theorem Own.access (h : m.Own (a / 4096)) (write : Bool) : m.access false write a = some a := by
  obtain ⟨r, hr, hframe⟩ := h
  have hallows : r.allows false write = true := rfl
  have haddr : a / 4096 * 4096 + a % 4096 = a := Nat.div_add_mod' a 4096
  rw [Mmu.access, hr]
  simp only [hallows, if_true, hframe, haddr]

theorem Own.load (h : m.Own (a / 4096)) : m.load a = some (m.mm.mem.read32 a) := by
  rw [Mmu.load, h.access, Option.map_some]

theorem Own.store (h : m.Own (a / 4096)) (e : ℕ) :
    m.store a e = some { m with mm := { m.mm with mem := m.mm.mem.write32 a e } } := by
  rw [Mmu.store, h.access, Option.map_some]

/-- Mappings stay where the words of the tables do. -/
theorem Own.congr (h : m.Own p) (htlb : m'.tlb = m.tlb)
    (hwalk : m'.mm.walk m'.cr3 p = m.mm.walk m.cr3 p) : m'.Own p := by
  obtain ⟨r, hr, hframe⟩ := h
  refine ⟨r, ?_, hframe⟩
  rw [rights] at hr ⊢
  rw [htlb, hwalk]
  exact hr

/-- While a free frame is cleared, all pages stay mapped as they are. -/
theorem own_cleared (hlenient : m.mm.Lenient T) (hcr3 : m.cr3 = T.pageDirectory)
    (haligned : 4096 ∣ pt) (hfree : ¬m.mm.TablePage T (pt / 4096)) (hn : n ≤ 1024)
    (hp : p < 2 ^ 20) (hown : m.Own p) :
    Own { m with mm := { m.mm with mem := m.mm.mem.fillWords pt (fun _ ↦ 0) n } } p := by
  have hmem : ∀ a, m.mm.TablePage T (a / 4096) →
      m.mm.mem.fillWords pt (fun _ ↦ 0) n a = m.mm.mem a := by
    intro a ha
    apply fillWords_apply_of_notMem
    by_contra hin
    have hsame : a / 4096 = pt / 4096 := by omega
    exact hfree (hsame ▸ ha)
  refine hown.congr rfl ?_
  rw [hcr3]
  exact Mm.walk_congr hlenient (hlenient.congr hmem) hp ((Mm.tables_congr hmem).2 p hp)

theorem clear_eq (hlenient : m.mm.Lenient T) (hcr3 : m.cr3 = T.pageDirectory)
    (haligned : 4096 ∣ pt) (hpage : pt / 4096 < 2 ^ 20) (hfree : ¬m.mm.TablePage T (pt / 4096))
    (hown : m.Own (pt / 4096)) (hn : n ≤ 1024) :
    m.clear pt n =
      some { m with mm := { m.mm with mem := m.mm.mem.fillWords pt (fun _ ↦ 0) n } } := by
  induction n with
  | zero => rfl
  | succ n ih =>
      have hdiv : (pt + 4 * n) / 4096 = pt / 4096 := by omega
      have hown' := own_cleared hlenient hcr3 haligned hfree (n := n) (by omega) hpage hown
      rw [← hdiv] at hown'
      rw [clear, ih (by omega), Option.bind_some, hown'.store, fillWords]

/-- A table made by `get_pt` maps nothing yet. -/
theorem own_getPt (hok : m.mm.Ok T) (hlenient : m.mm.Lenient T) (hcr3 : m.cr3 = T.pageDirectory)
    (hvirt : virt < 2 ^ 32) (create : Bool) (hp : p < 2 ^ 20) (hown : m.Own p) :
    Own { m with mm := (m.mm.getPt T virt create).2 } p := by
  refine hown.congr rfl ?_
  rw [hcr3]
  exact Mm.walk_congr hlenient (hlenient.getPt hok virt create) hp
    (Mm.getPt_entry hok hvirt create p hp)

/-- `get_pt` does under translation what it does with the physical addresses. -/
theorem getPt_eq (hok : m.mm.Ok T) (hlenient : m.mm.Lenient T) (hcr3 : m.cr3 = T.pageDirectory)
    (hvirt : virt < 2 ^ 32) {create : Bool} (huses : ∀ p, m.mm.Uses T virt create p → m.Own p) :
    m.getPt T virt create = some ((m.mm.getPt T virt create).1,
      { m with mm := (m.mm.getPt T virt create).2 }) := by
  have haligned := T.directory_aligned
  have hpdi : pageDirIndex virt < 1024 := by
    rw [pageDirIndex_eq hvirt]
    exact Mm.slot_lt hvirt
  have hword : (T.pageDirectory + 4 * pageDirIndex virt) / 4096 = T.pageDirectory / 4096 := by omega
  have hdir : m.Own (T.pageDirectory / 4096) := huses _ (Or.inl rfl)
  have hpt : (m.mm.getPt T virt create).1 ≠ 0 → m.Own ((m.mm.getPt T virt create).1 / 4096) :=
    fun hne ↦ huses _ (Or.inr ⟨hne, rfl⟩)
  have hload := Own.load (m := m) (a := T.pageDirectory + 4 * pageDirIndex virt) (by rwa [hword])
  rw [Mm.getPt] at hpt ⊢
  simp only [Mmu.getPt, hload, Option.bind_eq_bind, Option.bind_some] at hpt ⊢
  split_ifs at hpt ⊢ with hpresent hcreate hnull
  · rfl
  · rfl
  · rfl
  · obtain ⟨hdvd, hpage, hfree⟩ := hok.alloc_page hnull
    have hdir20 : T.pageDirectory / 4096 < 2 ^ 20 := by
      have hlow := T.directory_low
      omega
    set m₁ : Mmu := { m with mm := { m.mm with
      pmm := m.mm.pmm.pmmAlloc.2
      cleared := m.mm.pmm.pmmAlloc.1 :: m.mm.cleared } }
    have hcleared := clear_eq (m := m₁) hlenient hcr3 hdvd hpage hfree (hpt hnull) (le_refl 1024)
    have hdir' := own_cleared (m := m₁) hlenient hcr3 hdvd hfree (le_refl 1024) hdir20 hdir
    rw [← hword] at hdir'
    rw [hcleared, Option.bind_some, hdir'.store]
    rfl

/-- The word of a page is written where the table is. -/
theorem store_getPt (hok : m.mm.Ok T) (hlenient : m.mm.Lenient T) (hcr3 : m.cr3 = T.pageDirectory)
    (hvirt : virt < 2 ^ 32) {create : Bool} (huses : ∀ p, m.mm.Uses T virt create p → m.Own p)
    (hne : (m.mm.getPt T virt create).1 ≠ 0) (e : ℕ) :
    Mmu.store { m with mm := (m.mm.getPt T virt create).2 }
        ((m.mm.getPt T virt create).1 + 4 * pageTblIndex virt) e =
      some { m with mm := { (m.mm.getPt T virt create).2 with
        mem := (m.mm.getPt T virt create).2.mem.write32
          ((m.mm.getPt T virt create).1 + 4 * pageTblIndex virt) e } } := by
  obtain ⟨hdvd, hpage⟩ := hok.getPt_page virt create
  have hindex : pageTblIndex virt < 1024 := by
    rw [pageTblIndex_eq]
    exact Nat.mod_lt _ (by norm_num)
  have hdiv : ((m.mm.getPt T virt create).1 + 4 * pageTblIndex virt) / 4096 =
      (m.mm.getPt T virt create).1 / 4096 := by omega
  have hown := own_getPt hok hlenient hcr3 hvirt create hpage (huses _ (Or.inr ⟨hne, rfl⟩))
  rw [← hdiv] at hown
  exact hown.store e

theorem vmmMap_eq (hok : m.mm.Ok T) (hlenient : m.mm.Lenient T) (hcr3 : m.cr3 = T.pageDirectory)
    (hvirt : virt < 2 ^ 32) (huses : ∀ p, m.mm.Uses T virt true p → m.Own p) (phys flags : ℕ) :
    m.vmmMap T virt phys flags = some ((m.mm.vmmMap T virt phys flags).1,
      { m with mm := (m.mm.vmmMap T virt phys flags).2 }) := by
  rw [Mmu.vmmMap, Mm.vmmMap]
  split_ifs with haligned
  · rfl
  · rw [getPt_eq hok hlenient hcr3 hvirt huses, Option.bind_eq_bind, Option.bind_some]
    by_cases hnull : (m.mm.getPt T virt true).1 = 0
    · simp only [if_pos hnull]
    · simp only [if_neg hnull, store_getPt hok hlenient hcr3 hvirt huses hnull,
        Option.bind_eq_bind, Option.bind_some]

theorem vmmUnmap_eq (hok : m.mm.Ok T) (hlenient : m.mm.Lenient T) (hcr3 : m.cr3 = T.pageDirectory)
    (hvirt : virt < 2 ^ 32) (huses : ∀ p, m.mm.Uses T virt false p → m.Own p) :
    m.vmmUnmap T virt = some (decide ((m.mm.getPt T virt false).1 ≠ 0),
      { m with mm := m.mm.vmmUnmap T virt }) := by
  rw [Mmu.vmmUnmap, Mm.vmmUnmap, getPt_eq hok hlenient hcr3 hvirt huses, Option.bind_eq_bind,
    Option.bind_some]
  by_cases hnull : (m.mm.getPt T virt false).1 = 0
  · simp only [hnull, if_true, Mm.getPt_snd, ne_eq, not_true_eq_false, decide_false]
  · have hstore := store_getPt hok hlenient hcr3 hvirt huses hnull 0
    rw [Mm.getPt_snd] at hstore ⊢
    simp only [if_neg hnull, hstore, Option.bind_eq_bind, Option.bind_some, decide_eq_true hnull]

end Mmu

/-! ## Coherence -/

theorem rightsOf_granted (hphys : phys < 2 ^ 32) (haligned : 4096 ∣ phys) (flags : ℕ) :
    rightsOf (phys &&& 0xFFFFF000 ||| flags &&& 0xFFF ||| pagePresent)
      = some (Asked.granted phys flags) := by
  obtain ⟨-, hframe⟩ := mapped_word hphys haligned flags
  obtain ⟨hodd, hdiv⟩ := frameOf_eq_some.mp hframe
  have hbit : ∀ j, j = 1 ∨ j = 2 →
      (phys &&& 0xFFFFF000 ||| flags &&& 0xFFF ||| pagePresent).testBit j = flags.testBit j := by
    intro j hj
    have hmasks : Nat.testBit 0xFFFFF000 j = false ∧ Nat.testBit 0xFFF j = true ∧
        pagePresent.testBit j = false := by
      rcases hj with rfl | rfl
      · decide
      · decide
    rw [Nat.testBit_or, Nat.testBit_or, Nat.testBit_and, Nat.testBit_and, hmasks.1, hmasks.2.1,
      hmasks.2.2, Bool.and_false, Bool.false_or, Bool.and_true, Bool.or_false]
  rw [rightsOf, if_pos hodd, hdiv, hbit 1 (.inl rfl), hbit 2 (.inr rfl), Asked.granted]

theorem rightsOf_add_seven (v : ℕ) : rightsOf (v * 4096 + 7) = some ⟨v, true, true⟩ := by
  have hbit : ∀ j, j = 1 ∨ j = 2 → (v * 4096 + 7).testBit j = true := by
    rintro j (rfl | rfl)
    · rw [Nat.testBit_eq_decide_div_mod_eq, decide_eq_true_eq]
      omega
    · rw [Nat.testBit_eq_decide_div_mod_eq, decide_eq_true_eq]
      omega
  have hdiv : (v * 4096 + 7) / 4096 = v := by omega
  rw [rightsOf, if_pos (by omega), hbit 1 (.inl rfl), hbit 2 (.inr rfl), hdiv]

/-- The tables say what was asked for, and so does what the processor has kept, of every page that
it need not forget. -/
structure Coherent (T : Tables) (m : Mmu) (φ : Asked) (P : Set ℕ) : Prop where
  ok : m.mm.Ok T
  lenient : m.mm.Lenient T
  cr3 : m.cr3 = T.pageDirectory
  words : ∀ v < 2 ^ 20, rightsOf (m.mm.entry T v) = φ v
  kept : ∀ v ∉ P, ∀ r, m.tlb v = some r → φ v = some r

theorem Coherent.walk (h : Coherent T m φ P) (hv : v < 2 ^ 20) : m.mm.walk m.cr3 v = φ v := by
  rw [h.cr3, Mm.walk_eq h.lenient hv, h.words v hv]

/-- What the processor goes by for a page that no call is changing. -/
theorem Coherent.rights (h : Coherent T m φ P) (hv : v < 2 ^ 20) (hnot : v ∉ P) :
    m.rights v = φ v := by
  rw [Mmu.rights]
  cases hkept : m.tlb v with
  | some r => exact (h.kept v hnot r hkept).symm
  | none => exact h.walk hv

/-- The calls find their tables where these are mapped to themselves. -/
theorem Coherent.own (h : Coherent T m φ P) {create : Bool}
    (hflat : ∀ p, m.mm.Uses T virt create p → φ.Flat P p) (hp : m.mm.Uses T virt create p) :
    m.Own p := by
  obtain ⟨hnot, r, hr, hframe⟩ := hflat p hp
  have hp20 : p < 2 ^ 20 := by
    rcases hp with rfl | ⟨-, rfl⟩
    · have hlow := T.directory_low
      omega
    · exact (h.ok.getPt_page virt create).2
  exact ⟨r, (h.rights hp20 hnot).trans hr, hframe⟩

/-- A page that the processor has forgotten. -/
theorem Coherent.forget (h : Coherent T m φ P) (v : ℕ) :
    Coherent T (m.invlpg v) φ (P \ {v}) where
  ok := h.ok
  lenient := h.lenient
  cr3 := h.cr3
  words := h.words
  kept := by
    intro w hw r hr
    by_cases hwv : w = v
    · rw [hwv, Mmu.invlpg_self] at hr
      cases hr
    · rw [Mmu.invlpg_of_ne m hwv] at hr
      exact h.kept w (fun hmem ↦ hw ⟨hmem, hwv⟩) r hr

/-- A page asked for anew, which the processor may still know otherwise. -/
theorem Coherent.kept_insert (h : Coherent T m φ P) (v : ℕ) (r' : Option Rights) :
    ∀ w ∉ insert v P, ∀ r, m.tlb w = some r → Function.update φ v r' w = some r := by
  intro w hw r hr
  rw [Set.mem_insert_iff, not_or] at hw
  rw [Function.update_of_ne hw.1]
  exact h.kept w hw.2 r hr

theorem Translates.coherent (h : Translates T m φ P) : Coherent T m φ P := by
  induction h with
  | init s hdir hfirst =>
      refine ⟨(Mm.pagingInit_spec T s hdir hfirst).1, Mm.pagingInit_lenient T s, rfl,
        fun v hv ↦ ?_, ?_⟩
      · rw [Mmu.pagingInit, Mm.pagingInit_entry T s hv, Asked.identity]
        split
        · exact rightsOf_add_seven v
        · rfl
      · intro v _ r hr
        cases hr
  | fill v _ hv ih =>
      refine ⟨ih.ok, ih.lenient, ih.cr3, ih.words, ?_⟩
      intro w hw r hr
      by_cases hwv : w = v
      · rw [hwv, Mmu.fill_self, ih.walk hv] at hr
        rw [hwv, hr]
      · rw [Mmu.fill_of_ne _ hwv] at hr
        exact ih.kept w hw r hr
  | forget v _ ih =>
      have hless := ih.forget v
      exact ⟨hless.ok, hless.lenient, hless.cr3, hless.words,
        fun w hw ↦ hless.kept w fun hmem ↦ hw hmem.1⟩
  | map flags _ hvirt hphys hflat hrun ih =>
      rw [Mmu.vmmMap_eq ih.ok ih.lenient ih.cr3 hvirt fun p hp ↦ ih.own hflat hp] at hrun
      obtain ⟨hr, rfl⟩ := Prod.ext_iff.mp (Option.some.inj hrun)
      dsimp only at hr
      obtain ⟨hpa, hlenient, hwords⟩ := Mm.vmmMap_words ih.ok ih.lenient hvirt hphys hr
      rcases Mm.vmmMap_spec ih.ok hvirt hphys flags with ⟨hneg, -⟩ | ⟨-, -, -, hmapped⟩
      · rw [hr] at hneg
        exact absurd hneg (by decide)
      · refine ⟨hmapped.ok, hlenient, ih.cr3, fun v hv ↦ ?_, ih.kept_insert _ _⟩
        rw [hwords v hv, Function.update_apply]
        split
        · exact rightsOf_granted hphys hpa flags
        · exact ih.words v hv
  | mapFails _ hvirt hphys hflat hrun hr ih =>
      rw [Mmu.vmmMap_eq ih.ok ih.lenient ih.cr3 hvirt fun p hp ↦ ih.own hflat hp] at hrun
      obtain ⟨rfl, rfl⟩ := Prod.ext_iff.mp (Option.some.inj hrun)
      rcases Mm.vmmMap_spec ih.ok hvirt hphys _ with ⟨-, hsame⟩ | ⟨hzero, -⟩
      · refine ⟨hsame.ok ih.ok, ?_, ih.cr3, fun v hv ↦ ?_, ih.kept⟩
        · rw [Mm.Lenient, hsame.mem]
          exact ih.lenient
        · rw [Mm.entry, hsame.table, hsame.mem]
          exact ih.words v hv
      · exact absurd hzero hr
  | unmap _ hvirt hflat hrun ih =>
      rw [Mmu.vmmUnmap_eq ih.ok ih.lenient ih.cr3 hvirt fun p hp ↦ ih.own hflat hp] at hrun
      obtain ⟨-, rfl⟩ := Prod.ext_iff.mp (Option.some.inj hrun)
      obtain ⟨hlenient, hwords⟩ := Mm.vmmUnmap_words ih.ok ih.lenient hvirt
      refine ⟨(Mm.vmmUnmap_spec ih.ok hvirt).1, hlenient, ih.cr3, fun v hv ↦ ?_,
        ih.kept_insert _ _⟩
      rw [hwords v hv, Function.update_apply]
      split
      · rfl
      · exact ih.words v hv
  | @unmapNothing m m' φ P virt _ hvirt hflat hrun ih =>
      rw [Mmu.vmmUnmap_eq ih.ok ih.lenient ih.cr3 hvirt fun p hp ↦ ih.own hflat hp] at hrun
      obtain ⟨hnothing, rfl⟩ := Prod.ext_iff.mp (Option.some.inj hrun)
      have hnone : (m.mm.getPt T virt false).1 = 0 := by simpa using hnothing
      have hkeep : m.mm.vmmUnmap T virt = m.mm := if_pos hnone
      have htable : m.mm.table T (virt / 4096 / 1024) = none := by
        rcases hold : m.mm.table T (virt / 4096 / 1024) with - | t
        · rfl
        · rw [Mm.getPt_of_table hvirt false hold] at hnone
          exact absurd hnone (ih.ok.pos _ (Mm.slot_lt hvirt) t hold)
      have hpage : φ (virt / 4096) = none := by
        rw [← ih.words _ (by omega), Mm.entry_of_none htable]
        rfl
      have hsame : Function.update φ (virt / 4096) none = φ :=
        Function.update_eq_self_iff.mpr hpage.symm
      rw [hsame]
      exact hkeep.symm ▸ ih
  | invlpg _ _ ih => exact ih.forget _
  | @other m s φ P _ hmem hused ih =>
      obtain ⟨htable, hentry⟩ := Mm.tables_congr hmem
      refine ⟨ih.ok.congr htable hused, ih.lenient.congr hmem, ih.cr3, fun v hv ↦ ?_, ih.kept⟩
      rw [hentry v hv]
      exact ih.words v hv

/-- Whatever the processor reads ahead, keeps or forgets, and however the calls of several tasks
are interleaved, as long as each finds the frames of its tables mapped to themselves: an access to
a page that no call is just changing goes where the last call that named the page said, and faults
exactly when that call did not allow it.  The calls themselves do not fault. -/
theorem access_as_asked (h : Translates T m φ P) :
    (∀ user write, ∀ a < 2 ^ 32, a / 4096 ∉ P →
      m.access user write a = φ.access user write a) ∧
    ∀ virt < 2 ^ 32,
      ((∀ p, m.mm.Uses T virt true p → φ.Flat P p) →
        ∀ phys flags, ∃ r m', m.vmmMap T virt phys flags = some (r, m')) ∧
      ((∀ p, m.mm.Uses T virt false p → φ.Flat P p) →
        ∃ r m', m.vmmUnmap T virt = some (r, m')) := by
  have hco := h.coherent
  refine ⟨fun user write a ha hpage ↦ ?_, fun virt hvirt ↦ ⟨fun hflat phys flags ↦ ?_,
    fun hflat ↦ ?_⟩⟩
  · rw [Mmu.access, hco.rights (by omega) hpage, Asked.access]
  · exact ⟨_, _, Mmu.vmmMap_eq hco.ok hco.lenient hco.cr3 hvirt (fun p hp ↦ hco.own hflat hp)
      phys flags⟩
  · exact ⟨_, _, Mmu.vmmUnmap_eq hco.ok hco.lenient hco.cr3 hvirt fun p hp ↦ hco.own hflat hp⟩

/-- The processor just after `paging_init`, with two free frames at 1 MB. -/
def flatMmu : Mmu := Mmu.pagingInit lowTables ⟨fun _ ↦ 0, Pmm.unset.pmmInit Pmm.twoPages, []⟩

theorem flatMmu_mm : flatMmu.mm = twoFrames := by
  rw [flatMmu, twoFrames, Mm.boot, Mmu.pagingInit]

theorem flatMmu_translates : Translates lowTables flatMmu Asked.identity ∅ := by
  have hdir := low_not_free Pmm.unset Pmm.twoPages lowTables.directory_low
  have hfirst := low_not_free Pmm.unset Pmm.twoPages lowTables.table_low
  rw [flatMmu]
  generalize Pmm.unset.pmmInit Pmm.twoPages = pmm at hdir hfirst ⊢
  exact .init _ hdir hfirst

/-- The table of the page at 8 MB goes into the frame at 1 MB, which is mapped to itself. -/
theorem flatMmu_flat (hp : flatMmu.mm.Uses lowTables 0x800000 true p) :
    Asked.identity.Flat ∅ p := by
  have hfirst : twoFrames.pmm.pmmAlloc.1 = 0x100000 := by
    rw [twoFrames, Mm.boot_pmm]
    decide +kernel
  have hnone : twoFrames.table lowTables (0x800000 / 4096 / 1024) = none :=
    twoFrames_tables (by norm_num) (by norm_num)
  have hpt : (twoFrames.getPt lowTables 0x800000 true).1 = twoFrames.pmm.pmmAlloc.1 :=
    Mm.getPt_of_alloc (by norm_num) hnone
  rw [flatMmu_mm, Mm.Uses, hpt, hfirst] at hp
  rcases hp with rfl | ⟨-, rfl⟩
  · exact ⟨Set.notMem_empty _, ⟨0x20, true, true⟩, rfl, rfl⟩
  · exact ⟨Set.notMem_empty _, ⟨0x100, true, true⟩, rfl, rfl⟩

/-- The processor has read ahead the page of the directory itself, which is a page that ring 3 can
write; and after a call and its `invlpg` it finds a page for the kernel alone. -/
theorem access_as_asked_directory : ∃ (m : Mmu) (φ : Asked) (P : Set ℕ),
    Translates lowTables m φ P ∧ m.tlb 0x20 = some ⟨0x20, true, true⟩ ∧
      m.access true true (lowTables.pageDirectory + 4) = some 0x20004 ∧
      m.access false true 0x800004 = some 0x5004 ∧ m.access true false 0x800004 = none := by
  have hco := flatMmu_translates.coherent
  have hrun : flatMmu.vmmMap lowTables 0x800000 0x5000 pageRw = _ :=
    Mmu.vmmMap_eq hco.ok hco.lenient hco.cr3 (by norm_num)
      (fun p hp ↦ hco.own (fun _ ↦ flatMmu_flat) hp) 0x5000 pageRw
  rw [flatMmu_mm, oneFrame_spec.1] at hrun
  have hmap := flatMmu_translates.map pageRw (by norm_num) (by norm_num) (fun _ ↦ flatMmu_flat) hrun
  have hfill := (hmap.invlpg (Set.mem_insert _ _)).fill 0x20 (by norm_num)
  refine ⟨_, _, _, hfill, ?_, ?_, ?_, ?_⟩
  · rw [Mmu.fill_self, (hmap.invlpg (Set.mem_insert _ _)).coherent.walk (by norm_num)]
    rfl
  · rw [(access_as_asked hfill).1 true true _ (by decide) (by simp)]
    rfl
  · rw [(access_as_asked hfill).1 false true _ (by decide) (by simp)]
    rfl
  · rw [(access_as_asked hfill).1 true false _ (by decide) (by simp)]
    rfl

end MyOS
