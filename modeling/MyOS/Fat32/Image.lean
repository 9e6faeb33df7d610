import MyOS.Fat32.Model
import MyOS.Lib.Walk

/-!
# What is on a volume

`Image` is a volume without its sectors: the links of the FAT and the bytes of the clusters.
The directory tree is read off an image from its root.  `Image.Intact` says when the tree and
its chains fit together, and `Image.WellFormed` that the FAT holds nothing else.
-/

namespace MyOS.Fat32

namespace Dirent

variable (e : Dirent)

def Used : Prop := first e ≠ 0 ∧ first e ≠ 0xE5

/-- The slot holds an entry that the driver does not skip. -/
def Live : Prop := Used e ∧ attr e ≠ fatAttrLfn ∧ attr e &&& fatAttrVolumeId = 0

def IsDot : Prop := name e = dotName ∨ name e = dotdotName

instance : Decidable (Used e) := inferInstanceAs (Decidable (_ ∧ _))
instance : Decidable (Live e) := inferInstanceAs (Decidable (_ ∧ _ ∧ _))
instance : Decidable (IsDot e) := inferInstanceAs (Decidable (_ ∨ _))

end Dirent

theorem direntAt_congr {sec sec' : Bytes} {off off' : ℕ}
    (h : ∀ k < 32, sec (off + k) = sec' (off' + k)) : direntAt sec off = direntAt sec' off' := by
  funext k
  rw [direntAt, direntAt]
  split_ifs with hk
  · exact h k hk
  · rfl

/-- A slot: the cluster it lies in and its number there. -/
abbrev Pos := ℕ × ℕ

structure Image where
  /-- `total_clusters`; the clusters are `2, …, total + 1` -/
  total : ℕ
  /-- directory slots of a cluster, 32 bytes each -/
  slots : ℕ
  root : ℕ
  fat : ℕ → ℕ
  data : ℕ → Bytes

/-- The mark of a bad cluster. -/
def badCluster : ℕ := 0x0FFFFFF7

namespace Image

variable (I : Image)

/-- The chain of `s` is `l`: finite, without repetition, in range and ended by an EOC value. -/
structure Chain (s : ℕ) (l : List ℕ) : Prop where
  walk : ∃ z, Walk I.fat s l z ∧ isEoc z
  nonempty : l ≠ []
  nodup : l.Nodup
  range : ∀ c ∈ l, 2 ≤ c ∧ c < I.total + 2

def slotsOf (l : List ℕ) : List Pos :=
  l.flatMap fun c ↦ (List.range I.slots).map fun i ↦ (c, i)

def entry (p : Pos) : Dirent := direntAt (I.data p.1) (32 * p.2)

/-- `d` is the start cluster of a directory that is reachable from the root. -/
inductive IsDir : ℕ → Prop
  | root : IsDir I.root
  | sub {d : ℕ} {l : List ℕ} {p : Pos} : IsDir d → I.Chain d l → p ∈ I.slotsOf l →
      (I.entry p).Live → ¬(I.entry p).IsDot → (I.entry p).isDirectory →
      IsDir (I.entry p).start

/-- Slot `p` holds a live entry, other than `.` and `..`, of a reachable directory. -/
def IsEntry (p : Pos) : Prop :=
  ∃ d l, I.IsDir d ∧ I.Chain d l ∧ p ∈ I.slotsOf l ∧ (I.entry p).Live ∧ ¬(I.entry p).IsDot

/-- The chain of the entry in slot `p`; a file may have none. -/
def EntryChain (p : Pos) (l : List ℕ) : Prop :=
  I.Chain (I.entry p).start l ∨
    l = [] ∧ (I.entry p).isDirectory = false ∧ (I.entry p).start = 0 ∧ (I.entry p).size = 0

/-- Chains are owned by the entries and by the root directory. -/
def Owns : Option Pos → List ℕ → Prop
  | none, l => I.Chain I.root l
  | some p, l => I.IsEntry p ∧ I.EntryChain p l

structure Intact : Prop where
  /-- cluster numbers are below the special FAT values -/
  small : I.total + 2 ≤ badCluster
  root_chain : ∃ l, I.Chain I.root l
  entry_chain : ∀ p, I.IsEntry p → ∃ l, I.EntryChain p l
  disjoint : ∀ o o' l l', I.Owns o l → I.Owns o' l' → o ≠ o' → l.Disjoint l'
  size_le : ∀ p l, I.IsEntry p → I.EntryChain p l → (I.entry p).isDirectory = false →
    (I.entry p).size ≤ l.length * (32 * I.slots)
  names : ∀ d l p q, I.IsDir d → I.Chain d l → p ∈ I.slotsOf l → q ∈ I.slotsOf l →
    (I.entry p).Live → (I.entry q).Live → (I.entry p).name = (I.entry q).name → p = q
  ends : ∀ d l, I.IsDir d → I.Chain d l →
    (I.slotsOf l).Pairwise fun p q ↦ (I.entry p).first = 0 → ¬(I.entry q).Used

structure WellFormed : Prop extends Intact I where
  no_leak : ∀ c, 2 ≤ c → c < I.total + 2 → I.fat c ≠ 0 → I.fat c ≠ badCluster →
    ∃ o l, I.Owns o l ∧ c ∈ l

end Image

/-! ## Changes -/

namespace Image

def setFat (I : Image) (c x : ℕ) : Image := { I with fat := Function.update I.fat c x }

/-- `I` with all links of `l` cleared. -/
def release (I : Image) (l : List ℕ) : Image :=
  { I with fat := fun c ↦ if c ∈ l then 0 else I.fat c }

/-- `I` with `n` bytes of cluster `c`, from offset `off` on, taken from `src`. -/
def patch (I : Image) (c off n : ℕ) (src : Bytes) : Image :=
  { I with data := Function.update I.data c ((I.data c).blit off n src) }

end Image

/-! ## Chains -/

namespace Image

variable {I I' : Image} {s c d d' : ℕ} {l l' : List ℕ} {p q : Pos} {o o' : Option Pos}

theorem not_isEoc_of_lt (hc : c < 0x0FFFFFF8) : isEoc c = false := by
  have hmask : c &&& 0x0FFFFFFF = c % 2 ^ 28 := Nat.and_two_pow_sub_one_eq_mod c 28
  have hle : c % 2 ^ 28 ≤ c := Nat.mod_le c _
  simp only [isEoc, hmask, decide_eq_false_iff_not]
  omega

theorem not_isEoc (hI : I.total + 2 ≤ badCluster) (hc : c < I.total + 2) : isEoc c = false := by
  rw [badCluster] at hI
  exact not_isEoc_of_lt (by omega)

theorem mem_slotsOf : p ∈ I.slotsOf l ↔ p.1 ∈ l ∧ p.2 < I.slots := by
  obtain ⟨c, i⟩ := p
  simp only [slotsOf, List.mem_flatMap, List.mem_map, List.mem_range, Prod.mk.injEq]
  constructor
  · rintro ⟨c', hc', i', hi', rfl, rfl⟩
    exact ⟨hc', hi'⟩
  · rintro ⟨hc, hi⟩
    exact ⟨c, hc, i, hi, rfl, rfl⟩

theorem nodup_slotsOf (hl : l.Nodup) : (I.slotsOf l).Nodup := by
  refine List.nodup_flatMap.mpr ⟨fun c _ ↦ ?_, ?_⟩
  · exact List.nodup_range.map fun i j hij ↦ congrArg Prod.snd hij
  · refine hl.imp_of_mem fun {c c'} _ _ hne ↦ ?_
    rintro q hq hq'
    obtain ⟨i, -, rfl⟩ := List.mem_map.mp hq
    obtain ⟨j, -, hj⟩ := List.mem_map.mp hq'
    exact hne (congrArg Prod.fst hj).symm

namespace Chain

theorem not_eoc (hI : I.total + 2 ≤ badCluster) (h : I.Chain s l) : ∀ c ∈ l, ¬isEoc c = true := by
  intro c hc
  simp [not_isEoc hI (h.range c hc).2]

theorem start_mem (h : I.Chain s l) : s ∈ l := by
  obtain ⟨z, hwalk, -⟩ := h.walk
  exact hwalk.start_mem h.nonempty

theorem unique (hI : I.total + 2 ≤ badCluster) (h : I.Chain s l) (h' : I.Chain s l') : l = l' := by
  obtain ⟨z, hwalk, hz⟩ := h.walk
  obtain ⟨z', hwalk', hz'⟩ := h'.walk
  exact hwalk.unique (h.not_eoc hI) hz hwalk' (h'.not_eoc hI) hz'

/-- A cluster on a chain has a link. -/
theorem fat_ne_zero (h : I.Chain s l) (hc : c ∈ l) : I.fat c ≠ 0 := by
  obtain ⟨z, hwalk, hz⟩ := h.walk
  rcases hwalk.next_mem_or_eq hc with hmem | hend
  · have := (h.range _ hmem).1
    omega
  · intro hzero
    rw [← hend, hzero] at hz
    simp [not_isEoc_of_lt (c := 0) (by norm_num)] at hz

theorem congr (h : I.Chain s l) (htotal : I'.total = I.total)
    (hfat : ∀ c ∈ l, I'.fat c = I.fat c) : I'.Chain s l := by
  obtain ⟨z, hwalk, hz⟩ := h.walk
  refine ⟨⟨z, hwalk.congr hfat, hz⟩, h.nonempty, h.nodup, ?_⟩
  rw [htotal]
  exact h.range

end Chain

/-- A loop that follows the links from `s` on meets the clusters `l` and then stops. -/
def Trail (I : Image) : ℕ → List ℕ → Prop
  | s, [] => isEoc s = true
  | s, c :: l => c = s ∧ 2 ≤ c ∧ c < I.total + 2 ∧ isEoc c = false ∧ I.Trail (I.fat c) l

theorem Trail.of_walk {z : ℕ} (hI : I.total + 2 ≤ badCluster) (hwalk : Walk I.fat s l z)
    (hz : isEoc z = true) (hrange : ∀ c ∈ l, 2 ≤ c ∧ c < I.total + 2) : I.Trail s l := by
  induction l generalizing s with
  | nil =>
      obtain rfl : s = z := hwalk
      exact hz
  | cons c l ih =>
      obtain ⟨rfl, hrest⟩ := hwalk
      rw [List.forall_mem_cons] at hrange
      obtain ⟨⟨hlo, hhi⟩, hrange⟩ := hrange
      exact ⟨rfl, hlo, hhi, not_isEoc hI hhi, ih hrest hrange⟩

theorem Trail.congr (h : I.Trail s l) (htotal : I'.total = I.total)
    (hfat : ∀ c ∈ l, I'.fat c = I.fat c) : I'.Trail s l := by
  induction l generalizing s with
  | nil => exact h
  | cons c l ih =>
      obtain ⟨rfl, hlo, hhi, heoc, hrest⟩ := h
      rw [List.forall_mem_cons] at hfat
      refine ⟨rfl, hlo, by rwa [htotal], heoc, ?_⟩
      rw [hfat.1]
      exact ih hrest hfat.2

theorem Chain.trail (hI : I.total + 2 ≤ badCluster) (h : I.Chain s l) : I.Trail s l := by
  obtain ⟨z, hwalk, hz⟩ := h.walk
  exact .of_walk hI hwalk hz h.range

theorem length_le_of_nodup (hl : l.Nodup) (hrange : ∀ c ∈ l, 2 ≤ c ∧ c < I.total + 2) :
    l.length ≤ I.total := by
  have hsub : l.toFinset ⊆ Finset.Ico 2 (I.total + 2) := by
    intro c hc
    have := hrange c (List.mem_toFinset.mp hc)
    exact Finset.mem_Ico.mpr this
  have hcard := Finset.card_le_card hsub
  rw [List.toFinset_card_of_nodup hl, Nat.card_Ico] at hcard
  omega

/-- The loops have fuel for every chain. -/
theorem Chain.length_lt_walkFuel (hI : I.total + 2 ≤ badCluster) (h : I.Chain s l) :
    l.length < walkFuel := by
  have hlength := length_le_of_nodup h.nodup h.range
  rw [badCluster] at hI
  rw [walkFuel]
  omega

/-! ## Owners of chains -/

theorem EntryChain.unique (hI : I.total + 2 ≤ badCluster) (h : I.EntryChain p l)
    (h' : I.EntryChain p l') : l = l' := by
  rcases h with h | ⟨rfl, -, hstart, -⟩
  · rcases h' with h' | ⟨rfl, -, hstart, -⟩
    · exact h.unique hI h'
    · have := (h.range _ h.start_mem).1
      omega
  · rcases h' with h' | ⟨rfl, -, -, -⟩
    · have := (h'.range _ h'.start_mem).1
      omega
    · rfl

theorem EntryChain.of_directory (h : I.EntryChain p l) (hdir : (I.entry p).isDirectory = true) :
    I.Chain (I.entry p).start l := by
  rcases h with h | ⟨-, hfile, -⟩
  · exact h
  · rw [hdir] at hfile
    cases hfile

theorem EntryChain.fat_ne_zero (h : I.EntryChain p l) (hc : c ∈ l) : I.fat c ≠ 0 := by
  rcases h with h | ⟨rfl, -⟩
  · exact h.fat_ne_zero hc
  · cases hc

theorem EntryChain.range (h : I.EntryChain p l) (hc : c ∈ l) : 2 ≤ c ∧ c < I.total + 2 := by
  rcases h with h | ⟨rfl, -⟩
  · exact h.range c hc
  · cases hc

theorem EntryChain.nodup (h : I.EntryChain p l) : l.Nodup := by
  rcases h with h | ⟨rfl, -⟩
  · exact h.nodup
  · exact List.nodup_nil

theorem EntryChain.congr (h : I.EntryChain p l) (htotal : I'.total = I.total)
    (hentry : I'.entry p = I.entry p) (hfat : ∀ c ∈ l, I'.fat c = I.fat c) :
    I'.EntryChain p l := by
  rw [EntryChain, hentry]
  exact h.imp_left fun h ↦ h.congr htotal hfat

theorem Owns.unique (hI : I.total + 2 ≤ badCluster) (h : I.Owns o l) (h' : I.Owns o l') :
    l = l' := by
  cases o with
  | none => exact Chain.unique hI h h'
  | some p => exact h.2.unique hI h'.2

theorem Owns.fat_ne_zero (h : I.Owns o l) (hc : c ∈ l) : I.fat c ≠ 0 := by
  cases o with
  | none => exact Chain.fat_ne_zero h hc
  | some p => exact h.2.fat_ne_zero hc

theorem IsEntry.of_mem (hd : I.IsDir d) (hl : I.Chain d l) (hp : p ∈ I.slotsOf l)
    (hlive : (I.entry p).Live) (hdot : ¬(I.entry p).IsDot) : I.IsEntry p :=
  ⟨d, l, hd, hl, hp, hlive, hdot⟩

/-! ## The tree of an intact image -/

namespace Intact

/-- Owners that share a cluster are the same owner. -/
theorem owner_eq (h : I.Intact) (ho : I.Owns o l) (ho' : I.Owns o' l') (hc : c ∈ l)
    (hc' : c ∈ l') : o = o' := by
  by_contra hne
  exact h.disjoint o o' l l' ho ho' hne hc hc'

/-- The chain of a directory is owned by the root or by the directory's entry, and that
entry does not lie in the directory itself. -/
theorem dir_owner (h : I.Intact) (hd : I.IsDir d) :
    ∃ o l, I.Owns o l ∧ I.Chain d l ∧ (o = none → d = I.root) ∧
      ∀ q, o = some q → (I.entry q).isDirectory = true ∧ (I.entry q).start = d ∧ q.1 ∉ l := by
  induction hd with
  | root =>
      obtain ⟨l, hl⟩ := h.root_chain
      exact ⟨none, l, hl, hl, fun _ ↦ rfl, nofun⟩
  | @sub d l p hd hl hp hlive hdot hdir ih =>
      have hentry : I.IsEntry p := .of_mem hd hl hp hlive hdot
      obtain ⟨m, hm⟩ := h.entry_chain p hentry
      obtain ⟨o, l', ho, hl', hroot, hself⟩ := ih
      obtain rfl : l = l' := hl.unique h.small hl'
      refine ⟨some p, m, ⟨hentry, hm⟩, hm.of_directory hdir, nofun, ?_⟩
      rintro q ⟨⟩
      refine ⟨hdir, rfl, fun hmem ↦ ?_⟩
      -- a cluster of `d` on the chain of `p` makes `p` the owner of `d`
      have hpl : p.1 ∈ l := (mem_slotsOf.mp hp).1
      have hsame : o = some p := h.owner_eq ho ⟨hentry, hm⟩ hpl hmem
      exact (hself p hsame).2.2 hpl

theorem dir_chain (h : I.Intact) (hd : I.IsDir d) : ∃ l, I.Chain d l := by
  obtain ⟨o, l, -, hl, -⟩ := h.dir_owner hd
  exact ⟨l, hl⟩

/-- Directories whose chains share a cluster are the same directory. -/
theorem dir_eq (h : I.Intact) (hd : I.IsDir d) (hd' : I.IsDir d') (hl : I.Chain d l)
    (hl' : I.Chain d' l') (hc : c ∈ l) (hc' : c ∈ l') : d = d' := by
  obtain ⟨o, m, ho, hm, hroot, hself⟩ := h.dir_owner hd
  obtain ⟨o', m', ho', hm', hroot', hself'⟩ := h.dir_owner hd'
  obtain rfl := hl.unique h.small hm
  obtain rfl := hl'.unique h.small hm'
  obtain rfl : o = o' := h.owner_eq ho ho' hc hc'
  cases o with
  | none => rw [hroot rfl, hroot' rfl]
  | some q => rw [← (hself q rfl).2.1, ← (hself' q rfl).2.1]

/-- An entry does not lie on its own chain. -/
theorem entry_notMem_chain (h : I.Intact) (hd : I.IsDir d) (hl : I.Chain d l)
    (hp : p.1 ∈ l) (hchain : I.Owns (some p) l') : l.Disjoint l' := by
  obtain ⟨o, m, ho, hm, -, hself⟩ := h.dir_owner hd
  obtain rfl := hl.unique h.small hm
  apply h.disjoint o (some p) l l' ho hchain
  rintro rfl
  exact (hself p rfl).2.2 hp

theorem dir_fat_ne_zero (h : I.Intact) (hd : I.IsDir d) : I.fat d ≠ 0 := by
  obtain ⟨l, hl⟩ := h.dir_chain hd
  exact hl.fat_ne_zero hl.start_mem

end Intact

end Image

end MyOS.Fat32
