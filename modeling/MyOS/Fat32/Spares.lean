import MyOS.Fat32.Edit

/-!
# Clusters that nobody owns

The tree of an intact image is made of the clusters on its chains.  Whatever becomes of the
other clusters, free or lost, the tree is the same: two images that agree on what one of them
owns have the same directories, entries and chains.
-/

namespace MyOS.Fat32.Image

variable {I J K : Image} {O : Set ℕ} {c d : ℕ} {l : List ℕ} {p : Pos} {o : Option Pos}

/-- The clusters on the chains of the tree. -/
def Owned (I : Image) : Set ℕ := {c | ∃ o l, I.Owns o l ∧ c ∈ l}

/-- The clusters in `O` have the same links and contents in both images. -/
structure Agree (O : Set ℕ) (I J : Image) : Prop where
  total : J.total = I.total
  slots : J.slots = I.slots
  root : J.root = I.root
  fat : ∀ c ∈ O, J.fat c = I.fat c
  data : ∀ c ∈ O, J.data c = I.data c

/-- The clusters of the directories. -/
def DirClusters (I : Image) : Set ℕ := {c | ∃ d l, I.IsDir d ∧ I.Chain d l ∧ c ∈ l}

theorem Intact.dirClusters_subset (hI : I.Intact) : I.DirClusters ⊆ I.Owned := by
  rintro c ⟨d, l, hd, hl, hc⟩
  obtain ⟨o, l', ho, hl', -⟩ := hI.dir_owner hd
  obtain rfl := hl.unique hI.small hl'
  exact ⟨o, l, ho, hc⟩

theorem Intact.dir_owned (hI : I.Intact) (hd : I.IsDir d) (hl : I.Chain d l) :
    ∀ c ∈ l, c ∈ I.Owned :=
  fun _ hc ↦ hI.dirClusters_subset ⟨d, l, hd, hl, hc⟩

/-- No directory holds a name twice. -/
def NamesUnique (I : Image) : Prop :=
  ∀ d l p q, I.IsDir d → I.Chain d l → p ∈ I.slotsOf l → q ∈ I.slotsOf l →
    (I.entry p).Live → (I.entry q).Live → (I.entry p).name = (I.entry q).name → p = q

theorem fat_ne_zero_of_owned (hc : c ∈ I.Owned) : I.fat c ≠ 0 := by
  obtain ⟨o, l, ho, hcl⟩ := hc
  exact ho.fat_ne_zero hcl

namespace Agree

theorem refl (O : Set ℕ) (I : Image) : Agree O I I :=
  ⟨rfl, rfl, rfl, fun _ _ ↦ rfl, fun _ _ ↦ rfl⟩

theorem trans (h : Agree O I J) (h' : Agree O J K) : Agree O I K :=
  ⟨h'.total.trans h.total, h'.slots.trans h.slots, h'.root.trans h.root,
    fun c hc ↦ (h'.fat c hc).trans (h.fat c hc), fun c hc ↦ (h'.data c hc).trans (h.data c hc)⟩

theorem mono {O' : Set ℕ} (h : Agree O I J) (hO : O' ⊆ O) : Agree O' I J :=
  ⟨h.total, h.slots, h.root, fun c hc ↦ h.fat c (hO hc), fun c hc ↦ h.data c (hO hc)⟩

theorem slotsOf (h : Agree O I J) : J.slotsOf l = I.slotsOf l := by
  rw [Image.slotsOf, Image.slotsOf, h.slots]

theorem entry (h : Agree O I J) (hp : p.1 ∈ O) : J.entry p = I.entry p := by
  rw [Image.entry, Image.entry, h.data p.1 hp]

theorem setFat (hc : c ∉ O) (x : ℕ) : Agree O I (I.setFat c x) :=
  ⟨rfl, rfl, rfl, fun y hy ↦ Function.update_of_ne (fun h ↦ hc (by rwa [← h])) _ _,
    fun _ _ ↦ rfl⟩

section Directories

variable (hI : I.Intact) (h : Agree I.DirClusters I J)

include hI h

theorem dir_chain_iff (hd : I.IsDir d) : J.Chain d l ↔ I.Chain d l := by
  obtain ⟨m, hm⟩ := hI.dir_chain hd
  have hm' : J.Chain d m := hm.congr h.total fun c hc ↦ h.fat c ⟨d, m, hd, hm, hc⟩
  constructor
  · intro hl
    rwa [hl.unique (h.total ▸ hI.small) hm']
  · intro hl
    rwa [hl.unique hI.small hm]

omit hI in
theorem dir_entry_eq (hd : I.IsDir d) (hl : I.Chain d l) (hp : p ∈ I.slotsOf l) :
    J.entry p = I.entry p :=
  h.entry ⟨d, l, hd, hl, (mem_slotsOf.mp hp).1⟩

theorem dir_iff : J.IsDir d ↔ I.IsDir d := by
  constructor
  · intro hd
    induction hd with
    | root =>
        rw [h.root]
        exact .root
    | @sub d l p _ hl hp hlive hdot hdir ih =>
        rw [h.dir_chain_iff hI ih] at hl
        rw [h.slotsOf] at hp
        have hsame := h.dir_entry_eq ih hl hp
        rw [hsame] at hlive hdot hdir ⊢
        exact .sub ih hl hp hlive hdot hdir
  · intro hd
    induction hd with
    | root =>
        rw [← h.root]
        exact .root
    | @sub d l p hd hl hp hlive hdot hdir ih =>
        have hsame := h.dir_entry_eq hd hl hp
        rw [← hsame] at hlive hdot hdir ⊢
        exact .sub ih ((h.dir_chain_iff hI hd).mpr hl) (h.slotsOf ▸ hp) hlive hdot hdir

theorem namesUnique : J.NamesUnique := by
  intro d l p q hd hl hp hq hplive hqlive hname
  rw [h.dir_iff hI] at hd
  rw [h.dir_chain_iff hI hd] at hl
  rw [h.slotsOf] at hp hq
  rw [h.dir_entry_eq hd hl hp] at hplive hname
  rw [h.dir_entry_eq hd hl hq] at hqlive hname
  exact hI.names d l p q hd hl hp hq hplive hqlive hname

end Directories

section Tree

variable (hI : I.Intact) (h : Agree I.Owned I J)

include hI h

theorem dirs : Agree I.DirClusters I J := h.mono hI.dirClusters_subset

theorem chain_iff (hd : I.IsDir d) : J.Chain d l ↔ I.Chain d l := (h.dirs hI).dir_chain_iff hI hd

theorem entry_eq (hd : I.IsDir d) (hl : I.Chain d l) (hp : p ∈ I.slotsOf l) :
    J.entry p = I.entry p := (h.dirs hI).dir_entry_eq hd hl hp

theorem isDir_iff : J.IsDir d ↔ I.IsDir d := (h.dirs hI).dir_iff hI

theorem isEntry_iff : J.IsEntry p ↔ I.IsEntry p := by
  constructor
  · rintro ⟨d, l, hd, hl, hp, hlive, hdot⟩
    rw [h.isDir_iff hI] at hd
    rw [h.chain_iff hI hd] at hl
    rw [h.slotsOf] at hp
    rw [h.entry_eq hI hd hl hp] at hlive hdot
    exact ⟨d, l, hd, hl, hp, hlive, hdot⟩
  · rintro ⟨d, l, hd, hl, hp, hlive, hdot⟩
    rw [← h.entry_eq hI hd hl hp] at hlive hdot
    exact ⟨d, l, (h.isDir_iff hI).mpr hd, (h.chain_iff hI hd).mpr hl, h.slotsOf ▸ hp, hlive, hdot⟩

theorem entry_of_isEntry (hp : I.IsEntry p) : J.entry p = I.entry p := by
  obtain ⟨d, l, hd, hl, hp, -⟩ := hp
  exact h.entry_eq hI hd hl hp

theorem entryChain_iff (hp : I.IsEntry p) : J.EntryChain p l ↔ I.EntryChain p l := by
  obtain ⟨m, hm⟩ := hI.entry_chain p hp
  have hm' : J.EntryChain p m := hm.congr h.total (h.entry_of_isEntry hI hp) fun c hc ↦
    h.fat c ⟨some p, m, ⟨hp, hm⟩, hc⟩
  constructor
  · intro hl
    rwa [hl.unique (h.total ▸ hI.small) hm']
  · intro hl
    rwa [hl.unique hI.small hm]

theorem owns_iff : J.Owns o l ↔ I.Owns o l := by
  cases o with
  | none =>
      rw [Owns, Owns, h.root]
      exact h.chain_iff hI .root
  | some p =>
      rw [Owns, Owns, h.isEntry_iff hI]
      exact and_congr_right fun hp ↦ h.entryChain_iff hI hp

theorem owned_eq : J.Owned = I.Owned := by
  ext c
  simp only [Owned, Set.mem_ofPred_eq, h.owns_iff hI]

theorem intact : J.Intact where
  small := h.total ▸ hI.small
  root_chain := by
    obtain ⟨l, hl⟩ := hI.root_chain
    exact ⟨l, h.root ▸ (h.chain_iff hI .root).mpr hl⟩
  entry_chain := by
    intro p hp
    rw [h.isEntry_iff hI] at hp
    obtain ⟨l, hl⟩ := hI.entry_chain p hp
    exact ⟨l, (h.entryChain_iff hI hp).mpr hl⟩
  disjoint := by
    intro o o' l l' ho ho' hne
    rw [h.owns_iff hI] at ho ho'
    exact hI.disjoint o o' l l' ho ho' hne
  size_le := by
    intro p l hp hl hfile
    rw [h.isEntry_iff hI] at hp
    rw [h.entryChain_iff hI hp] at hl
    rw [h.entry_of_isEntry hI hp] at hfile ⊢
    rw [h.slots]
    exact hI.size_le p l hp hl hfile
  names := (h.dirs hI).namesUnique hI
  ends := by
    intro d l hd hl
    rw [h.isDir_iff hI] at hd
    rw [h.chain_iff hI hd] at hl
    rw [h.slotsOf]
    refine List.Pairwise.imp_of_mem (fun {p q} hp hq hmark hzero hused ↦ ?_) (hI.ends d l hd hl)
    rw [h.entry_eq hI hd hl hp] at hzero
    rw [h.entry_eq hI hd hl hq] at hused
    exact hmark hzero hused

end Tree

end Agree

end MyOS.Fat32.Image
