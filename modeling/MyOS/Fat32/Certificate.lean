import MyOS.Fat32.Disk

/-!
# Certificates of well-formed images

Well-formedness speaks of all reachable directories.  A ledger lists the chain of the root
and the entries with their chains, each after the directory it lies in.  Whether a ledger
fits an image is a finite check, and an image with a fitting ledger is well formed.
-/

namespace MyOS.Fat32

namespace Image

structure Ledger where
  rootChain : List ℕ
  entries : List (Pos × List ℕ)

section Checks

variable (I : Image)

instance decidableWalk (fat : ℕ → ℕ) : ∀ s l z, Decidable (Walk fat s l z)
  | s, [], z => inferInstanceAs (Decidable (s = z))
  | s, c :: l, z =>
      have := decidableWalk fat (fat s) l z
      inferInstanceAs (Decidable (c = s ∧ Walk fat (fat s) l z))

def ChainCheck (s : ℕ) (l : List ℕ) : Prop :=
  Walk I.fat s l (I.fat (l.getLastD 0)) ∧ isEoc (I.fat (l.getLastD 0)) = true ∧ l ≠ [] ∧ l.Nodup ∧
    ∀ c ∈ l, 2 ≤ c ∧ c < I.total + 2

instance (s : ℕ) (l : List ℕ) : Decidable (I.ChainCheck s l) :=
  inferInstanceAs (Decidable (_ ∧ _ ∧ _ ∧ _ ∧ _))

def EntryCheck (a : Pos × List ℕ) : Prop :=
  (I.entry a.1).Live ∧ ¬(I.entry a.1).IsDot ∧
    (I.ChainCheck (I.entry a.1).start a.2 ∨ a.2 = [] ∧ (I.entry a.1).isDirectory = false ∧
      (I.entry a.1).start = 0 ∧ (I.entry a.1).size = 0) ∧
    ((I.entry a.1).isDirectory = false → (I.entry a.1).size ≤ a.2.length * (32 * I.slots))

instance (a : Pos × List ℕ) : Decidable (I.EntryCheck a) :=
  inferInstanceAs (Decidable (_ ∧ _ ∧ _ ∧ _))

/-- Each entry lies in a directory that the list has named before; `known` are the chains of
the directories so far. -/
def Ordered : List (List ℕ) → List (Pos × List ℕ) → Prop
  | _, [] => True
  | known, a :: rest =>
      (∃ m ∈ known, a.1 ∈ I.slotsOf m) ∧
        Ordered (if (I.entry a.1).isDirectory then a.2 :: known else known) rest

instance decidableOrdered : ∀ known rest, Decidable (I.Ordered known rest)
  | _, [] => inferInstanceAs (Decidable True)
  | known, a :: rest =>
      have := decidableOrdered (if (I.entry a.1).isDirectory then a.2 :: known else known) rest
      inferInstanceAs (Decidable (_ ∧ _))

/-- The chains of the directories. -/
def Ledger.dirChains (L : Ledger) : List (List ℕ) :=
  L.rootChain :: (L.entries.filter fun a ↦ (I.entry a.1).isDirectory).map Prod.snd

/-- What is asked of the slots of one directory. -/
def DirCheck (L : Ledger) (m : List ℕ) : Prop :=
  (∀ q ∈ I.slotsOf m, (I.entry q).Live → ¬(I.entry q).IsDot → q ∈ L.entries.map Prod.fst) ∧
    (((I.slotsOf m).filter fun q ↦ (I.entry q).Live).map fun q ↦ (I.entry q).name).Nodup ∧
    (I.slotsOf m).Pairwise fun p q ↦ (I.entry p).first = 0 → ¬(I.entry q).Used

instance (L : Ledger) (m : List ℕ) : Decidable (I.DirCheck L m) :=
  inferInstanceAs (Decidable (_ ∧ _ ∧ _))

def Fits (L : Ledger) : Prop :=
  I.total + 2 ≤ badCluster ∧ I.ChainCheck I.root L.rootChain ∧
    (∀ a ∈ L.entries, I.EntryCheck a) ∧ I.Ordered [L.rootChain] L.entries ∧
    (∀ m ∈ L.dirChains I, I.DirCheck L m) ∧
    ((L.rootChain :: L.entries.map Prod.snd).Pairwise fun l m ↦ ∀ c ∈ l, c ∉ m) ∧
    (∀ c ∈ List.range (I.total + 2), 2 ≤ c → I.fat c ≠ 0 → I.fat c ≠ badCluster →
      ∃ m ∈ L.rootChain :: L.entries.map Prod.snd, c ∈ m)

instance (L : Ledger) : Decidable (I.Fits L) :=
  inferInstanceAs (Decidable (_ ∧ _ ∧ _ ∧ _ ∧ _ ∧ _ ∧ _))

end Checks

variable {I : Image} {L : Ledger} {s d : ℕ} {l m : List ℕ} {p q : Pos}

theorem ChainCheck.chain (h : I.ChainCheck s l) : I.Chain s l := by
  obtain ⟨hwalk, heoc, hne, hnodup, hrange⟩ := h
  exact ⟨⟨_, hwalk, heoc⟩, hne, hnodup, hrange⟩

theorem EntryCheck.entryChain {a : Pos × List ℕ} (h : I.EntryCheck a) : I.EntryChain a.1 a.2 :=
  h.2.2.1.imp_left ChainCheck.chain

/-- Entries that are listed after their directories are reachable. -/
theorem isEntry_of_ordered {known : List (List ℕ)} {rest : List (Pos × List ℕ)}
    (hknown : ∀ m ∈ known, ∃ d, I.IsDir d ∧ I.Chain d m) (hrest : ∀ a ∈ rest, I.EntryCheck a)
    (h : I.Ordered known rest) : ∀ a ∈ rest, I.IsEntry a.1 := by
  induction rest generalizing known with
  | nil => nofun
  | cons a rest ih =>
      obtain ⟨⟨m, hm, hp⟩, hordered⟩ := h
      obtain ⟨d, hd, hchain⟩ := hknown m hm
      obtain ⟨hlive, hdot, hown, -⟩ := hrest a List.mem_cons_self
      have hentry : I.IsEntry a.1 := .of_mem hd hchain hp hlive hdot
      have hrest' : ∀ b ∈ rest, I.EntryCheck b := fun b hb ↦ hrest b (List.mem_cons_of_mem a hb)
      have hknown' : ∀ m ∈ if (I.entry a.1).isDirectory then a.2 :: known else known,
          ∃ d, I.IsDir d ∧ I.Chain d m := by
        intro n hn
        by_cases hdir : (I.entry a.1).isDirectory = true
        · rw [if_pos hdir] at hn
          rcases List.mem_cons.mp hn with rfl | hn
          · have hown' := (hrest a List.mem_cons_self).entryChain
            exact ⟨_, .sub hd hchain hp hlive hdot hdir, hown'.of_directory hdir⟩
          · exact hknown n hn
        · rw [if_neg hdir] at hn
          exact hknown n hn
      intro b hb
      rcases List.mem_cons.mp hb with rfl | hb
      · exact hentry
      · exact ih hknown' hrest' hordered b hb

namespace Fits

theorem root_chain (h : I.Fits L) : I.Chain I.root L.rootChain := h.2.1.chain

theorem isEntry (h : I.Fits L) : ∀ a ∈ L.entries, I.IsEntry a.1 := by
  refine isEntry_of_ordered (fun m hm ↦ ?_) h.2.2.1 h.2.2.2.1
  obtain rfl : m = L.rootChain := by simpa using hm
  exact ⟨I.root, .root, h.root_chain⟩

/-- The ledger lists the chain of every directory. -/
theorem dir_mem (h : I.Fits L) (hd : I.IsDir d) : ∃ m ∈ L.dirChains I, I.Chain d m := by
  induction hd with
  | root => exact ⟨L.rootChain, List.mem_cons_self, h.root_chain⟩
  | @sub d l p hd hl hp hlive hdot hdir ih =>
      obtain ⟨m, hm, hchain⟩ := ih
      obtain rfl := hl.unique h.1 hchain
      have hlisted := (h.2.2.2.2.1 l hm).1 p hp hlive hdot
      obtain ⟨a, ha, rfl⟩ := List.mem_map.mp hlisted
      have hown := (h.2.2.1 a ha).entryChain
      refine ⟨a.2, List.mem_cons_of_mem _ ?_, hown.of_directory hdir⟩
      exact List.mem_map.mpr ⟨a, List.mem_filter.mpr ⟨ha, hdir⟩, rfl⟩

theorem dirCheck (h : I.Fits L) (hd : I.IsDir d) (hl : I.Chain d l) : I.DirCheck L l := by
  obtain ⟨m, hm, hchain⟩ := h.dir_mem hd
  obtain rfl := hl.unique h.1 hchain
  exact h.2.2.2.2.1 l hm

theorem entry_mem (h : I.Fits L) (hp : I.IsEntry p) : ∃ m, (p, m) ∈ L.entries := by
  obtain ⟨d, l, hd, hl, hmem, hlive, hdot⟩ := hp
  obtain ⟨a, ha, rfl⟩ := List.mem_map.mp ((h.dirCheck hd hl).1 p hmem hlive hdot)
  exact ⟨a.2, ha⟩

/-- The ledger lists every owner with its chain. -/
theorem owns_mem (h : I.Fits L) {o : Option Pos} (ho : I.Owns o l) :
    o = none ∧ l = L.rootChain ∨ ∃ p, o = some p ∧ (p, l) ∈ L.entries := by
  cases o with
  | none => exact Or.inl ⟨rfl, Chain.unique h.1 ho h.root_chain⟩
  | some p =>
      obtain ⟨m, hm⟩ := h.entry_mem ho.1
      obtain rfl := ho.2.unique h.1 (h.2.2.1 _ hm).entryChain
      exact Or.inr ⟨p, rfl, hm⟩

theorem disjoint (h : I.Fits L) {o o' : Option Pos} (ho : I.Owns o l) (ho' : I.Owns o' m)
    (hne : o ≠ o') : l.Disjoint m := by
  obtain ⟨hroot, hentries⟩ := List.pairwise_cons.mp h.2.2.2.2.2.1
  rw [List.pairwise_map] at hentries
  rcases h.owns_mem ho with ⟨rfl, rfl⟩ | ⟨p, rfl, hp⟩
  · rcases h.owns_mem ho' with ⟨rfl, rfl⟩ | ⟨q, rfl, hq⟩
    · exact absurd rfl hne
    · exact fun c hc ↦ hroot m (List.mem_map.mpr ⟨_, hq, rfl⟩) c hc
  · rcases h.owns_mem ho' with ⟨rfl, rfl⟩ | ⟨q, rfl, hq⟩
    · exact fun c hc hroot' ↦ hroot l (List.mem_map.mpr ⟨_, hp, rfl⟩) c hroot' hc
    · have hsymm : Std.Symm fun a b : Pos × List ℕ ↦ ∀ c ∈ a.2, c ∉ b.2 :=
        ⟨fun _ _ hab c hc hc' ↦ hab c hc' hc⟩
      have hpq : (p, l) ≠ (q, m) := fun hsame ↦ hne (congrArg (fun a ↦ some a.1) hsame)
      exact fun c hc ↦ hentries.forall hp hq hpq c hc

theorem names (h : I.Fits L) (hd : I.IsDir d) (hl : I.Chain d l) (hp : p ∈ I.slotsOf l)
    (hq : q ∈ I.slotsOf l) (hplive : (I.entry p).Live) (hqlive : (I.entry q).Live)
    (hname : (I.entry p).name = (I.entry q).name) : p = q := by
  have hnodup := (h.dirCheck hd hl).2.1
  have hmem : ∀ {r}, r ∈ I.slotsOf l → (I.entry r).Live →
      r ∈ (I.slotsOf l).filter fun q ↦ (I.entry q).Live := by
    intro r hr hlive
    exact List.mem_filter.mpr ⟨hr, by simpa using hlive⟩
  exact List.inj_on_of_nodup_map hnodup (hmem hp hplive) (hmem hq hqlive) hname

theorem no_leak (h : I.Fits L) {c : ℕ} (hlo : 2 ≤ c) (hhi : c < I.total + 2) (hused : I.fat c ≠ 0)
    (hbad : I.fat c ≠ badCluster) : ∃ o l, I.Owns o l ∧ c ∈ l := by
  obtain ⟨m, hm, hc⟩ := h.2.2.2.2.2.2 c (List.mem_range.mpr hhi) hlo hused hbad
  rcases List.mem_cons.mp hm with rfl | hm
  · exact ⟨none, L.rootChain, h.root_chain, hc⟩
  · obtain ⟨a, ha, rfl⟩ := List.mem_map.mp hm
    exact ⟨some a.1, a.2, ⟨h.isEntry a ha, (h.2.2.1 a ha).entryChain⟩, hc⟩

theorem wellFormed (h : I.Fits L) : I.WellFormed where
  small := h.1
  root_chain := ⟨L.rootChain, h.root_chain⟩
  entry_chain := by
    intro p hp
    obtain ⟨m, hm⟩ := h.entry_mem hp
    exact ⟨m, (h.2.2.1 _ hm).entryChain⟩
  disjoint := fun _ _ _ _ ho ho' hne ↦ h.disjoint ho ho' hne
  no_leak := fun _ hlo hhi hused hbad ↦ h.no_leak hlo hhi hused hbad
  size_le := by
    intro p l hp hl hfile
    obtain ⟨m, hm⟩ := h.entry_mem hp
    obtain rfl := hl.unique h.1 (h.2.2.1 _ hm).entryChain
    exact (h.2.2.1 _ hm).2.2.2 hfile
  names := fun _ _ _ _ hd hl hp hq hplive hqlive hname ↦ h.names hd hl hp hq hplive hqlive hname
  ends := fun _ _ hd hl ↦ (h.dirCheck hd hl).2.2

end Fits

end Image

/-! ## Small volumes

A volume of up to 126 one-sector clusters behind one sector of FAT, given by the links in
its FAT and the entries in its directories; the root directory is cluster 2.
-/

def smallGeometry (total : ℕ) : Geometry where
  sectorsPerCluster := 1
  numFats := 1
  fatStartLba := 1
  dataStartLba := 2
  fatSize := 1
  totalClusters := total
  rootCluster := 2

def smallDisk (total : ℕ) (links : List (ℕ × ℕ)) (entries : List (Pos × Dirent)) : Bytes :=
  let fat := links.foldr (fun a disk ↦ disk.write32 (fatAddr (smallGeometry total) 0 a.1) a.2) blank
  entries.foldr (fun a disk ↦
    disk.blit (clusterAddr (smallGeometry total) a.1.1 + 32 * a.1.2) 32 a.2) fat

def smallVol (total : ℕ) (links : List (ℕ × ℕ)) (entries : List (Pos × Dirent)) : Vol where
  geo := smallGeometry total
  cwdCluster := 2
  allocHint := 2
  mounted := true
  fatSectorBuf := blank
  fatSectorCachedLba := noLba
  ata := { disk := smallDisk total links entries, polls := 0, ready := fun _ ↦ true }

theorem smallVol_ready {total : ℕ} (htotal : total ≤ 126) (links : List (ℕ × ℕ))
    (entries : List (Pos × Dirent)) : (smallVol total links entries).Ready where
  mounted := rfl
  geo := by
    refine ⟨le_refl 1, by norm_num [smallVol, smallGeometry], le_refl 1, rfl, ?_, ?_⟩
    · simp only [smallVol, smallGeometry]
      omega
    · simp only [smallVol, smallGeometry]
      omega
  reliable := fun _ ↦ rfl
  hint := by
    simp only [smallVol, smallGeometry]
    omega
  cache := Or.inl rfl

end MyOS.Fat32
