import MyOS.Fat32.Image

/-!
# Changing one slot of a directory

Every operation that changes a volume rewrites one slot `p` of one directory, releases the
chain `old` of the entry that was there and fills the clusters `new` of the entry that is
there now.  `Edit` is that change.  Any edit leaves the other entries, their chains and
their contents alone.  An edit that puts a fitting entry into the slot, or marks it deleted,
keeps the image intact, and if it takes no directory with something in it away, it loses
no cluster either.
-/

namespace MyOS.Fat32.Image

/-- `I'` is the intact image `I` with slot `p` of directory `d` rewritten, the clusters
`old` of its entry released and the clusters `new` filled. -/
structure Edit (I I' : Image) (d : ℕ) (l : List ℕ) (p : Pos) (old new : List ℕ) : Prop where
  wf : I.Intact
  dir : I.IsDir d
  chain : I.Chain d l
  mem : p ∈ I.slotsOf l
  owned : I.Owns (some p) old ∨ ¬(I.entry p).Live ∧ old = []
  file_only : (I.entry p).Live → (I.entry p).isDirectory = true → new = []
  total : I'.total = I.total
  slots : I'.slots = I.slots
  root : I'.root = I.root
  fat_other : ∀ c, c ∉ old → c ∉ new → I'.fat c = I.fat c
  fat_freed : ∀ c ∈ old, c ∉ new → I'.fat c = 0
  fresh : ∀ c ∈ new, c ∈ old ∨ I.fat c = 0
  data_other : ∀ c i, c ∉ new → (c, i / 32) ≠ p → I'.data c i = I.data c i

namespace Edit

variable {I I' : Image} {d e : ℕ} {l m old new : List ℕ} {p q : Pos} {o : Option Pos}

/-- `e` is the directory whose entry the edit takes away. -/
def Removed (I : Image) (p : Pos) (e : ℕ) : Prop :=
  I.IsEntry p ∧ (I.entry p).isDirectory = true ∧ (I.entry p).start = e

theorem slotsOf_eq (h : Edit I I' d l p old new) : I'.slotsOf m = I.slotsOf m := by
  rw [slotsOf, slotsOf, h.slots]

theorem entry_other (h : Edit I I' d l p old new) (hq : q ≠ p) (hnew : q.1 ∉ new) :
    I'.entry q = I.entry q := by
  refine direntAt_congr fun k hk ↦ h.data_other q.1 _ hnew ?_
  have hslot : (32 * q.2 + k) / 32 = q.2 := by omega
  rwa [hslot]

theorem owns_disjoint (h : Edit I I' d l p old new) (ho : I.Owns o m) (hne : o ≠ some p) :
    m.Disjoint old ∧ m.Disjoint new := by
  have hold : m.Disjoint old := by
    rcases h.owned with hown | ⟨-, rfl⟩
    · exact h.wf.disjoint o (some p) m old ho hown hne
    · exact List.disjoint_nil_right m
  refine ⟨hold, fun c hc hcnew ↦ ?_⟩
  rcases h.fresh c hcnew with hcold | hfree
  · exact hold hc hcold
  · exact ho.fat_ne_zero hc hfree

theorem owns_fat (h : Edit I I' d l p old new) (ho : I.Owns o m) (hne : o ≠ some p) :
    ∀ c ∈ m, I'.fat c = I.fat c := by
  obtain ⟨hold, hnew⟩ := h.owns_disjoint ho hne
  exact fun c hc ↦ h.fat_other c (hold hc) (hnew hc)

theorem dir_owner (h : Edit I I' d l p old new) (he : I.IsDir e) (hm : I.Chain e m)
    (hkept : ¬Removed I p e) : ∃ o, I.Owns o m ∧ o ≠ some p := by
  obtain ⟨o, m', ho, hm', -, hself⟩ := h.wf.dir_owner he
  obtain rfl := hm.unique h.wf.small hm'
  refine ⟨o, ho, ?_⟩
  rintro rfl
  exact hkept ⟨ho.1, (hself p rfl).1, (hself p rfl).2.1⟩

theorem dir_disjoint (h : Edit I I' d l p old new) (he : I.IsDir e) (hm : I.Chain e m)
    (hkept : ¬Removed I p e) : m.Disjoint old ∧ m.Disjoint new := by
  obtain ⟨o, ho, hne⟩ := h.dir_owner he hm hkept
  exact h.owns_disjoint ho hne

theorem chain_keep (h : Edit I I' d l p old new) (he : I.IsDir e) (hm : I.Chain e m)
    (hkept : ¬Removed I p e) : I'.Chain e m := by
  obtain ⟨o, ho, hne⟩ := h.dir_owner he hm hkept
  exact hm.congr h.total (h.owns_fat ho hne)

theorem chain_removed (hrem : Removed I p e) (hm : I.Chain e m) :
    I.Owns (some p) m := by
  obtain ⟨hentry, hdir, rfl⟩ := hrem
  exact ⟨hentry, Or.inl hm⟩

/-- The directory that holds the slot is not the one taken away. -/
theorem dir_not_removed (h : Edit I I' d l p old new) : ¬Removed I p d := by
  intro hrem
  have hpl : p.1 ∈ l := (mem_slotsOf.mp h.mem).1
  have hown := chain_removed hrem h.chain
  exact h.wf.entry_notMem_chain h.dir h.chain hpl hown hpl hpl

theorem root_not_removed (h : Edit I I' d l p old new) : ¬Removed I p I.root := by
  intro hrem
  obtain ⟨m, hm⟩ := h.wf.root_chain
  have hown := chain_removed hrem hm
  have hroot : I.Owns none m := hm
  have hsame := h.wf.owner_eq hroot hown hm.start_mem hm.start_mem
  cases hsame

theorem removed_eq_old (h : Edit I I' d l p old new) (hrem : Removed I p e)
    (hm : I.Chain e m) : m = old := by
  have hown := chain_removed hrem hm
  rcases h.owned with hold | ⟨hlive, -⟩
  · exact hown.unique h.wf.small hold
  · obtain ⟨-, -, -, -, -, hentry, -⟩ := hrem.1
    exact absurd hentry hlive

theorem entry_notMem_new (h : Edit I I' d l p old new) (hq : I.IsEntry q) : q.1 ∉ new := by
  obtain ⟨e, m, he, hm, hmem, -⟩ := hq
  have hqm : q.1 ∈ m := (mem_slotsOf.mp hmem).1
  by_cases hrem : Removed I p e
  · obtain ⟨⟨_, _, -, -, -, hlive, -⟩, hdir, -⟩ := hrem
    simp [h.file_only hlive hdir]
  · exact (h.dir_disjoint he hm hrem).2 hqm

/-- Every other entry keeps its 32 bytes, its chain and the contents of its clusters, the
one rewritten slot excepted. -/
theorem frame (h : Edit I I' d l p old new) (hq : I.IsEntry q) (hne : q ≠ p) :
    I'.entry q = I.entry q ∧ ∀ m, I.EntryChain q m → I'.EntryChain q m ∧
      ∀ c ∈ m, ∀ i, (c, i / 32) ≠ p → I'.data c i = I.data c i := by
  have hentry := h.entry_other hne (h.entry_notMem_new hq)
  refine ⟨hentry, fun m hm ↦ ?_⟩
  have howner : (some q : Option Pos) ≠ some p := fun hsame ↦ hne (Option.some.inj hsame)
  have hown : I.Owns (some q) m := ⟨hq, hm⟩
  refine ⟨hm.congr h.total hentry (h.owns_fat hown howner), fun c hc i hi ↦ ?_⟩
  exact h.data_other c i ((h.owns_disjoint hown howner).2 hc) hi

end Edit

/-- The entry in slot `p` of a directory with the slots `dirSlots` fits there, and `new` is
its chain. -/
structure Placed (I I' : Image) (dirSlots : List Pos) (p : Pos) (new : List ℕ) : Prop where
  live : (I'.entry p).Live
  not_dot : ¬(I'.entry p).IsDot
  chain : I'.EntryChain p new
  size_le : (I'.entry p).isDirectory = false →
    (I'.entry p).size ≤ new.length * (32 * I'.slots)
  name_new : ∀ q ∈ dirSlots, q ≠ p → (I.entry q).Live → (I.entry q).name ≠ (I'.entry p).name
  before : ∃ pre post, dirSlots = pre ++ p :: post ∧ ∀ q ∈ pre, (I.entry q).first ≠ 0
  only_dots : (I'.entry p).isDirectory = true →
    ∀ q ∈ I'.slotsOf new, (I'.entry q).Live → (I'.entry q).IsDot
  inner_names : (I'.entry p).isDirectory = true → ∀ q ∈ I'.slotsOf new, ∀ r ∈ I'.slotsOf new,
    (I'.entry q).Live → (I'.entry r).Live → (I'.entry q).name = (I'.entry r).name → q = r
  inner_ends : (I'.entry p).isDirectory = true →
    (I'.slotsOf new).Pairwise fun q r ↦ (I'.entry q).first = 0 → ¬(I'.entry r).Used

/-- What an edit must leave in its slot to keep the image intact. -/
structure Tidy (I I' : Image) (d : ℕ) (l : List ℕ) (p : Pos) (old new : List ℕ) : Prop
    extends Edit I I' d l p old new where
  slot : (I'.entry p).first = 0xE5 ∧ new = [] ∨ Placed I I' (I.slotsOf l) p new

/-- A directory in slot `p` with the chain `old` holds nothing but `.` and `..`. -/
def OnlyDots (I : Image) (p : Pos) (old : List ℕ) : Prop :=
  (I.entry p).Live → (I.entry p).isDirectory = true →
    ∀ q ∈ I.slotsOf old, (I.entry q).Live → (I.entry q).IsDot

namespace Tidy

open Edit

variable {I I' : Image} {d e : ℕ} {l m old new : List ℕ} {p q : Pos} {o : Option Pos}

/-- `e` is the directory whose entry the edit puts into the slot. -/
def Added (I' : Image) (p : Pos) (e : ℕ) : Prop :=
  (I'.entry p).Live ∧ (I'.entry p).isDirectory = true ∧ (I'.entry p).start = e

theorem placed (h : Tidy I I' d l p old new) (hlive : (I'.entry p).Live) :
    Placed I I' (I.slotsOf l) p new := by
  rcases h.slot with ⟨hdeleted, -⟩ | hplaced
  · exact absurd hdeleted hlive.1.2
  · exact hplaced

/-- The directory with slot `p` is `d`. -/
theorem dir_eq_of_mem (h : Tidy I I' d l p old new) (he : I.IsDir e) (hm : I.Chain e m)
    (hp : p ∈ I.slotsOf m) : e = d :=
  h.wf.dir_eq he h.dir hm h.chain (mem_slotsOf.mp hp).1 (mem_slotsOf.mp h.mem).1

theorem eq_of_mem (h : Tidy I I' d l p old new) (he : I.IsDir e) (hm : I.Chain e m)
    (hp : p ∈ I.slotsOf m) : m = l := by
  obtain rfl := h.dir_eq_of_mem he hm hp
  exact hm.unique h.wf.small h.chain

/-- A directory that is still there has the slots it had, and the entries in them except
in slot `p`. -/
theorem kept_slots (h : Tidy I I' d l p old new) (he : I.IsDir e) (hkept : ¬Removed I p e)
    (hm : I'.Chain e m) : I.Chain e m ∧ ∀ q ∈ I'.slotsOf m, q ≠ p → I'.entry q = I.entry q := by
  obtain ⟨m', hm'⟩ := h.wf.dir_chain he
  obtain rfl := hm.unique (h.total ▸ h.wf.small) (h.chain_keep he hm' hkept)
  refine ⟨hm', fun q hq hqp ↦ h.entry_other hqp ?_⟩
  exact (h.dir_disjoint he hm' hkept).2 (mem_slotsOf.mp hq).1

/-- An entry of a directory that is still there is an old one or lies in slot `p`. -/
theorem entry_of_kept (h : Tidy I I' d l p old new) (he : I.IsDir e) (hkept : ¬Removed I p e)
    (hm : I'.Chain e m) (hq : q ∈ I'.slotsOf m) (hlive : (I'.entry q).Live)
    (hdot : ¬(I'.entry q).IsDot) :
    q = p ∨ q ≠ p ∧ I'.entry q = I.entry q ∧ I.Chain e m ∧ q ∈ I.slotsOf m ∧ I.IsEntry q := by
  by_cases hqp : q = p
  · exact Or.inl hqp
  · obtain ⟨hm', hsame⟩ := h.kept_slots he hkept hm
    have hentry := hsame q hq hqp
    rw [h.slotsOf_eq] at hq
    rw [hentry] at hlive hdot
    exact Or.inr ⟨hqp, hentry, hm', hq, .of_mem he hm' hq hlive hdot⟩

/-- The new directory holds no entries. -/
theorem added_only_dots (h : Tidy I I' d l p old new) (hadded : Added I' p e) (hm : I'.Chain e m)
    (hq : q ∈ I'.slotsOf m) (hlive : (I'.entry q).Live) : (I'.entry q).IsDot := by
  obtain ⟨hplive, hpdir, rfl⟩ := hadded
  have hplaced := h.placed hplive
  obtain rfl := hm.unique (h.total ▸ h.wf.small) (hplaced.chain.of_directory hpdir)
  exact hplaced.only_dots hpdir q hq hlive

/-- Two entries with one start would own the same chain. -/
theorem not_removed_start (h : Tidy I I' d l p old new) (hq : I.IsEntry q) (hqp : q ≠ p)
    (hdir : (I.entry q).isDirectory = true) : ¬Removed I p (I.entry q).start := by
  rintro ⟨hpentry, hpdir, hstart⟩
  obtain ⟨mq, hmq⟩ := h.wf.entry_chain q hq
  have hchain := hmq.of_directory hdir
  have hmp : I.EntryChain p mq := by
    rw [← hstart] at hchain
    exact Or.inl hchain
  have hqown : I.Owns (some q) mq := ⟨hq, hmq⟩
  have hpown : I.Owns (some p) mq := ⟨hpentry, hmp⟩
  have howner := h.wf.owner_eq hqown hpown hchain.start_mem hchain.start_mem
  exact hqp (Option.some.inj howner)

/-- A directory after the edit was there before, and not taken away, or is the new one. -/
theorem isDir_cases (h : Tidy I I' d l p old new) (he : I'.IsDir e) :
    I.IsDir e ∧ ¬Removed I p e ∨ Added I' p e := by
  induction he with
  | root =>
      rw [h.root]
      exact Or.inl ⟨.root, h.root_not_removed⟩
  | @sub e m q _ hm hq hlive hdot hdir ih =>
      rcases ih with ⟨he, hkept⟩ | hadded
      · rcases h.entry_of_kept he hkept hm hq hlive hdot with rfl | ⟨hqp, hsame, hm', hq', hentry⟩
        · exact Or.inr ⟨hlive, hdir, rfl⟩
        · rw [hsame] at hlive hdot hdir ⊢
          exact Or.inl ⟨.sub he hm' hq' hlive hdot hdir, h.not_removed_start hentry hqp hdir⟩
      · exact absurd (h.added_only_dots hadded hm hq hlive) hdot

theorem isEntry_cases (h : Tidy I I' d l p old new) (hq : I'.IsEntry q) :
    q ≠ p ∧ I.IsEntry q ∨ q = p ∧ (I'.entry p).Live := by
  obtain ⟨e, m, he, hm, hq, hlive, hdot⟩ := hq
  rcases h.isDir_cases he with ⟨he, hkept⟩ | hadded
  · rcases h.entry_of_kept he hkept hm hq hlive hdot with rfl | ⟨hqp, -, -, -, hentry⟩
    · exact Or.inr ⟨rfl, hlive⟩
    · exact Or.inl ⟨hqp, hentry⟩
  · exact absurd (h.added_only_dots hadded hm hq hlive) hdot

theorem not_added (h : Tidy I I' d l p old new) (he : I.IsDir e) : ¬Added I' p e := by
  rintro ⟨hlive, hdir, rfl⟩
  have hchain := (h.placed hlive).chain.of_directory hdir
  obtain ⟨m, hm⟩ := h.wf.dir_chain he
  have hstart := hchain.start_mem
  have hnodir : ¬Removed I p (I'.entry p).start := by
    rintro ⟨⟨_, _, -, -, -, hplive, -⟩, hpdir, -⟩
    rw [h.file_only hplive hpdir] at hstart
    cases hstart
  exact (h.dir_disjoint he hm hnodir).2 hm.start_mem hstart

/-- The directory with the slot stays reachable: a way to it that passes through slot `p`
has passed through the directory before. -/
theorem isDir_dir (h : Tidy I I' d l p old new) : I'.IsDir d := by
  have hway : ∀ e, I.IsDir e → I'.IsDir e ∨ I'.IsDir d := by
    intro e he
    induction he with
    | root =>
        rw [← h.root]
        exact Or.inl .root
    | @sub e m q he hm hq hlive hdot hdir ih =>
        rcases ih with he' | hd
        · by_cases hqp : q = p
          · subst hqp
            obtain rfl := h.dir_eq_of_mem he hm hq
            exact Or.inr he'
          · have hentry : I.IsEntry q := .of_mem he hm hq hlive hdot
            have hsame := h.entry_other hqp (h.entry_notMem_new hentry)
            have hkept : ¬Removed I p e := by
              rcases h.isDir_cases he' with ⟨-, hkept⟩ | hadded
              · exact hkept
              · exact absurd hadded (h.not_added he)
            rw [← hsame] at hlive hdot hdir ⊢
            exact Or.inl (.sub he' (h.chain_keep he hm hkept) (h.slotsOf_eq ▸ hq) hlive hdot hdir)
        · exact Or.inr hd
  rcases hway d h.dir with hd | hd
  · exact hd
  · exact hd

theorem isEntry_slot (h : Tidy I I' d l p old new) (hlive : (I'.entry p).Live) : I'.IsEntry p :=
  .of_mem h.isDir_dir (h.chain_keep h.dir h.chain h.dir_not_removed) (h.slotsOf_eq ▸ h.mem) hlive
    (h.placed hlive).not_dot

/-- The owners after the edit: some before it with the same chains, and slot `p` with `new`. -/
theorem owns_cases (h : Tidy I I' d l p old new) (ho : I'.Owns o m) :
    I.Owns o m ∧ o ≠ some p ∨ o = some p ∧ (I'.entry p).Live ∧ m = new := by
  have hsmall : I'.total + 2 ≤ badCluster := h.total ▸ h.wf.small
  cases o with
  | none =>
      obtain ⟨m', hm'⟩ := h.wf.root_chain
      have hown : I.Owns none m' := hm'
      have hchain : I'.Chain I'.root m := ho
      rw [h.root] at hchain
      obtain rfl := hchain.unique hsmall (hm'.congr h.total (h.owns_fat hown nofun))
      exact Or.inl ⟨hown, nofun⟩
  | some q =>
      rcases h.isEntry_cases ho.1 with ⟨hqp, hentry⟩ | ⟨rfl, hlive⟩
      · have hne : some q ≠ some p := fun hsame ↦ hqp (Option.some.inj hsame)
        obtain ⟨m', hm'⟩ := h.wf.entry_chain q hentry
        obtain rfl := ho.2.unique hsmall ((h.frame hentry hqp).2 m' hm').1
        exact Or.inl ⟨⟨hentry, hm'⟩, hne⟩
      · exact Or.inr ⟨rfl, hlive, ho.2.unique hsmall (h.placed hlive).chain⟩

theorem disjoint (h : Tidy I I' d l p old new) {o' : Option Pos} {m' : List ℕ}
    (ho : I'.Owns o m) (ho' : I'.Owns o' m') (hne : o ≠ o') : m.Disjoint m' := by
  rcases h.owns_cases ho with ⟨ho, hop⟩ | ⟨rfl, hlive, rfl⟩
  · rcases h.owns_cases ho' with ⟨ho', -⟩ | ⟨-, -, rfl⟩
    · exact h.wf.disjoint o o' m m' ho ho' hne
    · exact (h.owns_disjoint ho hop).2
  · rcases h.owns_cases ho' with ⟨ho', hop'⟩ | ⟨rfl, -⟩
    · exact (h.owns_disjoint ho' hop').2.symm
    · exact absurd rfl hne

theorem size_le (h : Tidy I I' d l p old new) (hq : I'.IsEntry q) (hm : I'.EntryChain q m)
    (hfile : (I'.entry q).isDirectory = false) :
    (I'.entry q).size ≤ m.length * (32 * I'.slots) := by
  rcases h.owns_cases (o := some q) ⟨hq, hm⟩ with ⟨hown, hne⟩ | ⟨hsame, hlive, rfl⟩
  · have hqp : q ≠ p := fun hsame ↦ hne (congrArg some hsame)
    rw [(h.frame hown.1 hqp).1] at hfile ⊢
    rw [h.slots]
    exact h.wf.size_le q m hown.1 hown.2 hfile
  · obtain rfl := Option.some.inj hsame
    exact (h.placed hlive).size_le hfile

theorem names (h : Tidy I I' d l p old new) {r : Pos} (he : I'.IsDir e) (hm : I'.Chain e m)
    (hq : q ∈ I'.slotsOf m) (hr : r ∈ I'.slotsOf m) (hqlive : (I'.entry q).Live)
    (hrlive : (I'.entry r).Live) (hname : (I'.entry q).name = (I'.entry r).name) : q = r := by
  rcases h.isDir_cases he with ⟨he, hkept⟩ | ⟨hlive, hdir, rfl⟩
  · obtain ⟨hm', hsame⟩ := h.kept_slots he hkept hm
    by_cases hqp : q = p
    · by_cases hrp : r = p
      · rw [hqp, hrp]
      · subst hqp
        rw [hsame r hr hrp] at hrlive hname
        rw [h.slotsOf_eq] at hq hr
        obtain rfl := h.eq_of_mem he hm' hq
        exact absurd hname.symm ((h.placed hqlive).name_new r hr hrp hrlive)
    · rw [hsame q hq hqp] at hqlive hname
      by_cases hrp : r = p
      · subst hrp
        rw [h.slotsOf_eq] at hq hr
        obtain rfl := h.eq_of_mem he hm' hr
        exact absurd hname ((h.placed hrlive).name_new q hq hqp hqlive)
      · rw [hsame r hr hrp] at hrlive hname
        rw [h.slotsOf_eq] at hq hr
        exact h.wf.names e m q r he hm' hq hr hqlive hrlive hname
  · have hplaced := h.placed hlive
    obtain rfl := hm.unique (h.total ▸ h.wf.small) (hplaced.chain.of_directory hdir)
    exact hplaced.inner_names hdir q hq r hr hqlive hrlive hname

theorem pairwise_before {pre post : List Pos} {P : Pos → Prop} (hnodup : (pre ++ p :: post).Nodup)
    (hpre : ∀ q ∈ pre, P q) : (pre ++ p :: post).Pairwise fun q r ↦ r = p → P q := by
  have hsplit := List.nodup_append.mp hnodup
  have hcons := List.nodup_cons.mp hsplit.2.1
  refine List.pairwise_append.mpr ⟨?_, ?_, fun q hq _ _ _ ↦ hpre q hq⟩
  · refine List.Pairwise.imp_of_mem (fun _ hr _ hrp ↦ ?_) hsplit.1
    exact absurd hrp (hsplit.2.2 _ hr _ List.mem_cons_self)
  · refine List.pairwise_cons.mpr ⟨fun r hr hrp ↦ absurd (hrp ▸ hr) hcons.1, ?_⟩
    exact List.Pairwise.imp_of_mem (fun _ hr _ hrp ↦ absurd (hrp ▸ hr) hcons.1) hcons.2

/-- No used entry is put behind an end mark. -/
theorem no_mark_before (h : Tidy I I' d l p old new) (he : I.IsDir e) (hm : I.Chain e m) :
    (I.slotsOf m).Pairwise fun q r ↦ r = p → (I'.entry p).Used → (I.entry q).first ≠ 0 := by
  by_cases hp : p ∈ I.slotsOf m
  · obtain rfl := h.eq_of_mem he hm hp
    rcases h.slot with ⟨hdeleted, -⟩ | hplaced
    · refine (nodup_slotsOf hm.nodup).imp fun _ _ hused ↦ ?_
      exact absurd hdeleted hused.2
    · obtain ⟨pre, post, hsplit, hpre⟩ := hplaced.before
      have hnodup := nodup_slotsOf (I := I) hm.nodup
      rw [hsplit] at hnodup ⊢
      exact pairwise_before hnodup fun q hq _ ↦ hpre q hq
  · refine List.Pairwise.imp_of_mem (fun _ hr _ hrp ↦ ?_) (nodup_slotsOf hm.nodup)
    exact absurd (hrp ▸ hr) hp

theorem slot_first_ne_zero (h : Tidy I I' d l p old new) : (I'.entry p).first ≠ 0 := by
  rcases h.slot with ⟨hdeleted, -⟩ | hplaced
  · rw [hdeleted]
    decide
  · exact hplaced.live.1.1

theorem ends (h : Tidy I I' d l p old new) (he : I'.IsDir e) (hm : I'.Chain e m) :
    (I'.slotsOf m).Pairwise fun q r ↦ (I'.entry q).first = 0 → ¬(I'.entry r).Used := by
  rcases h.isDir_cases he with ⟨he, hkept⟩ | ⟨hlive, hdir, rfl⟩
  · obtain ⟨hm', hsame⟩ := h.kept_slots he hkept hm
    have hends := h.wf.ends e m he hm'
    rw [← h.slotsOf_eq] at hends
    have hbefore := h.no_mark_before he hm'
    rw [← h.slotsOf_eq] at hbefore
    refine List.Pairwise.imp_of_mem ?_ (hends.and hbefore)
    rintro q r hq hr ⟨hmark, hslot⟩ hzero hused
    have hqp : q ≠ p := by
      rintro rfl
      exact h.slot_first_ne_zero hzero
    rw [hsame q hq hqp] at hzero
    by_cases hrp : r = p
    · exact hslot hrp (hrp ▸ hused) hzero
    · rw [hsame r hr hrp] at hused
      exact hmark hzero hused
  · have hplaced := h.placed hlive
    obtain rfl := hm.unique (h.total ▸ h.wf.small) (hplaced.chain.of_directory hdir)
    exact hplaced.inner_ends hdir

theorem intact (h : Tidy I I' d l p old new) : I'.Intact where
  small := h.total ▸ h.wf.small
  root_chain := by
    obtain ⟨m, hm⟩ := h.wf.root_chain
    refine ⟨m, ?_⟩
    rw [h.root]
    exact hm.congr h.total (h.owns_fat (o := none) hm nofun)
  entry_chain := by
    intro q hq
    rcases h.isEntry_cases hq with ⟨hqp, hentry⟩ | ⟨rfl, hlive⟩
    · obtain ⟨m, hm⟩ := h.wf.entry_chain q hentry
      exact ⟨m, ((h.frame hentry hqp).2 m hm).1⟩
    · exact ⟨new, (h.placed hlive).chain⟩
  disjoint := fun _ _ _ _ ho ho' hne ↦ h.disjoint ho ho' hne
  size_le := fun _ _ hq hm hfile ↦ h.size_le hq hm hfile
  names := fun _ _ _ _ he hm hq hr hqlive hrlive hname ↦
    h.names he hm hq hr hqlive hrlive hname
  ends := fun _ _ he hm ↦ h.ends he hm

/-! ### Edits that lose nothing -/

section Empty

variable (hempty : OnlyDots I p old)

include hempty

theorem not_removed_of_entry (h : Tidy I I' d l p old new) (hm : I.Chain e m)
    (hq : q ∈ I.slotsOf m) (hlive : (I.entry q).Live) (hdot : ¬(I.entry q).IsDot) :
    ¬Removed I p e := by
  intro hrem
  obtain rfl := h.removed_eq_old hrem hm
  obtain ⟨⟨_, _, -, -, -, hplive, -⟩, hdir, -⟩ := hrem
  exact hdot (hempty hplive hdir q hq hlive)

theorem isDir_of_kept (h : Tidy I I' d l p old new) (he : I.IsDir e) (hkept : ¬Removed I p e) :
    I'.IsDir e := by
  induction he with
  | root =>
      rw [← h.root]
      exact .root
  | @sub e m q he hm hq hlive hdot hdir ih =>
      have hentry : I.IsEntry q := .of_mem he hm hq hlive hdot
      have hne : q ≠ p := by
        rintro rfl
        exact hkept ⟨hentry, hdir, rfl⟩
      have he' := h.not_removed_of_entry hempty hm hq hlive hdot
      have hsame := h.entry_other hne (h.entry_notMem_new hentry)
      rw [← hsame] at hlive hdot hdir ⊢
      exact .sub (ih he') (h.chain_keep he hm he') (h.slotsOf_eq ▸ hq) hlive hdot hdir

theorem isEntry_of_ne (h : Tidy I I' d l p old new) (hentry : I.IsEntry q) (hqp : q ≠ p) :
    I'.IsEntry q := by
  have hsame := h.entry_other hqp (h.entry_notMem_new hentry)
  obtain ⟨e, m, he, hm, hq, hlive, hdot⟩ := hentry
  have hkept := h.not_removed_of_entry hempty hm hq hlive hdot
  rw [← hsame] at hlive hdot
  exact .of_mem (h.isDir_of_kept hempty he hkept) (h.chain_keep he hm hkept) (h.slotsOf_eq ▸ hq)
    hlive hdot

theorem owns_of_kept (h : Tidy I I' d l p old new) (ho : I.Owns o m) (hne : o ≠ some p) :
    I'.Owns o m := by
  cases o with
  | none =>
      have hchain : I.Chain I.root m := ho
      rw [Owns, h.root]
      exact hchain.congr h.total (h.owns_fat ho hne)
  | some q =>
      have hqp : q ≠ p := fun hsame ↦ hne (congrArg some hsame)
      exact ⟨h.isEntry_of_ne hempty ho.1 hqp, ((h.frame ho.1 hqp).2 m ho.2).1⟩

theorem wellFormed (h : Tidy I I' d l p old new) (hI : I.WellFormed) : I'.WellFormed where
  toIntact := h.intact
  no_leak := by
    intro c hlo hhi hused hbad
    by_cases hnew : c ∈ new
    · rcases h.slot with ⟨-, rfl⟩ | hplaced
      · cases hnew
      · exact ⟨some p, new, ⟨h.isEntry_slot hplaced.live, hplaced.chain⟩, hnew⟩
    · have hold : c ∉ old := fun hold ↦ hused (h.fat_freed c hold hnew)
      rw [h.fat_other c hold hnew] at hused hbad
      obtain ⟨o, m, ho, hc⟩ := hI.no_leak c hlo (h.total ▸ hhi) hused hbad
      refine ⟨o, m, h.owns_of_kept hempty ho ?_, hc⟩
      rintro rfl
      -- the chain of the old entry is `old`
      rcases h.owned with hown | ⟨hdead, -⟩
      · exact hold (ho.unique h.wf.small hown ▸ hc)
      · obtain ⟨⟨_, _, -, -, -, hlive, -⟩, -⟩ := ho
        exact hdead hlive

end Empty

end Tidy

end MyOS.Fat32.Image
