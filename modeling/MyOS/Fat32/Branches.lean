import MyOS.Fat32.Links

/-!
# Branches of the directory tree

A call works in one directory, but somebody else may stand in another one.  That one stays a
live directory unless the call is a `fat32_rmdir` that takes it away, or takes a directory
above it away; `dir_is_empty` lets the second happen too, for sub-directories with names such
as `..A`.
-/

namespace MyOS.Fat32

open Image

variable {v v' : Vol} {I I' J : Image} {op : Op} {l m old new N : List ℕ} {p q : Pos}
  {d e t : ℕ} {r : ℤ} {name : List UInt8}

namespace Image

/-- Directory `e` is `t` or lies somewhere below it. -/
inductive Below (I : Image) (t : ℕ) : ℕ → Prop
  | self : Below I t t
  | sub {d : ℕ} {p : Pos} (hd : Below I t d) (hsub : I.HasSub d p) : Below I t (I.entry p).start

/-- A directory outside the branch that is taken away is still there. -/
theorem Tidy.isDir_of_spared (h : Tidy I I' d l p old new) (he : I.IsDir e)
    (hspared : ∀ t, Edit.Removed I p t → ¬I.Below t e) : I'.IsDir e := by
  induction he with
  | root =>
      rw [← h.root]
      exact .root
  | @sub e m q he hm hq hlive hdot hdir ih =>
      have hsub : I.HasSub e q := ⟨he, ⟨m, hm, hq⟩, hlive, hdot, hdir⟩
      have hentry := hsub.isEntry
      have hne : q ≠ p := by
        rintro rfl
        exact hspared _ ⟨hentry, hdir, rfl⟩ .self
      have hkept : ¬Edit.Removed I p e := fun hrem ↦ hspared e hrem (.sub .self hsub)
      have hsame := h.entry_other hne (h.entry_notMem_new hentry)
      have hparent := ih fun t hrem hbelow ↦ hspared t hrem (.sub hbelow hsub)
      rw [← hsame] at hlive hdot hdir ⊢
      exact .sub hparent (h.chain_keep he hm hkept) (h.slotsOf_eq ▸ hq) hlive hdot hdir

/-- The root has no `.` and no `..`. -/
def PlainRoot (I : Image) : Prop :=
  ∀ l p, I.Chain I.root l → p ∈ I.slotsOf l → (I.entry p).Live → ¬(I.entry p).IsDot

theorem Tidy.plainRoot (h : Tidy I I' d l p old new) (hplain : I.PlainRoot) : I'.PlainRoot := by
  intro m q hm hq hlive hdot
  rw [h.root] at hm
  obtain ⟨hm', hsame⟩ := h.kept_slots .root h.root_not_removed hm
  by_cases hqp : q = p
  · subst hqp
    exact (h.placed hlive).not_dot hdot
  · rw [hsame q hq hqp] at hlive hdot
    exact hplain m q hm' (h.slotsOf_eq ▸ hq) hlive hdot

end Image

theorem Image.Agree.plainRoot (h : Agree I.Owned I J) (hI : I.Intact) (hplain : I.PlainRoot) :
    J.PlainRoot := by
  intro l p hl hp hlive
  rw [h.root, h.chain_iff hI .root] at hl
  rw [h.slotsOf] at hp
  have hsame := h.entry_eq hI .root hl hp
  rw [hsame] at hlive ⊢
  exact hplain l p hl hp hlive

/-! ## Calls -/

/-- The call takes a directory away that is `e` or lies above it. -/
def Op.TakesBranch (op : Op) (v : Vol) (e : ℕ) : Prop :=
  ∃ name p, op = .rmdir name ∧ v.image.Named v.cwdCluster (toShortName name) p ∧
    (v.image.entry p).isDirectory = true ∧ v.image.Below (v.image.entry p).start e

/-- What a call that succeeds edits, and what it takes away. -/
theorem Op.edit_cases (h : v.Sound) (hl : v.image.Chain v.cwdCluster l) (hop : op.Valid)
    (hrun : op.run v = .done (0, v')) :
    ∃ p old new, Tidy v.image v'.image v.cwdCluster l p old new ∧
      ∀ t, Edit.Removed v.image p t → ∀ e, v.image.Below t e → op.TakesBranch v e := by
  obtain ⟨-, -, ⟨hr, -⟩ | ⟨hr, -⟩ | ⟨-, p, old, new, hedit⟩⟩ := Op.ends_of_run h hl hop hrun
  · cases hr
  · cases hr
  refine ⟨p, old, new, hedit.toTidy, ?_⟩
  rintro t ⟨⟨_, _, -, -, -, hlive, -⟩, hdir, rfl⟩ e hbelow
  rcases hedit.gone with hfile | ⟨hrmdir, -⟩
  · rw [hfile hlive] at hdir
    cases hdir
  · exact ⟨op.name, p, hrmdir, ⟨l, hl, hedit.mem, hlive, hedit.name_before hlive⟩, hdir, hbelow⟩

/-- A directory that the call does not take away, with all that is above it, stays alive. -/
theorem Op.keeps_dir (h : v.Sound) (hop : op.Valid) (hnot : ¬op.RunsOut v)
    (hspared : ¬op.TakesBranch v e) (he : v.image.IsDir e) (hrun : op.run v = .done (r, v')) :
    v'.image.IsDir e := by
  obtain ⟨l, hl⟩ := h.wf.dir_chain h.cwd
  obtain ⟨-, -, ⟨-, N, hscratch⟩ | ⟨rfl, -⟩⟩ := Op.effect_of_run h hl hop hnot hrun
  · exact (hscratch.agree.isDir_iff h.wf).mpr he
  · obtain ⟨p, old, new, htidy, hbranch⟩ := Op.edit_cases h hl hop hrun
    exact htidy.isDir_of_spared he fun t hrem hbelow ↦ hspared (hbranch t hrem e hbelow)

/-- A linked volume whose root has no dot entries. -/
structure Vol.Formed (v : Vol) : Prop extends v.Tree where
  plain : v.image.PlainRoot

theorem Op.step_formed (h : v.Formed) (hop : op.Valid) (hnot : ¬op.RunsOut v)
    (hrun : op.run v = .done (r, v')) : v'.Formed := by
  refine ⟨Op.step_tree h.toTree hop hnot hrun, ?_⟩
  obtain ⟨l, hl⟩ := h.wf.dir_chain h.cwd
  obtain ⟨-, -, ⟨-, N, hscratch⟩ | ⟨-, p, old, new, hedit⟩⟩ :=
    Op.effect_of_run h.toSound hl hop hnot hrun
  · exact hscratch.agree.plainRoot h.wf h.plain
  · exact hedit.toTidy.plainRoot h.plain

theorem Moved.formed (h : Moved v v') (hv : v.Formed) (hcwd : v.image.IsDir v'.cwdCluster) :
    v'.Formed := by
  refine ⟨h.tree hv.toTree hcwd, ?_⟩
  rw [h.image]
  exact hv.plain

/-- Whatever entry of the working directory is read, its clusters are a chain of the volume, or
it has none. -/
theorem Vol.Formed.entry_start (h : v.Formed) (hl : v.image.Chain v.cwdCluster l)
    (hp : p ∈ v.image.slotsOf l) (hlive : (v.image.entry p).Live) :
    (∃ m, v.image.EntryChain p m) ∨ (v.image.entry p).start = 0 := by
  by_cases hdot : (v.image.entry p).IsDot
  · rcases h.cwd.cases_sub with hroot | ⟨d, q, hsub, hstart⟩
    · rw [hroot] at hl
      exact absurd hdot (h.plain l p hl hp hlive)
    -- the dot entries of a sub-directory are the two that are linked
    have hlink := h.linked d q hsub
    rw [hstart] at hlink
    have hslots := h.ready.one_lt_slots
    have hsame : ∀ i < 2, (v.image.entry (v.cwdCluster, i)).Live →
        (v.image.entry p).name = (v.image.entry (v.cwdCluster, i)).name →
        p = (v.cwdCluster, i) := by
      intro i hi hilive hname
      have hmem : (v.cwdCluster, i) ∈ v.image.slotsOf l :=
        mem_slotsOf.mpr ⟨hl.start_mem, by omega⟩
      exact h.wf.names _ l p _ h.cwd hl hp hmem hlive hilive hname
    rcases hdot with hname | hname
    · obtain rfl := hsame 0 (by norm_num) hlink.dot_live (hname.trans hlink.dot_name.symm)
      refine Or.inl ⟨l, Or.inl ?_⟩
      rwa [hlink.dot_start]
    · obtain rfl := hsame 1 (by norm_num) hlink.dotdot_live (hname.trans hlink.dotdot_name.symm)
      by_cases hd : d = v.image.root
      · refine Or.inr ?_
        rw [hlink.dotdot_start, if_pos hd]
      · obtain ⟨m, hm⟩ := h.wf.dir_chain hsub.parent
        refine Or.inl ⟨m, Or.inl ?_⟩
        rwa [hlink.dotdot_start, if_neg hd]
  · exact Or.inl (h.wf.entry_chain p (.of_mem h.cwd hl hp hlive hdot))

end MyOS.Fat32
