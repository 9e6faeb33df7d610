import MyOS.Fat32.Certificate
import MyOS.Fat32.Operations

/-!
# Calls that change a volume

`fat32_create`, `fat32_write_file`, `fat32_remove`, `fat32_mkdir` and `fat32_rmdir` work on one
name in the working directory.  A call that succeeds edits the slot of that name; a call that
fails leaves the image alone, unless it is a `fat32_write_file` that has run out of clusters.
On a drive without failures a call returns 0 exactly when what it needs is there: a name that is
free or taken, a free slot in the working directory, free clusters.  From this follow what a call
keeps of the other entries, and when it keeps the volume well formed: `dir_is_empty` passes over
names such as `..A`, so `fat32_rmdir` can take away a directory that is in use.
-/

namespace MyOS.Fat32

open Image

namespace Image

/-- The entry in slot `q` has kept its 32 bytes, its chain and the contents of its clusters,
the bytes of slot `p` excepted. -/
def Kept (I I' : Image) (p q : Pos) : Prop :=
  I'.entry q = I.entry q ∧ ∀ m, I.EntryChain q m → I'.EntryChain q m ∧
    ∀ c ∈ m, ∀ i, (c, i / 32) ≠ p → I'.data c i = I.data c i

end Image

variable {v v' : Vol} {op : Op} {l old new : List ℕ} {p q : Pos} {r : ℤ} {name : List UInt8}

/-! ## The effect of a call -/

/-- What a `fat32_write_file` without enough room does: the chain of the file, if there was
one, is gone, and free clusters have been overwritten. -/
structure Op.Exhausts (op : Op) (v v' : Vol) (l : List ℕ) (p : Pos) (old new : List ℕ) : Prop where
  site : Site v.image v.cwdCluster l p old
  file : (v.image.entry p).Live →
    (v.image.entry p).isDirectory = false ∧ (v.image.entry p).name = toShortName op.name ∧
      ¬(v.image.entry p).IsDot
  full : ∃ name data size, op = .writeFile name data size ∧
    (v.image.release old).freeClusters.length * (32 * v.image.slots) < size
  scratched : Scratched (v.image.release old) v'.image new

/-- The ways a call can end. -/
def Op.Ends (op : Op) (v v' : Vol) (l : List ℕ) (r : ℤ) : Prop :=
  r = -1 ∧ v'.image = v.image ∨
    r = -1 ∧ (∃ p old new, op.Exhausts v v' l p old new) ∨
    r = 0 ∧ ∃ p old new, op.Edits v v' l p old new

theorem fat32Create_ends (h : v.Sound) (hl : v.image.Chain v.cwdCluster l) (hname : Ascii name) :
    ∃ r v', fat32Create v name = .done (r, v') ∧ v'.Ready ∧ Keeps v v' ∧
      (Op.create name).Ends v v' l r := by
  obtain ⟨r, v', hrun, hv', hkeep, hres⟩ := fat32Create_spec h hl name
  refine ⟨r, v', hrun, hv', hkeep, ?_⟩
  rcases hres with ⟨hr, -, himage⟩ | ⟨hr, -, p, -, -, hedit⟩
  · exact Or.inl ⟨hr, himage⟩
  · exact Or.inr (Or.inr ⟨hr, p, [], [], hedit hname⟩)

theorem fat32Remove_ends (h : v.Sound) (hl : v.image.Chain v.cwdCluster l) (name : List UInt8) :
    ∃ r v', fat32Remove v name = .done (r, v') ∧ v'.Ready ∧ Keeps v v' ∧
      (Op.remove name).Ends v v' l r := by
  obtain ⟨r, v', hrun, hv', hkeep, hres⟩ := fat32Remove_spec h hl name
  refine ⟨r, v', hrun, hv', hkeep, ?_⟩
  rcases hres with ⟨hr, -, himage⟩ | ⟨hr, -, p, old, -, -, hedit⟩
  · exact Or.inl ⟨hr, himage⟩
  · exact Or.inr (Or.inr ⟨hr, p, old, [], hedit⟩)

theorem fat32Rmdir_ends (h : v.Sound) (hl : v.image.Chain v.cwdCluster l) (name : List UInt8) :
    ∃ r v', fat32Rmdir v name = .done (r, v') ∧ v'.Ready ∧ Keeps v v' ∧
      (Op.rmdir name).Ends v v' l r := by
  obtain ⟨r, v', hrun, hv', hkeep, hres⟩ := fat32Rmdir_spec h hl name
  refine ⟨r, v', hrun, hv', hkeep, ?_⟩
  rcases hres with ⟨hr, -, himage⟩ | ⟨hr, -, p, old, -, -, -, -, -, hedit⟩
  · exact Or.inl ⟨hr, himage⟩
  · exact Or.inr (Or.inr ⟨hr, p, old, [], hedit⟩)

theorem fat32Mkdir_ends (h : v.Sound) (hl : v.image.Chain v.cwdCluster l) (hname : Ascii name) :
    ∃ r v', fat32Mkdir v name = .done (r, v') ∧ v'.Ready ∧ Keeps v v' ∧
      (Op.mkdir name).Ends v v' l r := by
  obtain ⟨r, v', hrun, hv', hkeep, hres⟩ := fat32Mkdir_spec h hl name
  refine ⟨r, v', hrun, hv', hkeep, ?_⟩
  rcases hres with ⟨hr, -, himage⟩ | ⟨hr, -, p, c, parent, -, -, -, hedit⟩
  · exact Or.inl ⟨hr, himage⟩
  · exact Or.inr (Or.inr ⟨hr, p, [], [c], hedit hname⟩)

theorem fat32WriteFile_ends (h : v.Sound) (hl : v.image.Chain v.cwdCluster l)
    (hname : Ascii name ∨ ∃ q ∈ v.image.slotsOf l, (v.image.entry q).Live ∧
      (v.image.entry q).name = toShortName name) (data : Bytes) {size : ℕ}
    (hsize : size < 2 ^ 32) :
    ∃ r v', fat32WriteFile v name data size = .done (r, v') ∧ v'.Ready ∧ Keeps v v' ∧
      (Op.writeFile name data size).Ends v v' l r := by
  obtain ⟨r, v', hrun, hv', hkeep, hres⟩ := fat32WriteFile_spec h hl name data hsize
  refine ⟨r, v', hrun, hv', hkeep, ?_⟩
  rcases hres with ⟨hr, -, himage, -⟩ | ⟨p, old, e, hplace, hsite, hres⟩
  · exact Or.inl ⟨hr, himage⟩
  have hsite : WriteSite v.image v.cwdCluster l p old (toShortName name) e := by
    refine hsite (hname.imp_right ?_)
    rintro ⟨q, hq, hqlive, hsame⟩
    exact hplace.live_of_mem hq hqlive hsame
  rcases hres with ⟨hr, -, hfull, N, hscratch⟩ | ⟨hr, -, N, J, hfill, hfits, -, himage⟩
  · exact Or.inr (Or.inl ⟨hr, p, old, N, hsite.toSite, hsite.was_file,
      ⟨name, data, size, rfl, hfull⟩, hscratch⟩)
  · exact Or.inr (Or.inr ⟨hr, p, old, N, hsite.edits hfill hsize hfits himage⟩)

/-- Every call returns, and ends in one of the three ways. -/
theorem Op.run_ends (h : v.Sound) (hl : v.image.Chain v.cwdCluster l) (hop : op.Valid) :
    ∃ r v', op.run v = .done (r, v') ∧ v'.Ready ∧ Keeps v v' ∧ op.Ends v v' l r := by
  cases op with
  | create name => exact fat32Create_ends h hl hop.1
  | writeFile name data size => exact fat32WriteFile_ends h hl (Or.inl hop.1) data hop.2
  | remove name => exact fat32Remove_ends h hl name
  | mkdir name => exact fat32Mkdir_ends h hl hop.1
  | rmdir name => exact fat32Rmdir_ends h hl name

theorem Op.ends_of_run (h : v.Sound) (hl : v.image.Chain v.cwdCluster l) (hop : op.Valid)
    (hrun : op.run v = .done (r, v')) : v'.Ready ∧ Keeps v v' ∧ op.Ends v v' l r := by
  obtain ⟨r', v'', hrun', hv', hkeep, hends⟩ := Op.run_ends h hl hop
  rw [hrun] at hrun'
  cases hrun'
  exact ⟨hv', hkeep, hends⟩

/-! ## When a call succeeds -/

/-- The call returns, with 0 exactly if it was possible. -/
def Op.Decided (op : Op) (v : Vol) : Prop :=
  ∃ r v', op.run v = .done (r, v') ∧ (r = 0 ∧ op.Possible v ∨ r = -1 ∧ ¬op.Possible v)

theorem Op.decided (h : v.Sound) (hsize : op.size < 2 ^ 32) : op.Decided v := by
  obtain ⟨l, hl⟩ := h.wf.dir_chain h.cwd
  cases op with
  | create name =>
      obtain ⟨r, v', hrun, -, -, ⟨hr, hno, -⟩ | ⟨hr, hposs, -⟩⟩ := fat32Create_spec h hl name
      · exact ⟨r, v', hrun, Or.inr ⟨hr, hno⟩⟩
      · exact ⟨r, v', hrun, Or.inl ⟨hr, hposs⟩⟩
  | writeFile name data size =>
      obtain ⟨r, v', hrun, -, -, ⟨hr, hno, -⟩ |
        ⟨p, old, e, -, -, ⟨hr, hno, -⟩ | ⟨hr, hposs, -⟩⟩⟩ :=
        fat32WriteFile_spec h hl name data hsize
      · exact ⟨r, v', hrun, Or.inr ⟨hr, hno⟩⟩
      · exact ⟨r, v', hrun, Or.inr ⟨hr, hno⟩⟩
      · exact ⟨r, v', hrun, Or.inl ⟨hr, hposs⟩⟩
  | remove name =>
      obtain ⟨r, v', hrun, -, -, ⟨hr, hno, -⟩ | ⟨hr, hposs, -⟩⟩ := fat32Remove_spec h hl name
      · exact ⟨r, v', hrun, Or.inr ⟨hr, hno⟩⟩
      · exact ⟨r, v', hrun, Or.inl ⟨hr, hposs⟩⟩
  | mkdir name =>
      obtain ⟨r, v', hrun, -, -, ⟨hr, hno, -⟩ | ⟨hr, hposs, -⟩⟩ := fat32Mkdir_spec h hl name
      · exact ⟨r, v', hrun, Or.inr ⟨hr, hno⟩⟩
      · exact ⟨r, v', hrun, Or.inl ⟨hr, hposs⟩⟩
  | rmdir name =>
      obtain ⟨r, v', hrun, -, -, ⟨hr, hno, -⟩ | ⟨hr, hposs, -⟩⟩ := fat32Rmdir_spec h hl name
      · exact ⟨r, v', hrun, Or.inr ⟨hr, hno⟩⟩
      · exact ⟨r, v', hrun, Or.inl ⟨hr, hposs⟩⟩

/-- Every call returns, with 0 exactly when what it needs is there. -/
theorem call_succeeds_iff (h : v.Sound) (hsize : op.size < 2 ^ 32) :
    ∃ r v', op.run v = .done (r, v') ∧ (r = 0 ↔ op.Possible v) ∧ (r = 0 ∨ r = -1) := by
  obtain ⟨r, v', hrun, ⟨rfl, hposs⟩ | ⟨rfl, himposs⟩⟩ := Op.decided h hsize
  · exact ⟨0, v', hrun, iff_of_true rfl hposs, Or.inl rfl⟩
  · exact ⟨-1, v', hrun, iff_of_false (by norm_num) himposs, Or.inr rfl⟩

/-- `mkdir` on a volume of one cluster, which the root directory takes. -/
theorem call_succeeds_iff_full : ∃ r v',
    (Op.mkdir [0x41]).run (smallVol 1 [(2, 0x0FFFFFFF)] []) = .done (r, v') ∧
      (r = 0 ↔ (Op.mkdir [0x41]).Possible (smallVol 1 [(2, 0x0FFFFFFF)] [])) ∧
      (r = 0 ∨ r = -1) :=
  call_succeeds_iff ⟨smallVol_ready (by norm_num) _ _,
    (Fits.wellFormed (L := ⟨[2], []⟩) (by decide +kernel)).toIntact, .root⟩ (by decide)

/-! ## The other entries -/

theorem Op.Edits.named (h : op.Edits v v' l p old new) :
    v.image.Named v.cwdCluster (toShortName op.name) p ∨
      v'.image.Named v.cwdCluster (toShortName op.name) p := by
  rcases h.live with hlive | hlive
  · exact Or.inl ⟨l, h.chain, h.mem, hlive, h.name_before hlive⟩
  · exact Or.inr ⟨l, h.chain_keep h.dir h.chain h.dir_not_removed, h.slotsOf_eq ▸ h.mem, hlive,
      h.name_after hlive⟩

/-- A volume whose root holds the directory `D`, with `.`, `..` and a one-byte file `..A`. -/
def occupiedVol : Vol :=
  smallVol 3 [(2, 0x0FFFFFFF), (3, 0x0FFFFFFF), (4, 0x0FFFFFFF)]
    [((2, 0), newDirent (padTo 11 [0x44]) fatAttrDirectory 3 0),
     ((3, 0), newDirent dotName fatAttrDirectory 3 0),
     ((3, 1), newDirent dotdotName fatAttrDirectory 0 0),
     ((3, 2), newDirent (padTo 11 [chDot, chDot, 0x41]) 0x20 4 1)]

theorem occupiedVol_fits : occupiedVol.image.Fits ⟨[2], [((2, 0), [3]), ((3, 2), [4])]⟩ := by
  decide +kernel

theorem Outcome.exists_of_code {x : Outcome (ℤ × Vol)}
    (h : x.value?.map Prod.fst = some r) : ∃ v', x = .done (r, v') := by
  obtain ⟨⟨r', v'⟩, hx, rfl⟩ := Option.map_eq_some_iff.mp h
  exact ⟨v', Outcome.value?_eq_some.mp hx⟩

/-- A well-formed volume, ready for use, with a live working directory. -/
structure Vol.Good (v : Vol) : Prop where
  ready : v.Ready
  wf : v.image.WellFormed
  cwd : v.image.IsDir v.cwdCluster

theorem Vol.Good.sound (h : v.Good) : v.Sound := ⟨h.ready, h.wf.toIntact, h.cwd⟩

/-- No entry has come or gone or changed but the named one. -/
def Image.OthersKept (I I' : Image) (d : ℕ) (target : List UInt8) : Prop :=
  ∃ p, (I.Named d target p ∨ I'.Named d target p) ∧
    ∀ q, q ≠ p → (I'.IsEntry q ↔ I.IsEntry q) ∧ (I.IsEntry q → I.Kept I' p q)

/-- The call is a `fat32_rmdir` of a directory that holds an entry besides `.` and `..`. -/
def Op.TakesOccupied (op : Op) (v : Vol) : Prop :=
  ∃ name p m q, op = .rmdir name ∧ v.image.Named v.cwdCluster (toShortName name) p ∧
    (v.image.entry p).isDirectory = true ∧ v.image.EntryChain p m ∧ q ∈ v.image.slotsOf m ∧
    (v.image.entry q).Live ∧ ¬(v.image.entry q).IsDot

/-- An edit that leaves nothing behind keeps the volume well formed. -/
theorem Op.Edits.good (h : op.Edits v v' l p old new) (hv : v.Good) (hv' : v'.Ready)
    (hkeep : Keeps v v') (hempty : OnlyDots v.image p old) :
    v'.Good ∧ v.image.OthersKept v'.image v.cwdCluster (toShortName op.name) := by
  refine ⟨⟨hv', h.wellFormed hempty hv.wf, ?_⟩, p, h.named, fun q hqp ↦ ⟨⟨fun hq ↦ ?_, fun hq ↦ ?_⟩,
    fun hq ↦ h.frame hq hqp⟩⟩
  · rw [hkeep.cwd]
    exact h.isDir_dir
  · rcases h.isEntry_cases hq with ⟨-, hentry⟩ | ⟨hsame, -⟩
    · exact hentry
    · exact absurd hsame hqp
  · exact h.isEntry_of_ne hempty hq hqp

/-- The entries of a directory that is taken away are lost. -/
theorem lost_of_takesOccupied (h : v.Good) (hop : op.Valid) (hrun : op.run v = .done (0, v'))
    (htakes : op.TakesOccupied v) :
    ¬v.image.OthersKept v'.image v.cwdCluster (toShortName op.name) := by
  obtain ⟨name, p, m, q, rfl, ⟨l, hl, hp, hlive, hname⟩, hdir, hm, hq, hqlive, hqdot⟩ := htakes
  rintro ⟨p', hnamed, hothers⟩
  obtain ⟨r, v'', hrun', -, -, hres⟩ := fat32Rmdir_spec h.sound hl name
  obtain ⟨rfl, rfl⟩ : (0 : ℤ) = r ∧ v' = v'' := by
    have hsame := hrun.symm.trans hrun'
    injection hsame with hpair
    exact ⟨congrArg Prod.fst hpair, congrArg Prod.snd hpair⟩
  rcases hres with ⟨hr, -⟩ | ⟨-, -, p₀, old, hentry, hdir₀, hold, -, -, hedit⟩
  · cases hr
  -- the directory that went is the one of the name, and its chain was released
  have hlive₀ : (v.image.entry p₀).Live := hentry.choose_spec.choose_spec.2.2.2.1
  obtain rfl : p₀ = p := h.wf.names _ l p₀ p h.cwd hl hedit.mem hp hlive₀ hlive
    ((hedit.name_before hlive₀).trans hname.symm)
  obtain rfl := hm.unique h.wf.small hold
  have hqm : q.1 ∈ m := (mem_slotsOf.mp hq).1
  have hfree : v'.image.fat q.1 = 0 := hedit.fat_freed q.1 hqm List.not_mem_nil
  have hsub : v.image.IsDir (v.image.entry p₀).start := by
    have hdot := not_dot_of_shortName hname
    exact .sub h.cwd hl hp hlive hdot hdir
  have hqentry : v.image.IsEntry q := .of_mem hsub (hm.of_directory hdir) hq hqlive hqdot
  -- slot `p'` lies in the working directory, slot `q` does not
  have hslot : p'.1 ∈ l := by
    rcases hnamed with ⟨l', hl', hp', -⟩ | ⟨l', hl', hp', -⟩
    · obtain rfl := hl.unique h.wf.small hl'
      exact (mem_slotsOf.mp hp').1
    · have hkept := hedit.chain_keep hedit.dir hl hedit.dir_not_removed
      obtain rfl := hkept.unique (hedit.total ▸ h.wf.small) hl'
      exact (mem_slotsOf.mp hp').1
  have hdisj := h.wf.entry_notMem_chain h.cwd hl (mem_slotsOf.mp hp).1 ⟨hentry, hm⟩
  have hne : q ≠ p' := by
    rintro rfl
    exact hdisj hslot hqm
  obtain ⟨e, m', -, hm', hq', -⟩ := (hothers q hne).1.mpr hqentry
  exact hm'.fat_ne_zero (mem_slotsOf.mp hq').1 hfree

/-- A successful call keeps the volume well formed and every other entry as it was, exactly
when it is not a `fat32_rmdir` of a directory in use. -/
theorem successful_call_iff (h : v.Good) (hop : op.Valid) (hrun : op.run v = .done (0, v')) :
    v'.Good ∧ v.image.OthersKept v'.image v.cwdCluster (toShortName op.name) ↔
      ¬op.TakesOccupied v := by
  refine ⟨fun hkept htakes ↦ lost_of_takesOccupied h hop hrun htakes hkept.2, fun hnot ↦ ?_⟩
  obtain ⟨l, hl⟩ := h.wf.dir_chain h.cwd
  obtain ⟨hv', hkeep, hends⟩ := Op.ends_of_run h.sound hl hop hrun
  rcases hends with ⟨hr, -⟩ | ⟨hr, -⟩ | ⟨-, p, old, new, hedit⟩
  · cases hr
  · cases hr
  rcases hedit.gone with hfile | ⟨hrmdir, hentry, hdir, hold⟩
  · exact hedit.good h hv' hkeep (onlyDots_of_file hfile)
  · refine hedit.good h hv' hkeep fun hlive _ q hq hqlive ↦ ?_
    by_contra hdot
    exact hnot ⟨op.name, p, old, q, hrmdir, ⟨l, hl, hedit.mem, hlive, hedit.name_before hlive⟩,
      hdir, hold, hq, hqlive, hdot⟩

theorem occupiedVol_good : occupiedVol.Good :=
  ⟨smallVol_ready (by norm_num) _ _, occupiedVol_fits.wellFormed, .root⟩

theorem successful_call_iff_occupied : ∃ v', (Op.create [0x42]).run occupiedVol = .done (0, v') ∧
    (v'.Good ∧ occupiedVol.image.OthersKept v'.image occupiedVol.cwdCluster (toShortName [0x42]) ↔
      ¬(Op.create [0x42]).TakesOccupied occupiedVol) := by
  obtain ⟨v', hrun⟩ := Outcome.exists_of_code (r := 0) (x := (Op.create [0x42]).run occupiedVol)
    (by decide +kernel)
  exact ⟨v', hrun, successful_call_iff occupiedVol_good (by decide) hrun⟩

/-- `rmdir D` succeeds on that volume, and the file `..A` is gone. -/
theorem rmdir_loses_file : ∃ v', (Op.rmdir [0x44]).run occupiedVol = .done (0, v') ∧
    ¬(v'.Good ∧
      occupiedVol.image.OthersKept v'.image occupiedVol.cwdCluster (toShortName [0x44])) := by
  obtain ⟨v', hrun⟩ := Outcome.exists_of_code (r := 0) (x := (Op.rmdir [0x44]).run occupiedVol)
    (by decide +kernel)
  refine ⟨v', hrun, fun hkept ↦ ?_⟩
  refine lost_of_takesOccupied occupiedVol_good (by decide) hrun ?_ hkept.2
  have hchain := (occupiedVol_fits.2.2.1 ((2, 0), [3]) (by simp)).entryChain
  exact ⟨[0x44], (2, 0), [3], (3, 2), rfl, ⟨[2], occupiedVol_fits.root_chain, by decide +kernel,
    by decide +kernel, by decide +kernel⟩, by decide +kernel, hchain, by decide +kernel,
    by decide +kernel, by decide +kernel⟩

end MyOS.Fat32
