import MyOS.Fat32.Files
import MyOS.Fat32.Links
import MyOS.Fat32.Lookup
import MyOS.Lib.Trace

/-!
# The driver as a file system

On a sound volume with canonical names every request to the driver is a step of the file system
that the volume stores, with the reply that it asks for, and so is every run of requests.  A call
is refused exactly if the file system does not allow it.  One kind of request is no such step: a
`fat32_write_file` to a file with clusters that finds no room for the new contents is refused, too,
but has released the old ones.
-/

namespace MyOS.Fat32

open Bytes Image

variable {v w : Vol} {op : Op} {l m old new N : List ℕ} {p q : Pos} {d c : ℕ}
  {name target : List UInt8}

/-! ## Requests -/

/-- The bytes that `fat32_find` and `fat32_read_file` give for a name, as `cat` calls them. -/
def readBytes (v : Vol) (name : List UInt8) (mem : Bytes) (dst max : ℕ) :
    Outcome (Option (List UInt8) × Vol) := do
  let r ← fat32Find v name
  match r.1 with
  | none => .done (none, r.2)
  | some e =>
      if e.isDirectory then .done (none, r.2)
      else do
        let q ← fat32ReadFile r.2 e mem dst max
        .done (some ((List.range q.1.toNat).map fun i ↦ q.2.1 (dst + i)), q.2.2)

namespace FileCall

def run : FileCall → Vol → Outcome (Reply × Vol)
  | .op op, v => do
      let r ← op.run v
      .done (.code r.1, r.2)
  | .chdir name, v => do
      let r ← fat32Chdir v name
      .done (.code r.1, r.2)
  | .read name mem dst max, v => do
      let r ← readBytes v name mem dst max
      .done (.contents r.1, r.2)

/-- Names of files are valid 8.3 names, and sizes fit into an `int`. -/
def Valid : FileCall → Prop
  | .op op => Valid83 op.name ∧ op.size < 2 ^ 32
  | .chdir name => Ascii name
  | .read name _ _ max => Valid83 name ∧ max < 2 ^ 31

/-- The request is a `fat32_write_file` without room for the new contents of an old file. -/
def RunsOut : FileCall → Vol → Prop
  | .op op, v => op.RunsOut v
  | _, _ => False

end FileCall

/-- One valid request and its reply. -/
def Answers (v : Vol) (x : FileCall × Reply) (w : Vol) : Prop :=
  x.1.Valid ∧ x.1.run v = .done (x.2, w)

/-- One valid request and its reply, other than a `fat32_write_file` that finds no room for the new
contents of a file with clusters: that one is answered with -1 after it has released the old
contents. -/
def Serves (v : Vol) (x : FileCall × Reply) (w : Vol) : Prop :=
  Answers v x w ∧ ¬x.1.RunsOut v

/-- A sound, linked volume with canonical names. -/
structure Vol.Shelf (v : Vol) : Prop extends v.Tree where
  canonical : ∀ p, v.image.IsEntry p → CanonicalName (v.image.entry p).name

theorem Valid83.canonical (h : Valid83 name) : CanonicalName (toShortName name) := by
  obtain ⟨base, ext, hbase, hne, hext, rfl⟩ := h
  refine ⟨base.map toUpper, ext.map toUpper, hbase.upper, by simpa using hne, hext.upper,
    ?_, ?_, ?_⟩
  · exact map_toUpper_map_toUpper _
  · exact map_toUpper_map_toUpper _
  · exact toShortName_joinName hbase.word hext.word

theorem CanonicalName.first_ne_dot {e : Dirent} (h : CanonicalName e.name) : e.first ≠ chDot := by
  obtain ⟨base, ext, hbase, hne, -, -, -, hname⟩ := h
  have hhead := Dirent.first_eq_head e
  cases base with
  | nil => exact absurd rfl hne
  | cons c base =>
      rw [hname] at hhead
      obtain rfl : c = e.first := Option.some.inj hhead
      exact (hbase.2.2 e.first List.mem_cons_self).2

theorem dotLike_of_isDot {e : Dirent} (h : e.IsDot) : e.DotLike := by
  have hone : e 1 = e.name.getD 1 0 := rfl
  refine ⟨Dirent.first_of_dot h, ?_⟩
  rw [hone]
  rcases h with hname | hname
  · rw [hname]
    exact Or.inl rfl
  · rw [hname]
    exact Or.inr rfl

theorem Valid83.ne_dot (h : Valid83 name) : name ≠ [chDot] := by
  rintro rfl
  exact not_plain_dot h.plain

/-! ### What the file system allows -/

theorem Vol.look_eq_none_iff (h : v.Sound) :
    v.files.look name = none ↔ v.Lacks (toShortName name) := by
  constructor
  · intro hlook p hp
    rw [Vol.look_named h hp] at hlook
    cases hlook
  · exact fun hlacks ↦ files_eq_none fun p hp ↦ hlacks p hp.2.1

theorem Vol.vacant_iff (h : v.Sound) :
    v.files.Vacant name ↔ v.Lacks (toShortName name) ∧ v.HasRoom := by
  obtain ⟨l, hl⟩ := h.wf.dir_chain h.cwd
  have hroom : 0 < v.files.room v.files.cwd ↔ v.HasRoom := by
    refine (room_pos_iff h.wf.small h.cwd hl).trans ⟨?_, ?_⟩
    · rintro ⟨p, hp, hunused⟩
      exact ⟨l, p, hl, hp, hunused⟩
    · rintro ⟨l', p, hl', hp, hunused⟩
      obtain rfl := hl'.unique h.wf.small hl
      exact ⟨p, hp, hunused⟩
  rw [Files.Vacant, Vol.look_eq_none_iff h, hroom]

theorem Vol.isFile_iff (h : v.Sound) : v.files.IsFile name ↔
    ∃ p, v.image.Named v.cwdCluster (toShortName name) p ∧
      (v.image.entry p).isDirectory = false := by
  constructor
  · rintro ⟨bytes, k, hlook⟩
    obtain ⟨p, hp, hnode⟩ := Vol.look_eq_some h hlook
    exact ⟨p, hp.2.1, node_eq_file hnode⟩
  · rintro ⟨p, hp, hfile⟩
    exact ⟨_, _, (Vol.look_named h hp).trans (congrArg some (node_file hfile))⟩

theorem Vol.Sound.isEntry_of_named (h : v.Sound)
    (hp : v.image.Named v.cwdCluster (toShortName name) p) : v.image.IsEntry p := by
  obtain ⟨l, hl, hp, hlive, hsame⟩ := hp
  exact .of_mem h.cwd hl hp hlive (not_dot_of_shortName hsame)

theorem Vol.fits_named (h : v.Sound) (hp : v.image.Named v.cwdCluster (toShortName name) p)
    (hold : v.image.EntryChain p old) (size : ℕ) : v.files.Fits name size ↔
      size ≤ (v.image.release old).freeClusters.length * (32 * v.image.slots) := by
  have hblocks : Node.blocksOf (some (v.image.node p)) = old.length :=
    node_blocks h.wf.small hold
  rw [Files.Fits, Vol.look_named h hp, hblocks, hold.release_length]
  rfl

theorem Vol.fits_new (hlook : v.files.look name = none) (size : ℕ) : v.files.Fits name size ↔
    size ≤ (v.image.release []).freeClusters.length * (32 * v.image.slots) := by
  have hsame : v.image.release [] = v.image := by simp [release]
  rw [Files.Fits, hlook, hsame]
  rfl

theorem writeFile_possible_iff (h : v.Sound) (data : Bytes) (size : ℕ) :
    (Op.writeFile name data size).Possible v ↔ v.files.Allows (.writeFile name data size) := by
  constructor
  · rintro ⟨old, hfits, ⟨p, hp, hfile, hold⟩ | ⟨hlacks, hroom, rfl⟩⟩
    · exact ⟨Or.inl ((Vol.isFile_iff h).mpr ⟨p, hp, hfile⟩),
        (Vol.fits_named h hp hold size).mpr hfits⟩
    · have hvacant := (Vol.vacant_iff h).mpr ⟨hlacks, hroom⟩
      exact ⟨Or.inr hvacant, (Vol.fits_new hvacant.1 size).mpr hfits⟩
  · rintro ⟨hfile | hvacant, hfits⟩
    · obtain ⟨p, hp, hfile⟩ := (Vol.isFile_iff h).mp hfile
      obtain ⟨old, hold⟩ := h.wf.entry_chain p (h.isEntry_of_named hp)
      exact ⟨old, (Vol.fits_named h hp hold size).mp hfits, Or.inl ⟨p, hp, hfile, hold⟩⟩
    · obtain ⟨hlacks, hroom⟩ := (Vol.vacant_iff h).mp hvacant
      exact ⟨[], (Vol.fits_new hvacant.1 size).mp hfits, Or.inr ⟨hlacks, hroom, rfl⟩⟩

/-- A directory in which `dir_is_empty` sees nothing is empty if all names are canonical. -/
theorem Vol.Shelf.onlyDots (h : v.Shelf) (hp : v.image.IsEntry p)
    (hold : v.image.EntryChain p old)
    (hall : ∀ q ∈ v.image.slotsOf old, (v.image.entry q).Live → (v.image.entry q).DotLike) :
    OnlyDots v.image p old := by
  intro _ hdir q hq hlive
  by_contra hdot
  obtain ⟨d, l, hd, hl, hpl, hplive, hpdot⟩ := hp
  have hsub : v.image.IsDir (v.image.entry p).start := .sub hd hl hpl hplive hpdot hdir
  have hentry : v.image.IsEntry q := .of_mem hsub (hold.of_directory hdir) hq hlive hdot
  exact (h.canonical q hentry).first_ne_dot (hall q hq hlive).1

theorem Image.OnlyDots.empty (hI : v.image.Intact) (h : OnlyDots v.image p old)
    (hlive : (v.image.entry p).Live) (hdir : (v.image.entry p).isDirectory = true)
    (hold : v.image.EntryChain p old) : v.files.Empty (v.image.entry p).start := by
  intro target
  refine files_eq_none ?_
  rintro q ⟨-, ⟨m, hm, hq, hqlive, -⟩, hdot⟩
  obtain rfl := hm.unique hI.small (hold.of_directory hdir)
  exact hdot (h hlive hdir q hq hqlive)

theorem rmdir_possible_iff (h : v.Shelf) (hname : Valid83 name) :
    (Op.rmdir name).Possible v ↔ v.files.Allows (.rmdir name) := by
  constructor
  · rintro ⟨-, -, p, m, hp, hdir, hm, hall⟩
    have hlive := hp.choose_spec.2.2.1
    have hempty := h.onlyDots (h.isEntry_of_named hp) hm hall
    exact ⟨_, _, (Vol.look_named h.toSound hp).trans (congrArg some (node_dir hdir)),
      hempty.empty h.wf hlive hdir hm⟩
  · rintro ⟨d, k, hlook, hempty⟩
    obtain ⟨p, hp, hnode⟩ := Vol.look_eq_some h.toSound hlook
    obtain ⟨hdir, rfl⟩ := node_eq_dir hnode
    obtain ⟨m, hm⟩ := h.wf.entry_chain p hp.isEntry
    refine ⟨hname.ne_dot, hname.ne_dots, p, m, hp.2.1, hdir, hm, fun q hq hlive ↦ ?_⟩
    by_cases hdot : (v.image.entry q).IsDot
    · exact dotLike_of_isDot hdot
    · -- an entry of a directory that has none
      have hsub : v.image.IsDir (v.image.entry p).start := by
        obtain ⟨hd, ⟨l, hl, hpl, hplive, -⟩, hpdot⟩ := hp
        exact .sub hd hl hpl hplive hpdot hdir
      have hlists : v.image.Lists (v.image.entry p).start (v.image.entry q).name q :=
        ⟨hsub, ⟨m, hm.of_directory hdir, hq, hlive, rfl⟩, hdot⟩
      cases (hempty _).symm.trans (files_of_lists h.wf hlists)

/-- A call can be done exactly if the file system allows it. -/
theorem Op.possible_iff (h : v.Shelf) (hname : Valid83 op.name) :
    op.Possible v ↔ v.files.Allows op := by
  cases op with
  | create name => exact (Vol.vacant_iff h.toSound).symm
  | writeFile name data size => exact writeFile_possible_iff h.toSound data size
  | remove name => exact (Vol.isFile_iff h.toSound).symm
  | mkdir name =>
      rw [Files.Allows, Vol.vacant_iff h.toSound, and_assoc]
      exact and_congr_right' (and_congr_right' List.length_pos_iff.symm)
  | rmdir name => exact rmdir_possible_iff h hname

/-- The requests that lose the old contents of a file. -/
theorem FileCall.runsOut_iff (h : v.Sound) (req : FileCall) :
    req.RunsOut v ↔ v.files.Overflows req := by
  constructor
  · cases req with
    | op op =>
        rintro ⟨name, data, size, p, old, rfl, hp, hfile, hold, hne, hfull⟩
        refine ⟨⟨_, _, (Vol.look_named h hp).trans (congrArg some (node_file hfile)), ?_⟩, ?_⟩
        · rw [chainAt_eq h.wf.small hold]
          exact fun hlen ↦ hne (List.length_eq_zero_iff.mp hlen)
        · rw [Vol.fits_named h hp hold]
          omega
    | chdir name => exact id
    | read name mem dst max => exact id
  · cases req with
    | op op =>
        cases op with
        | writeFile name data size =>
            rintro ⟨⟨bytes, k, hlook, hk⟩, hfull⟩
            obtain ⟨p, hp, hnode⟩ := Vol.look_eq_some h hlook
            obtain ⟨old, hold⟩ := h.wf.entry_chain p hp.isEntry
            rw [Vol.fits_named h hp.2.1 hold, not_le] at hfull
            refine ⟨name, data, size, p, old, rfl, hp.2.1, node_eq_file hnode, hold, ?_, hfull⟩
            rintro rfl
            have hblocks := node_blocks h.wf.small hold
            rw [hnode] at hblocks
            exact hk hblocks
        | create name => exact False.elim
        | remove name => exact False.elim
        | mkdir name => exact False.elim
        | rmdir name => exact False.elim
    | chdir name => exact id
    | read name mem dst max => exact id

/-! ### Calls that change something -/

theorem create_step (h : v.Sound) (hname : Ascii name) (hok : v.files.Allows (.create name))
    (hrun : fat32Create v name = .done (0, w)) :
    Files.Step v.files (.op (.create name), .code 0) w.files := by
  obtain ⟨l, hl⟩ := h.wf.dir_chain h.cwd
  obtain ⟨r, v', hrun', -, hkeep, hres⟩ := fat32Create_spec h hl name
  rw [hrun] at hrun'
  cases hrun'
  rcases hres with ⟨hr, -⟩ | ⟨-, -, p, hunused, hentry, hedit⟩
  · cases hr
  have hedit := hedit hname
  have hlive := hedit.stored.resolve_left id
  have hfile : (w.image.entry p).isDirectory = false := by rw [hentry, file_newDirent]
  have hbytes : w.image.bytesAt p = [] := by
    rw [bytesAt, hentry, size_newDirent (by norm_num)]
    rfl
  rw [Vol.files_edited_file hedit hkeep (fun hlive ↦ absurd hlive.1 hunused) fun _ ↦ hfile, nodeAt,
    if_pos hlive, node_file hfile, hbytes,
    chainAt_eq hedit.intact.small (hedit.placed hlive).chain]
  exact .create hok

theorem remove_step (h : v.Sound) (hok : v.files.Allows (.remove name))
    (hrun : fat32Remove v name = .done (0, w)) :
    Files.Step v.files (.op (.remove name), .code 0) w.files := by
  obtain ⟨l, hl⟩ := h.wf.dir_chain h.cwd
  obtain ⟨r, v', hrun', -, hkeep, hres⟩ := fat32Remove_spec h hl name
  rw [hrun] at hrun'
  cases hrun'
  rcases hres with ⟨hr, -⟩ | ⟨-, -, p, old, hfile, hdeleted, hedit⟩
  · cases hr
  have hdead : ¬(w.image.entry p).Live := fun hlive ↦ hlive.1.2 hdeleted
  rw [Vol.files_edited_file hedit hkeep (fun _ ↦ hfile) fun hlive ↦ absurd hlive hdead, nodeAt,
    if_neg hdead]
  exact .remove hok

theorem rmdir_step (h : v.Shelf) (hrun : fat32Rmdir v name = .done (0, w)) :
    Files.Step v.files (.op (.rmdir name), .code 0) w.files := by
  obtain ⟨l, hl⟩ := h.wf.dir_chain h.cwd
  obtain ⟨r, v', hrun', -, hkeep, hres⟩ := fat32Rmdir_spec h.toSound hl name
  rw [hrun] at hrun'
  cases hrun'
  rcases hres with ⟨hr, -⟩ | ⟨-, -, p, old, hentry, hdir, hold, hall, hdeleted, hedit⟩
  · cases hr
  have hdead : ¬(w.image.entry p).Live := fun hlive ↦ hlive.1.2 hdeleted
  have hempty := h.onlyDots hentry hold hall
  have hlive := hedit.live.resolve_right hdead
  have hroom : w.image.room (v.image.entry p).start = 0 := hedit.room_removed ⟨hentry, hdir, rfl⟩
  rw [Vol.files_edited_dir (d := (v.image.entry p).start) hedit hkeep hempty ?_, nodeAt,
    if_neg hdead, hroom]
  · have hlook := Vol.look_named h.toSound ⟨l, hl, hedit.mem, hlive, hedit.name_before hlive⟩
    exact .rmdir (hlook.trans (congrArg some (node_dir hdir))) (hempty.empty h.wf hlive hdir hold)
  · rintro e (⟨-, -, rfl⟩ | ⟨hlive', -⟩)
    · rfl
    · exact absurd hlive' hdead

/-- A free cluster is no directory. -/
theorem Vol.fresh_of_free (h : v.Sound) (hfree : v.image.fat c = 0) : v.files.Fresh c := by
  have hnot : ¬v.image.IsDir c := fun hdir ↦ h.wf.dir_fat_ne_zero hdir hfree
  refine ⟨?_, fun target ↦ files_eq_none fun p hp ↦ hnot hp.1, fun e target k hnode ↦ ?_⟩
  · rintro rfl
    exact hnot .root
  · obtain ⟨p, ⟨he, ⟨l, hl, hp, hlive, -⟩, hdot⟩, hnode⟩ := files_eq_some h.wf hnode
    obtain ⟨hdir, rfl⟩ := node_eq_dir hnode
    exact hnot (.sub he hl hp hlive hdot hdir)

theorem mkdir_step (h : v.Sound) (hname : Ascii name) (hok : v.files.Allows (.mkdir name))
    (hrun : fat32Mkdir v name = .done (0, w)) :
    Files.Step v.files (.op (.mkdir name), .code 0) w.files := by
  obtain ⟨l, hl⟩ := h.wf.dir_chain h.cwd
  obtain ⟨r, v', hrun', -, hkeep, hres⟩ := fat32Mkdir_spec h hl name
  rw [hrun] at hrun'
  cases hrun'
  rcases hres with ⟨hr, -⟩ | ⟨-, -, p, c, parent, hunused, -, himage, hedit⟩
  · cases hr
  have hedit := hedit hname
  have hlive := hedit.stored.resolve_left id
  have hentry : w.image.entry p = newDirent (toShortName name) fatAttrDirectory c 0 := by
    rw [himage, patch_entry_dirent _ _ canonical_newDirent]
  have hdir : (w.image.entry p).isDirectory = true := by rw [hentry, directory_newDirent]
  have hplaced := hedit.placed hlive
  have hfree : v.image.fat c = 0 := by simpa using hedit.fresh c List.mem_cons_self
  have hstart : (w.image.entry p).start = c := by
    have hrange := (hplaced.chain.range List.mem_cons_self).2
    have hsmall := h.wf.small
    rw [hedit.total] at hrange
    rw [badCluster] at hsmall
    rw [hentry, start_newDirent (by omega)]
  have hdead : ¬(v.image.entry p).Live := fun hlive ↦ hunused hlive.1
  have hroom : w.image.room c = 32 * v.image.slots / 32 - 2 := by
    have hchain := hplaced.chain.of_directory hdir
    have hisDir : w.image.IsDir (w.image.entry p).start :=
      .sub hedit.isDir_dir (hedit.chain_keep hedit.dir hl hedit.dir_not_removed)
        (hedit.slotsOf_eq ▸ hedit.mem) hlive hplaced.not_dot hdir
    have hpc : p.1 ≠ c := by
      rintro rfl
      exact hl.fat_ne_zero (mem_slotsOf.mp hedit.mem).1 hfree
    rw [hstart] at hchain hisDir
    rw [room_newDirectory himage hedit.intact.small hpc hisDir hchain]
    omega
  rw [Vol.files_edited_dir (d := c) hedit hkeep (fun hlive ↦ absurd hlive hdead) ?_, nodeAt,
    if_pos hlive, node_dir hdir, hstart, hroom, chainAt_eq hedit.intact.small hplaced.chain]
  · exact .mkdir hok (Vol.fresh_of_free h hfree)
  · rintro e (⟨⟨_, _, -, -, -, hlive', -⟩, -⟩ | ⟨-, -, rfl⟩)
    · exact absurd hlive' hdead
    · exact hstart

/-- As many blocks as the bytes fill. -/
theorem length_eq_blocks {size block : ℕ} (hblock : 0 < block) (hfits : size ≤ N.length * block)
    (hlast : N = [] ∨ (N.length - 1) * block < size) :
    N.length = (size + block - 1) / block := by
  refine (Nat.div_eq_of_lt_le ?_ ?_).symm
  · rcases hlast with rfl | hlast
    · simp
    · have hmul := Nat.sub_mul N.length 1 block
      rw [hmul] at hlast
      omega
  · rw [Nat.succ_mul]
    omega

theorem writeFile_step (h : v.Sound) (hname : Ascii name) (data : Bytes) {size : ℕ}
    (hsize : size < 2 ^ 32) (hok : v.files.Allows (.writeFile name data size))
    (hrun : fat32WriteFile v name data size = .done (0, w)) :
    Files.Step v.files (.op (.writeFile name data size), .code 0) w.files := by
  obtain ⟨l, hl⟩ := h.wf.dir_chain h.cwd
  obtain ⟨r, v', hrun', -, hkeep, hres⟩ := fat32WriteFile_spec h hl name data hsize
  rw [hrun] at hrun'
  cases hrun'
  rcases hres with ⟨hr, -⟩ |
    ⟨p, old, e, -, hsite, ⟨hr, -⟩ | ⟨-, -, N, J, hfill, hfits, hlast, himage⟩⟩
  · cases hr
  · cases hr
  have hsite := hsite (Or.inl hname)
  have hedit := hsite.edits hfill hsize hfits himage
  obtain ⟨hentry, -, hlive, hfile⟩ := hsite.stored himage
  have hchain := (hedit.placed hlive).chain
  have hbytes : w.image.bytesAt p = (List.range size).map data := by
    rw [bytesAt_eq hedit.intact.small hchain, hentry, writtenEntry_size hsize]
    refine List.map_congr_left fun i hi ↦ ?_
    rw [himage, content_patch_notMem (hsite.dir_disjoint (.filled hfill)).2]
    exact hfill.content hfits i (List.mem_range.mp hi)
  have hslots := h.ready.one_lt_slots
  rw [Vol.files_edited_file hedit hkeep (fun hlive ↦ (hsite.was_file hlive).1) fun _ ↦ hfile,
    nodeAt, if_pos hlive, node_file hfile, hbytes, chainAt_eq hedit.intact.small hchain,
    length_eq_blocks (by omega) hfits hlast]
  exact .write hok

/-! ### Calls -/

theorem FileCall.Valid.valid (h : (FileCall.op op).Valid) : op.Valid := by
  obtain ⟨hname, hsize⟩ := h
  exact ⟨hname.ascii, hsize⟩

/-- A call that the driver carries out. -/
theorem Op.done_step (h : v.Shelf) (hvalid : (FileCall.op op).Valid)
    (hok : v.files.Allows op) (hrun : op.run v = .done (0, w)) :
    Files.Step v.files (.op op, .code 0) w.files := by
  have hop : op.Valid := FileCall.Valid.valid hvalid
  cases op with
  | create name => exact create_step h.toSound hop.1 hok hrun
  | writeFile name data size => exact writeFile_step h.toSound hop.1 data hop.2 hok hrun
  | mkdir name => exact mkdir_step h.toSound hop.1 hok hrun
  | remove name => exact remove_step h.toSound hok hrun
  | rmdir name => exact rmdir_step h hrun

/-- Names stay canonical under an edit for a valid name. -/
theorem Op.Edits.canonical (h : op.Edits v w l p old new) (hname : Valid83 op.name)
    (hv : ∀ q, v.image.IsEntry q → CanonicalName (v.image.entry q).name) (q : Pos)
    (hq : w.image.IsEntry q) : CanonicalName (w.image.entry q).name := by
  rcases h.isEntry_cases hq with ⟨hqp, hold⟩ | ⟨rfl, hlive⟩
  · rw [(h.frame hold hqp).1]
    exact hv q hold
  · rw [h.name_after hlive]
    exact hname.canonical

theorem Op.serves_step (h : v.Shelf) (hvalid : (FileCall.op op).Valid) (hnot : ¬op.RunsOut v)
    {r : ℤ} (hrun : op.run v = .done (r, w)) :
    w.Shelf ∧ Files.Step v.files (.op op, .code r) w.files := by
  have hop : op.Valid := FileCall.Valid.valid hvalid
  have htree := Op.step_tree h.toTree hop hnot hrun
  have hallows := Op.possible_iff h hvalid.1
  obtain ⟨l, hl⟩ := h.wf.dir_chain h.cwd
  obtain ⟨r', v', hrun', hdecided⟩ := Op.decided h.toSound hop.2
  rw [hrun] at hrun'
  cases hrun'
  obtain ⟨-, hkeep, ⟨rfl, N, hscratch⟩ | ⟨rfl, p, old, new, hedit⟩⟩ :=
    Op.effect_of_run h.toSound hl hop hnot hrun
  · have hagree := hscratch.agree
    refine ⟨⟨htree, fun q hq ↦ ?_⟩, ?_⟩
    · have hold := (hagree.isEntry_iff h.wf).mp hq
      rw [hagree.entry_of_isEntry h.wf hold]
      exact h.canonical q hold
    · rw [Vol.files_of_scratched h.toSound hkeep hscratch]
      rcases hdecided with ⟨hr, -⟩ | ⟨-, hno⟩
      · cases hr
      · exact .refused (mt hallows.mpr hno)
  · refine ⟨⟨htree, hedit.canonical hvalid.1 h.canonical⟩, ?_⟩
    rcases hdecided with ⟨-, hposs⟩ | ⟨hr, -⟩
    · exact Op.done_step h hvalid (hallows.mp hposs) hrun
    · cases hr

/-! ### Moving around -/

theorem Vol.nodes_of_sub (h : v.Sound) (hsub : v.image.HasSub d p) :
    v.files.nodes d (v.image.entry p).name =
      some (.dir (v.image.entry p).start (v.image.chainAt p).length) := by
  obtain ⟨hd, ⟨l, hl, hp⟩, hlive, hdot, hdir⟩ := hsub
  have hlists : v.image.Lists d (v.image.entry p).name p := ⟨hd, ⟨l, hl, hp, hlive, rfl⟩, hdot⟩
  exact (files_of_lists h.wf hlists).trans (congrArg some (node_dir hdir))

theorem Vol.sub_of_look (h : v.Sound) {k : ℕ} (hlook : v.files.look name = some (.dir d k)) :
    ∃ p, v.image.HasSub v.cwdCluster p ∧ (v.image.entry p).name = toShortName name := by
  obtain ⟨p, ⟨hcwd, ⟨l, hl, hp, hlive, hsame⟩, hdot⟩, hnode⟩ := Vol.look_eq_some h hlook
  exact ⟨p, ⟨hcwd, ⟨l, hl, hp⟩, hlive, hdot, (node_eq_dir hnode).1⟩, hsame⟩

/-- `chdir` of the root, of `.` and of `..` always works. -/
theorem chdir_special (h : v.Tree) (hname : name = [chSlash] ∨ name = [chDot] ∨
    name = [chDot, chDot]) :
    ∃ w, fat32Chdir v name = .done (0, w) ∧ v.files.Leads name w.cwdCluster := by
  have hm := h.ready.mounted
  rcases hname with rfl | rfl | rfl
  · refine ⟨{ v with cwdCluster := v.geo.rootCluster }, by simp [fat32Chdir, hm], ?_⟩
    exact .root
  · refine ⟨v, by simp [fat32Chdir, hm, chDot, chSlash], ?_⟩
    exact .self
  · rcases h.cwd.cases_sub with htop | ⟨d, p, hsub, hstart⟩
    · have htop' : v.cwdCluster = v.geo.rootCluster := htop
      refine ⟨v, by simp [fat32Chdir, hm, chDot, chSlash, htop'], ?_⟩
      exact htop ▸ .top htop
    · obtain ⟨w, hrun, -, hcwd⟩ := fat32Chdir_up h hsub hstart.symm
      have hnode := Vol.nodes_of_sub h.toSound hsub
      rw [hstart] at hnode
      exact ⟨w, hrun, hcwd ▸ .up hnode⟩

theorem Moved.files (h : Moved v w) : w.files = { v.files with cwd := w.cwdCluster } := by
  rw [Vol.files, h.image]
  rfl

theorem chdir_step (h : v.Tree) {r : ℤ} (hrun : fat32Chdir v name = .done (r, w)) :
    Files.Step v.files (.chdir name, .code r) w.files := by
  obtain ⟨r', w', hrun', hmoved, -⟩ := fat32Chdir_spec h name
  rw [hrun] at hrun'
  cases hrun'
  by_cases hname : name = [chSlash] ∨ name = [chDot] ∨ name = [chDot, chDot]
  · obtain ⟨w', hrun', hleads⟩ := chdir_special h hname
    rw [hrun] at hrun'
    cases hrun'
    exact hmoved.files ▸ .chdir hleads
  · simp only [not_or] at hname
    obtain ⟨r', w', hrun', -, hres⟩ := fat32Chdir_down h hname
    rw [hrun] at hrun'
    cases hrun'
    rcases hres with ⟨rfl, hcwd, hno⟩ | ⟨rfl, p, hsub, hsame, hcwd⟩
    · have hsame : w.files = v.files := by
        rw [hmoved.files, hcwd]
        rfl
      rw [hsame]
      refine .noChdir fun d hleads ↦ ?_
      cases hleads with
      | root => exact hname.1 rfl
      | self => exact hname.2.1 rfl
      | top htop => exact hname.2.2 rfl
      | up hup => exact hname.2.2 rfl
      | down hplain hdown =>
          obtain ⟨p, hsub, hsame⟩ := Vol.sub_of_look h.toSound hdown
          exact hno p hsub hsame
    · have hnode := Vol.nodes_of_sub h.toSound hsub
      rw [hsame, ← hcwd] at hnode
      exact hmoved.files ▸ .chdir (.down hname hnode)

/-! ### Reading -/

/-- A name finds what it stands for. -/
theorem Vol.Shelf.finds (h : v.Shelf) (hname : Valid83 name) :
    ∃ found w, fat32Find v name = .done (found, w) ∧ Quiet v w ∧ w.Ready ∧
      (found = none ∧ v.files.look name = none ∨
        ∃ p, v.image.IsEntry p ∧ found = some (v.image.entry p) ∧
          v.files.look name = some (v.image.node p)) := by
  obtain ⟨l, hl⟩ := h.wf.dir_chain h.cwd
  obtain ⟨w, hfind, hquiet, hw⟩ := fat32Find_spec h.ready hl (h.toSound.ended hl) name
  obtain ⟨found, w', hfind', hres⟩ := fat32Find_cases h.toSound hl name
  rw [hfind] at hfind'
  cases hfind'
  refine ⟨_, w, hfind, hquiet, hw, ?_⟩
  rcases hres with ⟨hnone, hno⟩ | ⟨q, hq, hlive, hsome, hmatch⟩
  · refine Or.inl ⟨hnone, ?_⟩
    refine files_eq_none fun p hp ↦ ?_
    have hentry := hp.isEntry
    obtain ⟨-, ⟨m, hm, hpm, hlive, hsame⟩, -⟩ := hp
    obtain rfl := hm.unique h.wf.small hl
    exact hno p hpm hlive (((h.canonical p hentry).matches_iff hname.plain).mpr hsame)
  · have hdot : ¬(v.image.entry q).IsDot := by
      intro hdot
      rcases matches_dot hdot hmatch with ⟨-, hdotname⟩ | ⟨-, hdotname⟩
      · exact hname.ne_dot hdotname
      · exact hname.ne_dots hdotname
    have hentry : v.image.IsEntry q := .of_mem h.cwd hl hq hlive hdot
    have hsame := ((h.canonical q hentry).matches_iff hname.plain).mp hmatch
    exact Or.inr ⟨q, hentry, hsome, Vol.look_named h.toSound ⟨l, hl, hq, hlive, hsame⟩⟩

theorem read_step (h : v.Shelf) (hname : Valid83 name) (mem : Bytes) (dst : ℕ) {max : ℕ}
    (hmax : max < 2 ^ 31) :
    ∃ reply w, readBytes v name mem dst max = .done (reply, w) ∧ Quiet v w ∧ w.Ready ∧
      Files.Step v.files (.read name mem dst max, .contents reply) v.files := by
  obtain ⟨found, w, hfind, hquiet, hw, ⟨rfl, hlook⟩ | ⟨p, hentry, rfl, hlook⟩⟩ := h.finds hname
  · refine ⟨none, w, by simp [readBytes, hfind], hquiet, hw, .noRead mem dst max ?_⟩
    rintro ⟨bytes, k, hfile⟩
    cases hlook.symm.trans hfile
  cases hdir : (v.image.entry p).isDirectory with
  | true =>
      refine ⟨none, w, by simp [readBytes, hfind, hdir], hquiet, hw,
        .noRead mem dst max ?_⟩
      rintro ⟨bytes, k, hfile⟩
      rw [hlook, node_dir hdir] at hfile
      cases hfile
  | false =>
      obtain ⟨m, hm⟩ := h.wf.entry_chain p hentry
      have hmw : w.image.EntryChain p m := by
        rw [hquiet.image]
        exact hm
      obtain ⟨w', hread, hquiet', hw'⟩ := fat32ReadFile_spec hw hmw mem dst max
      have hfits := h.wf.size_le p m hentry hm hdir
      rw [hquiet.image] at hread
      have hall : min (min (v.image.entry p).size max) (m.length * (32 * v.image.slots)) =
          min (v.image.entry p).size max := by omega
      rw [hall, toInt_eq (by omega)] at hread
      refine ⟨some ((v.image.bytesAt p).take max), w', ?_, hquiet.trans hquiet', hw', ?_⟩
      · rw [readBytes, hfind]
        simp only [Outcome.done_bind, hdir, Bool.false_eq_true, if_false, hread]
        rw [bytesAt_eq h.wf.small hm, ← List.map_take, List.take_range]
        congr 3
        rw [Int.toNat_natCast, min_comm]
        refine List.map_congr_left fun i hi ↦ ?_
        rw [blit_apply_add (by simpa [min_comm] using hi)]
      · exact .read mem dst max (hlook.trans (congrArg some (node_file hdir)))

/-! ## Runs -/

theorem Quiet.shelf (h : Quiet v w) (hw : w.Ready) (hv : v.Shelf) : w.Shelf := by
  have hmoved : Moved v w := ⟨hw, h.geo, h.image⟩
  refine ⟨hmoved.tree hv.toTree ?_, ?_⟩
  · rw [h.cwd]
    exact hv.cwd
  · rw [h.image]
    exact hv.canonical

/-- Every request is a step of the file system. -/
theorem Serves.step {x : FileCall × Reply} (h : v.Shelf) (hserves : Serves v x w) :
    w.Shelf ∧ Files.Step v.files x w.files := by
  obtain ⟨req, reply⟩ := x
  obtain ⟨⟨hvalid, hrun⟩, hnot⟩ := hserves
  cases req with
  | op op =>
      obtain ⟨⟨r, v'⟩, hop, hdone⟩ := Outcome.bind_eq_done_iff.mp hrun
      cases hdone
      exact Op.serves_step h hvalid hnot hop
  | chdir name =>
      obtain ⟨⟨r, v'⟩, hchdir, hdone⟩ := Outcome.bind_eq_done_iff.mp hrun
      cases hdone
      have hcall : CallStep v v' := ⟨.chdir name, r, hvalid, id, hchdir⟩
      obtain ⟨r', w', hrun', hmoved, -⟩ := fat32Chdir_spec h.toTree name
      rw [hchdir] at hrun'
      cases hrun'
      refine ⟨⟨hcall.tree h.toTree, ?_⟩, chdir_step h.toTree hchdir⟩
      rw [hmoved.image]
      exact h.canonical
  | read name mem dst max =>
      obtain ⟨⟨found, v'⟩, hread, hdone⟩ := Outcome.bind_eq_done_iff.mp hrun
      cases hdone
      obtain ⟨reply, w', hread', hquiet, hw, hstep⟩ := read_step h hvalid.1 mem dst hvalid.2
      rw [hread] at hread'
      cases hread'
      rw [Vol.files_of_quiet hquiet]
      exact ⟨hquiet.shelf hw h, hstep⟩

theorem FileCall.run_done (h : v.Shelf) {req : FileCall} (hvalid : req.Valid) :
    ∃ reply w, req.run v = .done (reply, w) := by
  cases req with
  | op op =>
      obtain ⟨r, w, hrun, -⟩ := Op.decided h.toSound (FileCall.Valid.valid hvalid).2
      exact ⟨.code r, w, by rw [FileCall.run, hrun]; rfl⟩
  | chdir name =>
      obtain ⟨r, w, hrun, -⟩ := fat32Chdir_spec h.toTree name
      exact ⟨.code r, w, by rw [FileCall.run, hrun]; rfl⟩
  | read name mem dst max =>
      obtain ⟨reply, w, hrun, -⟩ := read_step h hvalid.1 mem dst hvalid.2
      exact ⟨.contents reply, w, by rw [FileCall.run, hrun]; rfl⟩

/-- Requests one after the other, and their replies. -/
def serveAll : List FileCall → Vol → Outcome (List Reply × Vol)
  | [], v => .done ([], v)
  | req :: reqs, v => do
      let r ← req.run v
      let rest ← serveAll reqs r.2
      .done (r.1 :: rest.1, rest.2)

theorem answers_of_serveAll {reqs : List FileCall} {replies : List Reply}
    (hvalid : ∀ req ∈ reqs, req.Valid) (hrun : serveAll reqs v = .done (replies, w)) :
    Trace Answers v (reqs.zip replies) w := by
  induction reqs generalizing v replies with
  | nil =>
      cases hrun
      exact .nil _
  | cons req reqs ih =>
      obtain ⟨⟨reply, u⟩, hfirst, hrest⟩ := Outcome.bind_eq_done_iff.mp hrun
      obtain ⟨⟨others, u'⟩, hothers, hdone⟩ := Outcome.bind_eq_done_iff.mp hrest
      cases hdone
      exact .cons ⟨hvalid req List.mem_cons_self, hfirst⟩
        (ih (fun r hr ↦ hvalid r (List.mem_cons_of_mem req hr)) hothers)

/-- A request that finds no room for the new contents of a file is refused. -/
theorem Answers.overflow {x : FileCall × Reply} (h : v.Shelf) (hans : Answers v x w)
    (hout : x.1.RunsOut v) : v.files.Overflows x.1 ∧ x.2 = .code (-1) := by
  obtain ⟨req, reply⟩ := x
  obtain ⟨hvalid, hrun⟩ := hans
  have hover : v.files.Overflows req := (FileCall.runsOut_iff h.toSound req).mp hout
  refine ⟨hover, ?_⟩
  cases req with
  | op op =>
      obtain ⟨⟨r, v'⟩, hop, hdone⟩ := Outcome.bind_eq_done_iff.mp hrun
      cases hdone
      obtain ⟨r', w', hrun', ⟨-, hposs⟩ | ⟨rfl, -⟩⟩ := Op.decided h.toSound
        (FileCall.Valid.valid hvalid).2
      · have hallows := (Op.possible_iff h hvalid.1).mp hposs
        cases op with
        | writeFile name data size => exact absurd hallows.2 hover.2
        | create name => exact hover.elim
        | remove name => exact hover.elim
        | mkdir name => exact hover.elim
        | rmdir name => exact hover.elim
      · rw [hop] at hrun'
        cases hrun'
        rfl
  | chdir name => exact hout.elim
  | read name mem dst max => exact hout.elim

/-- Every run of requests is a run of the file system that the volume stores, with the same
replies, and the driver never gets stuck, until a request to replace the contents of a file finds
no room for the new ones.  That one is refused. -/
theorem requests_refine_files {log : List (FileCall × Reply)} (h : v.Shelf)
    (hrun : Trace Answers v log w) :
    (Trace Files.Step v.files log w.files ∧
        ∀ req : FileCall, req.Valid → ∃ reply w', req.run w = .done (reply, w')) ∨
      ∃ before x after, ∃ u : Vol, log = before ++ x :: after ∧ Trace Serves v before u ∧
        Trace Files.Step v.files before u.files ∧ u.files.Overflows x.1 ∧ x.2 = .code (-1) := by
  have hstep : ∀ v x w, v.Shelf → Serves v x w → w.Shelf ∧ Files.Step v.files x w.files :=
    fun v x w hv hserves ↦ hserves.step hv
  have hkeep : ∀ v x w, v.Shelf → Serves v x w → w.Shelf :=
    fun v x w hv hserves ↦ (hstep v x w hv hserves).1
  rcases hrun.until_bad fun v x ↦ x.1.RunsOut v with hserves | ⟨before, x, after, u, u', hlog,
    hserves, hans, hout⟩
  · exact Or.inl ⟨hserves.map Vol.files hstep h, fun req hvalid ↦
      FileCall.run_done (hserves.invariant hkeep h) hvalid⟩
  · obtain ⟨hover, hreply⟩ := Answers.overflow (hserves.invariant hkeep h) hans hout
    exact Or.inr ⟨before, x, after, u, hlog, hserves, hserves.map Vol.files hstep h, hover,
      hreply⟩

theorem treeVol_shelf : treeVol.Shelf := by
  refine ⟨⟨treeVol_good.sound, treeVol_linked⟩, fun p hp ↦ ?_⟩
  obtain ⟨m, hm⟩ := treeVol_fits.entry_mem hp
  obtain ⟨rfl, -⟩ : p = (2, 0) ∧ m = [3] := by simpa using hm
  have hname : (treeVol.image.entry (2, 0)).name = padTo 11 [0x44] := by decide +kernel
  rw [hname]
  exact ⟨[0x44], [], ⟨by decide, by decide, by decide⟩, by decide,
    ⟨by decide, by decide, by decide⟩, by decide, by decide, by decide⟩

/-- A file is created next to `D`, there is no block for a second directory, and `D` is entered. -/
theorem requests_refine_files_tree :
    ∃ w, serveAll [.op (.create [0x61]), .op (.mkdir [0x62]), .chdir [0x44]] treeVol =
        .done ([.code 0, .code (-1), .code 0], w) ∧
      Trace Files.Step treeVol.files [(.op (.create [0x61]), .code 0),
        (.op (.mkdir [0x62]), .code (-1)), (.chdir [0x44], .code 0)] w.files := by
  have hcodes : (serveAll [.op (.create [0x61]), .op (.mkdir [0x62]), .chdir [0x44]]
      treeVol).value?.map Prod.fst = some [.code 0, .code (-1), .code 0] := by decide +kernel
  obtain ⟨⟨replies, w⟩, hx, rfl⟩ := Option.map_eq_some_iff.mp hcodes
  have hrun := Outcome.value?_eq_some.mp hx
  have hvalid : ∀ req ∈ [FileCall.op (.create [0x61]), .op (.mkdir [0x62]), .chdir [0x44]],
      req.Valid := by
    simp only [List.forall_mem_cons, List.not_mem_nil, false_implies, implies_true, and_true]
    have hletter : ∀ c : UInt8, IsPart 8 [c] → Valid83 [c] := fun c hc ↦ hc.valid83 (by simp)
    have hascii : Ascii [0x44] := by decide
    exact ⟨⟨hletter 0x61 (by decide), by decide⟩, ⟨hletter 0x62 (by decide), by decide⟩, hascii⟩
  refine ⟨w, hrun, ?_⟩
  rcases requests_refine_files treeVol_shelf (answers_of_serveAll hvalid hrun) with
    ⟨htrace, -⟩ | ⟨before, x, after, u, hlog, -, -, hover, -⟩
  · exact htrace
  · -- only a `fat32_write_file` can lose anything
    have hx : x ∈ before ++ x :: after := List.mem_append_right before List.mem_cons_self
    rw [← hlog] at hx
    simp only [List.zip_cons_cons, List.zip_nil_left, List.mem_cons, List.not_mem_nil,
      or_false] at hx
    rcases hx with rfl | rfl | rfl
    all_goals exact hover.elim

end MyOS.Fat32
