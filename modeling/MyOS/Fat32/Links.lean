import MyOS.Fat32.Failure
import Mathlib.Logic.Relation

/-!
# The links between directories

The first two entries of a sub-directory are `.`, which names the directory itself, and `..`,
which names its parent.  They are ordinary slots, but no name string is turned into their
short names, so no call selects, duplicates or overwrites them.  With the links in place
`fat32_chdir` only ever leads from one live directory to another.
-/

namespace MyOS.Fat32

open Image

variable {v v' w : Vol} {I J : Image} {op : Op} {l old new N : List ℕ} {p q : Pos} {d e c : ℕ}
  {r : ℤ} {name : List UInt8}

namespace Image

/-- Slot `p` of the reachable directory `d` holds the entry of a sub-directory. -/
structure HasSub (I : Image) (d : ℕ) (p : Pos) : Prop where
  parent : I.IsDir d
  slot : ∃ l, I.Chain d l ∧ p ∈ I.slotsOf l
  live : (I.entry p).Live
  not_dot : ¬(I.entry p).IsDot
  directory : (I.entry p).isDirectory = true

/-- Every sub-directory is linked to itself and to its parent. -/
def Linked (I : Image) : Prop := ∀ d p, I.HasSub d p → I.LinkedAt d (I.entry p).start

theorem HasSub.isDir (h : I.HasSub d p) : I.IsDir (I.entry p).start := by
  obtain ⟨l, hl, hp⟩ := h.slot
  exact .sub h.parent hl hp h.live h.not_dot h.directory

theorem HasSub.isEntry (h : I.HasSub d p) : I.IsEntry p := by
  obtain ⟨l, hl, hp⟩ := h.slot
  exact .of_mem h.parent hl hp h.live h.not_dot

theorem IsDir.cases_sub (h : I.IsDir c) :
    c = I.root ∨ ∃ d p, I.HasSub d p ∧ (I.entry p).start = c := by
  cases h with
  | root => exact Or.inl rfl
  | @sub d l p hd hl hp hlive hdot hdir =>
      exact Or.inr ⟨d, p, ⟨hd, ⟨l, hl, hp⟩, hlive, hdot, hdir⟩, rfl⟩

/-- The root is nobody's sub-directory. -/
theorem HasSub.start_ne_root (hI : I.Intact) (h : I.HasSub d p) : (I.entry p).start ≠ I.root := by
  intro hroot
  obtain ⟨l, hl⟩ := hI.root_chain
  have hown : I.Owns (some p) l := by
    refine ⟨h.isEntry, Or.inl ?_⟩
    rwa [hroot]
  have hsame := hI.owner_eq (o := none) hl hown hl.start_mem hl.start_mem
  cases hsame

theorem LinkedAt.congr (h : I.LinkedAt d c) (hroot : J.root = I.root)
    (hzero : J.entry (c, 0) = I.entry (c, 0)) (hone : J.entry (c, 1) = I.entry (c, 1)) :
    J.LinkedAt d c := by
  refine ⟨?_, ?_, ?_, ?_, ?_, ?_⟩
  · rw [hzero]
    exact h.dot_live
  · rw [hzero]
    exact h.dot_name
  · rw [hzero]
    exact h.dot_start
  · rw [hone]
    exact h.dotdot_live
  · rw [hone]
    exact h.dotdot_name
  · rw [hone, hroot]
    exact h.dotdot_start

end Image

/-! ## Calls keep the links -/

theorem Image.Agree.linked (h : Agree I.Owned I J) (hI : I.Intact) (hlinked : I.Linked) :
    J.Linked := by
  rintro d p ⟨hd, ⟨l, hl, hp⟩, hlive, hdot, hdir⟩
  rw [h.isDir_iff hI] at hd
  rw [h.chain_iff hI hd] at hl
  rw [h.slotsOf] at hp
  have hsame := h.entry_eq hI hd hl hp
  rw [hsame] at hlive hdot hdir ⊢
  have hsub : I.HasSub d p := ⟨hd, ⟨l, hl, hp⟩, hlive, hdot, hdir⟩
  obtain ⟨m, hm⟩ := hI.dir_chain hsub.isDir
  have howned := hI.dir_owned hsub.isDir hm _ hm.start_mem
  exact (hlinked d p hsub).congr h.root (h.entry howned) (h.entry howned)

/-- A call does not go to a dot entry. -/
theorem Op.Edits.not_dot_slot (h : op.Edits v v' l p old new) (hq : (v.image.entry q).Live)
    (hdot : (v.image.entry q).IsDot) : q ≠ p := by
  rintro rfl
  exact not_dot_of_shortName (h.name_before hq) hdot

/-- A sub-directory after the edit is the one the call has made, or an old one. -/
theorem Op.Edits.hasSub_cases (h : op.Edits v v' l p old new) (hsub : v'.image.HasSub d q) :
    q = p ∧ d = v.cwdCluster ∨
      q ≠ p ∧ v.image.HasSub d q ∧ v'.image.entry q = v.image.entry q := by
  obtain ⟨hd, ⟨m, hm, hq⟩, hlive, hdot, hdir⟩ := hsub
  rcases h.isDir_cases hd with ⟨hd, hkept⟩ | hadded
  · rcases h.entry_of_kept hd hkept hm hq hlive hdot with rfl | ⟨hqp, hsame, hm', hq', -⟩
    · exact Or.inl ⟨rfl, h.dir_eq_of_mem hd (h.kept_slots hd hkept hm).1 (h.slotsOf_eq ▸ hq)⟩
    · rw [hsame] at hlive hdot hdir
      exact Or.inr ⟨hqp, ⟨hd, ⟨m, hm', hq'⟩, hlive, hdot, hdir⟩, hsame⟩
  · exact absurd (h.added_only_dots hadded hm hq hlive) hdot

theorem Op.Edits.linked_image (h : op.Edits v v' l p old new) (hlinked : v.image.Linked) :
    v'.image.Linked := by
  intro d q hsub
  rcases h.hasSub_cases hsub with ⟨rfl, rfl⟩ | ⟨hqp, hold, hsame⟩
  · exact h.linked hsub.live hsub.directory
  · have hlink := hlinked d q hold
    obtain ⟨m, hm⟩ := h.wf.entry_chain q hold.isEntry
    have hstart := (hm.of_directory hold.directory).start_mem
    have hnew := (h.owns_disjoint (o := some q) ⟨hold.isEntry, hm⟩ (by simpa using hqp)).2 hstart
    have hzero := h.not_dot_slot hlink.dot_live (Or.inl hlink.dot_name)
    have hone := h.not_dot_slot hlink.dotdot_live (Or.inr hlink.dotdot_name)
    rw [hsame]
    exact hlink.congr h.root (h.entry_other hzero hnew) (h.entry_other hone hnew)

/-! ## Changing the directory -/

/-- A sound volume whose directories are linked. -/
structure Vol.Tree (v : Vol) : Prop extends v.Sound where
  linked : v.image.Linked

/-- Where `fat32_chdir` leads when it succeeds. -/
inductive Image.Leads (I : Image) : List UInt8 → ℕ → ℕ → Prop
  | root (d : ℕ) : Leads I [chSlash] d I.root
  | self (d : ℕ) : Leads I [chDot] d d
  | top : Leads I [chDot, chDot] I.root I.root
  | up {d : ℕ} {p : Pos} : I.HasSub d p → Leads I [chDot, chDot] (I.entry p).start d
  | down {d : ℕ} {p : Pos} {name : List UInt8} : I.HasSub d p →
      (I.entry p).name = toShortName name → Leads I name d (I.entry p).start

theorem Image.Leads.isDir (h : I.Leads name d e) (hd : I.IsDir d) : I.IsDir e := by
  cases h with
  | root => exact .root
  | self => exact hd
  | top => exact hd
  | up hsub => exact hsub.parent
  | down hsub _ => exact hsub.isDir

/-- `v'` is `v` with another working directory, up to the FAT cache. -/
structure Moved (v v' : Vol) : Prop where
  ready : v'.Ready
  geo : v'.geo = v.geo
  image : v'.image = v.image

theorem Moved.tree (h : Moved v v') (hv : v.Tree) (hcwd : v.image.IsDir v'.cwdCluster) :
    v'.Tree := by
  refine ⟨⟨h.ready, ?_, ?_⟩, ?_⟩
  · rw [h.image]
    exact hv.wf
  · rwa [h.image]
  · rw [h.image]
    exact hv.linked

theorem Quiet.moved (h : Quiet v v') (hv' : v'.Ready) (d : ℕ) :
    Moved v { v' with cwdCluster := d } :=
  ⟨⟨hv'.mounted, hv'.geo, hv'.reliable, hv'.hint, hv'.cache⟩, h.geo, Vol.image_congr h.geo h.disk⟩

/-- The `..` entry of a sub-directory is found, and it names the parent. -/
theorem searchDir_dotdot (h : v.Tree) (hsub : v.image.HasSub d p)
    (hcwd : v.cwdCluster = (v.image.entry p).start) :
    ∃ look v', searchDir v v.cwdCluster dotdotName = .done (some look, v') ∧ Quiet v v' ∧
      v'.Ready ∧ (if look.entry.start = 0 then v'.geo.rootCluster else look.entry.start) = d := by
  obtain ⟨l, hl⟩ := h.wf.dir_chain h.cwd
  obtain ⟨r, v', hsearch, hquiet, hv', hfound⟩ := searchDir_spec h.ready hl (h.ended hl) dotdotName
  have hlink := h.linked d p hsub
  rw [← hcwd] at hlink
  have hslot : (v.cwdCluster, 1) ∈ v.image.slotsOf l :=
    mem_slotsOf.mpr ⟨hl.start_mem, h.ready.one_lt_slots⟩
  rcases hfound with ⟨-, hnone⟩ | ⟨q, hq, rfl, hlive, hname⟩
  · exact absurd hlink.dotdot_name (hnone _ hslot hlink.dotdot_live)
  · obtain rfl : q = (v.cwdCluster, 1) := h.wf.names _ l q _ h.cwd hl hq hslot hlive
      hlink.dotdot_live (hname.trans hlink.dotdot_name.symm)
    refine ⟨_, v', hsearch, hquiet, hv', ?_⟩
    have hlook : (v.lookAt (v.cwdCluster, 1)).entry = v.image.entry (v.cwdCluster, 1) := rfl
    have hroot : v.image.root = v.geo.rootCluster := rfl
    rw [hlook, hlink.dotdot_start, hquiet.geo]
    by_cases hd : d = v.image.root
    · rw [if_pos hd, if_pos rfl, hd, hroot]
    · obtain ⟨m, hm, -⟩ := hsub.slot
      have hrange := (hm.range _ hm.start_mem).1
      rw [if_neg hd, if_neg (by omega)]

/-- From a sub-directory `..` leads to its parent. -/
theorem fat32Chdir_up (h : v.Tree) (hsub : v.image.HasSub d p)
    (hcwd : v.cwdCluster = (v.image.entry p).start) :
    ∃ v', fat32Chdir v [chDot, chDot] = .done (0, v') ∧ Moved v v' ∧ v'.cwdCluster = d := by
  have hne : ¬v.cwdCluster = v.geo.rootCluster := by
    rw [hcwd]
    exact hsub.start_ne_root h.wf
  obtain ⟨look, v₁, hsearch, hquiet, hv₁, hparent⟩ := searchDir_dotdot h hsub hcwd
  rw [fat32Chdir, if_neg (by simp [h.ready.mounted]), if_neg (by decide), if_neg (by decide),
    if_pos rfl, if_neg hne]
  simp only [hsearch, Outcome.done_bind, hparent]
  exact ⟨_, rfl, hquiet.moved hv₁ d, rfl⟩

/-- The name of a sub-directory leads into it, and no other name leads anywhere. -/
theorem fat32Chdir_down (h : v.Tree)
    (hplain : name ≠ [chSlash] ∧ name ≠ [chDot] ∧ name ≠ [chDot, chDot]) :
    ∃ r v', fat32Chdir v name = .done (r, v') ∧ Moved v v' ∧
      ((r = -1 ∧ v'.cwdCluster = v.cwdCluster ∧
          ∀ p, v.image.HasSub v.cwdCluster p → (v.image.entry p).name ≠ toShortName name) ∨
        (r = 0 ∧ ∃ p, v.image.HasSub v.cwdCluster p ∧ (v.image.entry p).name = toShortName name ∧
          v'.cwdCluster = (v.image.entry p).start)) := by
  rw [fat32Chdir, if_neg (by simp [h.ready.mounted]), if_neg hplain.1, if_neg hplain.2.1,
    if_neg hplain.2.2]
  obtain ⟨l, hl⟩ := h.wf.dir_chain h.cwd
  obtain ⟨found, v₁, hsearch, hquiet, hv₁, hfound⟩ := searchDir_spec h.ready hl (h.ended hl)
    (toShortName name)
  have hmoved : Moved v v₁ := ⟨hv₁, hquiet.geo, hquiet.image⟩
  have hslot : ∀ q, v.image.HasSub v.cwdCluster q → q ∈ v.image.slotsOf l := by
    intro q hsub
    obtain ⟨m, hm, hq⟩ := hsub.slot
    rwa [hl.unique h.wf.small hm]
  simp only [hsearch, Outcome.done_bind]
  rcases hfound with ⟨rfl, hnone⟩ | ⟨p, hp, rfl, hlive, htarget⟩
  · exact ⟨-1, v₁, rfl, hmoved, Or.inl ⟨rfl, hquiet.cwd,
      fun q hsub ↦ hnone q (hslot q hsub) hsub.live⟩⟩
  have hlook : (v.lookAt p).entry = v.image.entry p := rfl
  simp only [hlook]
  by_cases hdir : (v.image.entry p).isDirectory = true
  · have hsub : v.image.HasSub v.cwdCluster p :=
      ⟨h.cwd, ⟨l, hl, hp⟩, hlive, not_dot_of_shortName htarget, hdir⟩
    obtain ⟨m, hm⟩ := h.wf.dir_chain hsub.isDir
    have hrange := (hm.range _ hm.start_mem).1
    have hstart : ¬(v.image.entry p).start = 0 := by omega
    rw [if_neg (not_not_intro hdir), if_neg hstart]
    exact ⟨0, _, rfl, hquiet.moved hv₁ _, Or.inr ⟨rfl, p, hsub, htarget, rfl⟩⟩
  · rw [if_pos hdir]
    refine ⟨-1, v₁, rfl, hmoved, Or.inl ⟨rfl, hquiet.cwd, fun q hsub hname ↦ hdir ?_⟩⟩
    rw [h.wf.names _ l p q h.cwd hl hp (hslot q hsub) hlive hsub.live (htarget.trans hname.symm)]
    exact hsub.directory

theorem fat32Chdir_spec (h : v.Tree) (name : List UInt8) :
    ∃ r v', fat32Chdir v name = .done (r, v') ∧ Moved v v' ∧
      (r = -1 ∧ v'.cwdCluster = v.cwdCluster ∨
        r = 0 ∧ v.image.Leads name v.cwdCluster v'.cwdCluster) := by
  have hmounted : ¬¬v.mounted = true := by simp [h.ready.mounted]
  by_cases hslash : name = [chSlash]
  · subst hslash
    rw [fat32Chdir, if_neg hmounted, if_pos rfl]
    exact ⟨0, _, rfl, (Quiet.refl v).moved h.ready _, Or.inr ⟨rfl, .root _⟩⟩
  by_cases hdot : name = [chDot]
  · subst hdot
    rw [fat32Chdir, if_neg hmounted, if_neg hslash, if_pos rfl]
    exact ⟨0, v, rfl, ⟨h.ready, rfl, rfl⟩, Or.inr ⟨rfl, .self _⟩⟩
  by_cases hdots : name = [chDot, chDot]
  · subst hdots
    rcases h.cwd.cases_sub with htop | ⟨d, p, hsub, hstart⟩
    · have htop' : v.cwdCluster = v.geo.rootCluster := htop
      rw [fat32Chdir, if_neg hmounted, if_neg hslash, if_neg hdot, if_pos rfl, if_pos htop']
      refine ⟨0, v, rfl, ⟨h.ready, rfl, rfl⟩, Or.inr ⟨rfl, ?_⟩⟩
      rw [htop]
      exact .top
    · obtain ⟨v', hrun, hmoved, hcwd⟩ := fat32Chdir_up h hsub hstart.symm
      refine ⟨0, v', hrun, hmoved, Or.inr ⟨rfl, ?_⟩⟩
      rw [hcwd, ← hstart]
      exact .up hsub
  · obtain ⟨r, v', hrun, hmoved, ⟨hr, hcwd, -⟩ | ⟨hr, p, hsub, htarget, hcwd⟩⟩ :=
      fat32Chdir_down h ⟨hslash, hdot, hdots⟩
    · exact ⟨r, v', hrun, hmoved, Or.inl ⟨hr, hcwd⟩⟩
    · refine ⟨r, v', hrun, hmoved, Or.inr ⟨hr, ?_⟩⟩
      rw [hcwd]
      exact .down hsub htarget

/-- `chdir` into a sub-directory and `chdir ..` lead back. -/
theorem chdir_back (h : v.Tree)
    (hplain : name ≠ [chSlash] ∧ name ≠ [chDot] ∧ name ≠ [chDot, chDot])
    (hrun : fat32Chdir v name = .done (0, v')) :
    ∃ w, fat32Chdir v' [chDot, chDot] = .done (0, w) ∧ w.cwdCluster = v.cwdCluster := by
  obtain ⟨r, v'', hrun', hmoved, hres⟩ := fat32Chdir_down h hplain
  rw [hrun] at hrun'
  cases hrun'
  rcases hres with ⟨hr, -⟩ | ⟨-, p, hsub, -, hcwd⟩
  · cases hr
  have htree : v'.Tree := hmoved.tree h (by rw [hcwd]; exact hsub.isDir)
  rw [← hmoved.image] at hsub hcwd
  obtain ⟨w, hback, -, hw⟩ := fat32Chdir_up htree hsub hcwd
  exact ⟨w, hback, hw⟩

/-! ## Runs -/

/-- A call of the driver that works on a name in the working directory. -/
inductive Call where
  | op (op : Op)
  | chdir (name : List UInt8)

namespace Call

def run : Call → Vol → Outcome (ℤ × Vol)
  | .op op, v => op.run v
  | .chdir name, v => fat32Chdir v name

def Valid : Call → Prop
  | .op op => op.Valid
  | .chdir name => Ascii name

/-- The call is a `fat32_write_file` that has no room for the new contents of an old file. -/
def RunsOut : Call → Vol → Prop
  | .op op, v => op.RunsOut v
  | .chdir _, _ => False

end Call

/-- One call, whatever it returns. -/
def CallStep (v w : Vol) : Prop :=
  ∃ (call : Call) (r : ℤ), call.Valid ∧ ¬call.RunsOut v ∧ call.run v = .done (r, w)

theorem Op.step_tree (h : v.Tree) (hop : op.Valid) (hnot : ¬op.RunsOut v)
    (hrun : op.run v = .done (r, w)) : w.Tree := by
  obtain ⟨l, hl⟩ := h.wf.dir_chain h.cwd
  obtain ⟨hw, hkeep, ⟨-, N, hscratch⟩ | ⟨-, p, old, new, hedit⟩⟩ :=
    Op.effect_of_run h.toSound hl hop hnot hrun
  · have hagree := hscratch.agree
    refine ⟨⟨hw, hagree.intact h.wf, ?_⟩, hagree.linked h.wf h.linked⟩
    rw [hkeep.cwd]
    exact (hagree.isDir_iff h.wf).mpr h.cwd
  · refine ⟨⟨hw, hedit.intact, ?_⟩, hedit.linked_image h.linked⟩
    rw [hkeep.cwd]
    exact hedit.isDir_dir

theorem CallStep.tree (h : v.Tree) (hstep : CallStep v w) : w.Tree := by
  obtain ⟨call, r, hvalid, hnot, hrun⟩ := hstep
  cases call with
  | op op => exact Op.step_tree h hvalid hnot hrun
  | chdir name =>
      obtain ⟨r', v', hrun', hmoved, hres⟩ := fat32Chdir_spec h name
      have hsame := hrun.symm.trans hrun'
      cases hsame
      refine hmoved.tree h ?_
      rcases hres with ⟨-, hcwd⟩ | ⟨-, hleads⟩
      · rw [hcwd]
        exact h.cwd
      · exact hleads.isDir h.cwd

theorem tree_of_calls (h : v.Tree) (hrun : Relation.ReflTransGen CallStep v w) : w.Tree := by
  induction hrun with
  | refl => exact h
  | tail _ hstep ih => exact hstep.tree ih

/-- Every call returns. -/
theorem Call.run_done (h : v.Tree) {call : Call} (hvalid : call.Valid) :
    ∃ r w, call.run v = .done (r, w) := by
  cases call with
  | op op =>
      obtain ⟨l, hl⟩ := h.wf.dir_chain h.cwd
      obtain ⟨r, w, hrun, -⟩ := Op.run_ends h.toSound hl hvalid
      exact ⟨r, w, hrun⟩
  | chdir name =>
      obtain ⟨r, w, hrun, -⟩ := fat32Chdir_spec h name
      exact ⟨r, w, hrun⟩

/-- Along every run of calls the sub-directories stay linked and the working directory stays a
live directory, so `chdir ..` leads back to where a `chdir` into a sub-directory came from. -/
theorem directory_links (h : v.Good) (hlinked : v.image.Linked)
    (hrun : Relation.ReflTransGen CallStep v w) :
    w.image.Linked ∧ w.image.IsDir w.cwdCluster ∧
      (∀ call : Call, call.Valid → ∃ r w', call.run w = .done (r, w')) ∧
      ∀ name w', Ascii name → name ≠ [chSlash] ∧ name ≠ [chDot] ∧ name ≠ [chDot, chDot] →
        fat32Chdir w name = .done (0, w') →
        ∃ u, fat32Chdir w' [chDot, chDot] = .done (0, u) ∧ u.cwdCluster = w.cwdCluster := by
  have htree : w.Tree := tree_of_calls ⟨h.sound, hlinked⟩ hrun
  refine ⟨htree.linked, htree.cwd, fun call hvalid ↦ call.run_done htree hvalid, ?_⟩
  intro name w' _ hplain hchdir
  exact chdir_back htree hplain hchdir

/-- The links of an image whose root holds one directory. -/
theorem Image.Fits.linked_one (hfits : I.Fits ⟨[2], [((2, 0), [3])]⟩) (hroot : I.root = 2)
    (hstart : (I.entry (2, 0)).start = 3) (hlink : I.LinkedAt 2 3) : I.Linked := by
  intro d p hsub
  obtain ⟨m, hm⟩ := hfits.entry_mem hsub.isEntry
  obtain ⟨rfl, -⟩ : p = (2, 0) ∧ m = [3] := by simpa using hm
  obtain ⟨l, hl, hp⟩ := hsub.slot
  obtain rfl : d = I.root := hfits.wellFormed.dir_eq hsub.parent .root hl
    hfits.root_chain (mem_slotsOf.mp hp).1 (by decide)
  rw [hstart, hroot]
  exact hlink

/-- A volume whose root holds the directory `D`. -/
def treeVol : Vol :=
  smallVol 2 [(2, 0x0FFFFFFF), (3, 0x0FFFFFFF)]
    [((2, 0), newDirent (padTo 11 [0x44]) fatAttrDirectory 3 0),
     ((3, 0), newDirent dotName fatAttrDirectory 3 0),
     ((3, 1), newDirent dotdotName fatAttrDirectory 0 0)]

theorem treeVol_fits : treeVol.image.Fits ⟨[2], [((2, 0), [3])]⟩ := by decide +kernel

theorem treeVol_good : treeVol.Good :=
  ⟨smallVol_ready (by norm_num) _ _, treeVol_fits.wellFormed, .root⟩

theorem treeVol_linked : treeVol.image.Linked :=
  treeVol_fits.linked_one rfl (by decide +kernel) ⟨by decide +kernel, by decide +kernel,
    by decide +kernel, by decide +kernel, by decide +kernel, by decide +kernel⟩

/-- `D` is removed and `E` made in its place; into `E` and back. -/
theorem directory_links_tree : ∃ w₁ w w' u, (Op.rmdir [0x44]).run treeVol = .done (0, w₁) ∧
    (Op.mkdir [0x45]).run w₁ = .done (0, w) ∧ w.image.Linked ∧ w.image.IsDir w.cwdCluster ∧
    fat32Chdir w [0x45] = .done (0, w') ∧ fat32Chdir w' [chDot, chDot] = .done (0, u) ∧
    u.cwdCluster = w.cwdCluster := by
  have hcodes : ((Op.rmdir [0x44]).run treeVol).value?.bind (fun x ↦
      ((Op.mkdir [0x45]).run x.2).value?.bind fun y ↦
        (fat32Chdir y.2 [0x45]).value?.map fun z ↦ (x.1, y.1, z.1)) = some (0, 0, 0) := by
    decide +kernel
  obtain ⟨⟨r₁, w₁⟩, hvalue₁, hcodes⟩ := Option.bind_eq_some_iff.mp hcodes
  obtain ⟨⟨r, w⟩, hvalue, hcodes⟩ := Option.bind_eq_some_iff.mp hcodes
  obtain ⟨⟨r', w'⟩, hvalue', hcodes⟩ := Option.map_eq_some_iff.mp hcodes
  simp only [Prod.mk.injEq] at hcodes
  obtain ⟨rfl, rfl, rfl⟩ := hcodes
  have hrmdir := Outcome.value?_eq_some.mp hvalue₁
  have hmkdir := Outcome.value?_eq_some.mp hvalue
  have hchdir := Outcome.value?_eq_some.mp hvalue'
  have hsteps : Relation.ReflTransGen CallStep treeVol w := by
    refine .tail (.single ⟨.op (.rmdir [0x44]), 0, show (Op.rmdir [0x44]).Valid by decide, ?_,
      hrmdir⟩) ⟨.op (.mkdir [0x45]), 0, show (Op.mkdir [0x45]).Valid by decide, ?_, hmkdir⟩
    · rintro ⟨_, _, _, _, _, hop, -⟩
      cases hop
    · rintro ⟨_, _, _, _, _, hop, -⟩
      cases hop
  obtain ⟨hlinked, hdir, -, hback⟩ := directory_links treeVol_good treeVol_linked hsteps
  obtain ⟨u, hup, hcwd⟩ := hback [0x45] w' (by decide) (by decide) hchdir
  exact ⟨w₁, w, w', u, hrmdir, hmkdir, hlinked, hdir, hchdir, hup, hcwd⟩

end MyOS.Fat32
