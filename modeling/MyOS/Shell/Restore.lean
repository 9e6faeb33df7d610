import MyOS.Fat32.Requests
import MyOS.Sched.Runs
import MyOS.Shell.Paths

/-!
# Only `cd` moves the shell

A command that takes a path leaves its directory on the way to the parent.  It comes back by
`fat32_set_cwd_cluster` on every way out, whatever the volume and the drive are like: no call
takes the volume off, so that the cluster number is set again, and what is done after that only
reads.
-/

namespace MyOS.Shell

open Fat32 Heap Elf Sched

variable {T : Tables} {v v' : Vol} {s s' : State} {path name cur : List UInt8}
  {args : List (List UInt8)} {r : ℤ} {out : String} {c : ℕ}

/-! ## Calls of the driver -/

theorem chdir_later (hrun : fat32Chdir v name = .done (r, v')) : Later v v' :=
  Request.later (.chdir name) (by rw [Request.run, hrun]; rfl)

theorem enterAll_later {toks : List (List UInt8)} (hrun : enterAll toks v = .done (r, v')) :
    Later v v' := by
  induction toks generalizing v with
  | nil =>
      cases hrun
      exact .refl _
  | cons tok toks ih =>
      obtain ⟨⟨r₁, v₁⟩, hchdir, hrun⟩ := Outcome.bind_eq_done_iff.mp hrun
      have hlater := chdir_later hchdir
      dsimp only at hrun
      split_ifs at hrun
      · cases hrun
        exact hlater
      · exact hlater.trans (ih hrun)

theorem endToken_later {prev prev' : Option (List UInt8)}
    (hrun : endToken cur prev v = .done (r, prev', v')) : Later v v' := by
  unfold endToken at hrun
  split_ifs at hrun
  · cases hrun
    exact .refl _
  · cases prev with
    | none =>
        cases hrun
        exact .refl _
    | some name =>
        obtain ⟨⟨r₁, v₁⟩, hchdir, hrun⟩ := Outcome.bind_eq_done_iff.mp hrun
        have hlater := chdir_later hchdir
        dsimp only at hrun
        split_ifs at hrun
        · cases hrun
          exact hlater
        · cases hrun
          exact hlater

theorem descendTokens_later {prev prev' : Option (List UInt8)}
    (hrun : descendTokens path cur prev v = .done (r, prev', v')) : Later v v' := by
  induction path generalizing cur prev v with
  | nil => exact endToken_later hrun
  | cons b path ih =>
      rw [descendTokens] at hrun
      split_ifs at hrun
      · obtain ⟨⟨r₁, prev₁, v₁⟩, hend, hrun⟩ := Outcome.bind_eq_done_iff.mp hrun
        have hlater := endToken_later hend
        dsimp only at hrun
        split_ifs at hrun
        · cases hrun
          exact hlater
        · exact hlater.trans (ih hrun)
      · exact ih hrun
      · exact ih hrun

theorem pathDescend_later {base : List UInt8} (hrun : pathDescend v path = .done (r, base, v')) :
    Later v v' := by
  obtain ⟨⟨r₁, prev, v₁⟩, hdescend, hdone⟩ := Outcome.bind_eq_done_iff.mp hrun
  cases hdone
  cases path with
  | nil => exact descendTokens_later hdescend
  | cons b path =>
      rw [descendPath] at hdescend
      split_ifs at hdescend
      · obtain ⟨⟨r₂, v₂⟩, hchdir, hdescend⟩ := Outcome.bind_eq_done_iff.mp hdescend
        exact (chdir_later hchdir).trans (descendTokens_later hdescend)
      · exact descendTokens_later hdescend

theorem readLoop_keeps {dst size fuel copied : ℕ} {mem mem' : Bytes}
    (hrun : readLoop dst size fuel c copied mem v = .done (r, mem', v')) : Keeps v v' := by
  induction fuel generalizing c copied mem v with
  | zero => cases hrun
  | succ fuel ih =>
      rw [readLoop] at hrun
      split_ifs at hrun
      · have hread : Keeps v (readCluster v c).2.2 := ⟨rfl, rfl, rfl⟩
        rcases hres : readCluster v c with ⟨_ | _, buf, v₁⟩
        · simp only [hres] at hrun hread
          cases hrun
          exact hread
        · simp only [hres] at hrun hread
          exact hread.trans ((nextCluster_quiet v₁ c).toKeeps.trans (ih hrun))
      · cases hrun
        exact ⟨rfl, rfl, rfl⟩

theorem readFile_keeps {e : Dirent} {dst max : ℕ} {mem mem' : Bytes}
    (hrun : fat32ReadFile v e mem dst max = .done (r, mem', v')) : Keeps v v' := by
  rw [fat32ReadFile] at hrun
  split_ifs at hrun
  · exact readLoop_keeps hrun
  · exact readLoop_keeps hrun
  · cases hrun
    exact ⟨rfl, rfl, rfl⟩

/-- Going back works on a mounted volume, for a number that can be one of a cluster. -/
theorem setCwd_back (hmounted : v.mounted = true) (hc : 2 ≤ c) (hlater : Later v v') :
    (fat32SetCwdCluster v' c).cwdCluster = c := by
  rw [fat32SetCwdCluster, if_neg (by simp [hlater.mounted, hmounted])]
  exact if_neg (by omega)

/-- `path_to_parent_and_base` has gone back if it fails. -/
theorem pathToParentAndBase_back {p : Parent} (hmounted : v.mounted = true)
    (hcwd : 2 ≤ v.cwdCluster) (hrun : pathToParentAndBase v path = .done p) :
    Later v p.vol ∧ p.saved = v.cwdCluster ∧ (p.code < 0 → p.vol.cwdCluster = v.cwdCluster) := by
  obtain ⟨⟨r, base, v₁⟩, hdescend, hrun⟩ := Outcome.bind_eq_done_iff.mp hrun
  have hlater := pathDescend_later hdescend
  dsimp only at hrun
  split_ifs at hrun
  · cases hrun
    have hset : Later v₁ (fat32SetCwdCluster v₁ v.cwdCluster) :=
      Request.later (.setCwdCluster v.cwdCluster) rfl
    exact ⟨hlater.trans hset, rfl, fun _ ↦ setCwd_back hmounted hcwd hlater⟩
  · cases hrun
    exact ⟨hlater, rfl, fun hfail ↦ absurd hfail (by norm_num)⟩

/-! ## The commands on files -/

/-- The shell is where it was, and shows the same path. -/
def Stays (s s' : State) : Prop :=
  s'.vol.cwdCluster = s.vol.cwdCluster ∧ s'.cwdPath = s.cwdPath

section Commands

variable (hcwd : 2 ≤ s.vol.cwdCluster)

include hcwd

theorem cmdLs_stays (hrun : cmdLs s args = .done (out, s')) : Stays s s' := by
  rw [cmdLs] at hrun
  by_cases hmounted : s.vol.mounted = true
  · rw [if_neg (not_not_intro hmounted)] at hrun
    obtain ⟨⟨r, v₁⟩, henter, hrun⟩ := Outcome.bind_eq_done_iff.mp hrun
    have hlater : Later s.vol v₁ := by
      cases args with
      | nil =>
          cases henter
          exact .refl _
      | cons path args =>
          rw [lsEnter] at henter
          exact Request.later (.chdirPath path) (by rw [Request.run, henter]; rfl)
    dsimp only at hrun
    split_ifs at hrun
    · cases hrun
      exact ⟨setCwd_back hmounted hcwd hlater, rfl⟩
    · obtain ⟨⟨text, v₂⟩, hlist, hrun⟩ := Outcome.bind_eq_done_iff.mp hrun
      cases hrun
      have hlater₂ : Later v₁ v₂ := Request.later (.listdir lsVisitor v₁.cwdCluster "")
        (by rw [Request.run, hlist]; rfl)
      exact ⟨setCwd_back hmounted hcwd (hlater.trans hlater₂), rfl⟩
  · rw [if_pos hmounted] at hrun
    cases hrun
    exact ⟨rfl, rfl⟩

omit hcwd in
theorem showFile_stays {e : Dirent} (hrun : showFile s e = .done (out, s')) : Stays s s' := by
  obtain ⟨⟨buf, h⟩, -, hrun⟩ := Outcome.bind_eq_done_iff.mp hrun
  dsimp only at hrun
  split_ifs at hrun
  · cases hrun
    exact ⟨rfl, rfl⟩
  · obtain ⟨⟨n, mem, v₁⟩, hread, hrun⟩ := Outcome.bind_eq_done_iff.mp hrun
    obtain ⟨h₁, -, hrun⟩ := Outcome.bind_eq_done_iff.mp hrun
    cases hrun
    exact ⟨(readFile_keeps hread).cwd, rfl⟩

/-- A call in the parent directory, and the way back. -/
theorem parent_back {p : Parent} (hmounted : s.vol.mounted = true)
    (hparent : pathToParentAndBase s.vol path = .done p) (hcall : Later p.vol v') :
    (fat32SetCwdCluster v' p.saved).cwdCluster = s.vol.cwdCluster := by
  obtain ⟨hlater, hsaved, -⟩ := pathToParentAndBase_back hmounted hcwd hparent
  rw [hsaved]
  exact setCwd_back hmounted hcwd (hlater.trans hcall)

omit hcwd in
theorem find_later {found : Option Dirent} {name : List UInt8}
    (hfind : fat32Find v name = .done (found, v')) : Later v v' :=
  Request.later (.find name) (by rw [Request.run, hfind]; rfl)

theorem cmdCat_stays (hrun : cmdCat s args = .done (out, s')) : Stays s s' := by
  unfold cmdCat at hrun
  cases args with
  | nil =>
      cases hrun
      exact ⟨rfl, rfl⟩
  | cons path args =>
      dsimp only at hrun
      by_cases hmounted : s.vol.mounted = true
      · rw [if_neg (not_not_intro hmounted)] at hrun
        obtain ⟨p, hparent, hrun⟩ := Outcome.bind_eq_done_iff.mp hrun
        split_ifs at hrun with hfail
        · cases hrun
          exact ⟨(pathToParentAndBase_back hmounted hcwd hparent).2.2 hfail, rfl⟩
        · obtain ⟨⟨found, v₁⟩, hfind, hrun⟩ := Outcome.bind_eq_done_iff.mp hrun
          have hback := parent_back hcwd hmounted hparent (find_later hfind)
          cases found with
          | none =>
              cases hrun
              exact ⟨hback, rfl⟩
          | some e =>
              dsimp only at hrun
              split_ifs at hrun
              · cases hrun
                exact ⟨hback, rfl⟩
              · obtain ⟨hsame, hpath⟩ := showFile_stays hrun
                exact ⟨hsame.trans hback, hpath⟩
      · rw [if_pos hmounted] at hrun
        cases hrun
        exact ⟨rfl, rfl⟩

theorem pathCommand_stays {usage invalid failed made : String}
    {call : Vol → List UInt8 → Outcome (ℤ × Vol)}
    (hcall : ∀ v name r v', call v name = .done (r, v') → Later v v')
    (hrun : pathCommand usage invalid failed made call s args = .done (out, s')) : Stays s s' := by
  unfold pathCommand at hrun
  cases args with
  | nil =>
      cases hrun
      exact ⟨rfl, rfl⟩
  | cons path args =>
      dsimp only at hrun
      by_cases hmounted : s.vol.mounted = true
      · rw [if_neg (not_not_intro hmounted)] at hrun
        obtain ⟨p, hparent, hrun⟩ := Outcome.bind_eq_done_iff.mp hrun
        split_ifs at hrun with hfail
        · cases hrun
          exact ⟨(pathToParentAndBase_back hmounted hcwd hparent).2.2 hfail, rfl⟩
        · obtain ⟨⟨r, v₁⟩, hop, hrun⟩ := Outcome.bind_eq_done_iff.mp hrun
          have hset := parent_back hcwd hmounted hparent (hcall _ _ _ _ hop)
          dsimp only at hrun
          split_ifs at hrun
          · cases hrun
            exact ⟨hset, rfl⟩
          · cases hrun
            exact ⟨hset, rfl⟩
      · rw [if_pos hmounted] at hrun
        cases hrun
        exact ⟨rfl, rfl⟩

theorem cmdWrite_stays (hrun : cmdWrite s args = .done (out, s')) : Stays s s' := by
  unfold cmdWrite at hrun
  rcases args with _ | ⟨path, _ | ⟨word, words⟩⟩
  · cases hrun
    exact ⟨rfl, rfl⟩
  · cases hrun
    exact ⟨rfl, rfl⟩
  · dsimp only at hrun
    by_cases hmounted : s.vol.mounted = true
    · rw [if_neg (not_not_intro hmounted)] at hrun
      obtain ⟨⟨buf, h⟩, -, hrun⟩ := Outcome.bind_eq_done_iff.mp hrun
      dsimp only at hrun
      split_ifs at hrun
      · cases hrun
        exact ⟨rfl, rfl⟩
      · obtain ⟨p, hparent, hrun⟩ := Outcome.bind_eq_done_iff.mp hrun
        split_ifs at hrun with hfail
        · obtain ⟨h₁, -, hrun⟩ := Outcome.bind_eq_done_iff.mp hrun
          cases hrun
          exact ⟨(pathToParentAndBase_back hmounted hcwd hparent).2.2 hfail, rfl⟩
        · obtain ⟨⟨r, v₁⟩, hop, hrun⟩ := Outcome.bind_eq_done_iff.mp hrun
          obtain ⟨h₁, -, hrun⟩ := Outcome.bind_eq_done_iff.mp hrun
          have hwrite : Later p.vol v₁ := Request.later (.change (.writeFile p.base _ _))
            (by rw [Request.run, Op.run, hop]; rfl)
          have hset := parent_back hcwd hmounted hparent hwrite
          dsimp only at hrun
          split_ifs at hrun
          · cases hrun
            exact ⟨hset, rfl⟩
          · cases hrun
            exact ⟨hset, rfl⟩
    · rw [if_pos hmounted] at hrun
      cases hrun
      exact ⟨rfl, rfl⟩

/-- A `cd` that goes through to the end of its target. -/
def CdSucceeds (s : State) (args : List (List UInt8)) : Prop :=
  s.vol.mounted = true ∧
    ∃ r shown v, cdPath s (args.headD [chSlash]) = .done (r, shown, v) ∧ ¬r < 0

theorem cmdCd_stays (hfails : ¬CdSucceeds s args) (hrun : cmdCd s args = .done (out, s')) :
    Stays s s' := by
  rw [cmdCd] at hrun
  by_cases hmounted : s.vol.mounted = true
  · rw [if_neg (not_not_intro hmounted)] at hrun
    obtain ⟨⟨r, shown, v₁⟩, hcd, hrun⟩ := Outcome.bind_eq_done_iff.mp hrun
    have hwalk : walkPath s.vol (args.headD [chSlash]) = .done (r, v₁) := by
      rw [← cdWalk_eq hmounted, cdWalk, hcd]
      rfl
    dsimp only at hrun
    split_ifs at hrun with hr
    · cases hrun
      have hlater : Later s.vol v₁ := by
        have hstart := enterAll_later hwalk
        split_ifs at hstart
        · exact ⟨hstart.geo, hstart.mounted, hstart.ready, hstart.polls⟩
        · exact hstart
      exact ⟨setCwd_back hmounted hcwd hlater, rfl⟩
    · exact absurd ⟨hmounted, r, shown, v₁, hcd, hr⟩ hfails
  · rw [if_pos hmounted] at hrun
    cases hrun
    exact ⟨rfl, rfl⟩

end Commands

/-! ## All commands -/

section Programs

variable {img : ℕ} {m m' : Machine}

theorem spawnImage_stays {image : Option UserImage}
    (hrun : spawnImage T m path image = .done (out, m')) : Stays m.state m'.state := by
  obtain ⟨⟨t, sched⟩, -, hrun⟩ := Outcome.bind_eq_done_iff.mp hrun
  cases image with
  | none =>
      cases hrun
      exact ⟨rfl, rfl⟩
  | some image =>
      dsimp only at hrun
      split_ifs at hrun
      · obtain ⟨sys, -, hrun⟩ := Outcome.bind_eq_done_iff.mp hrun
        cases hrun
        exact ⟨rfl, rfl⟩
      · cases hrun
        exact ⟨rfl, rfl⟩

theorem runFile_stays {e : Dirent} (hrun : runFile T img m path e = .done (out, m')) :
    Stays m.state m'.state := by
  obtain ⟨⟨buf, h⟩, -, hrun⟩ := Outcome.bind_eq_done_iff.mp hrun
  dsimp only at hrun
  split_ifs at hrun
  · cases hrun
    exact ⟨rfl, rfl⟩
  · obtain ⟨⟨n, mem, v₁⟩, hread, hrun⟩ := Outcome.bind_eq_done_iff.mp hrun
    have hcwd := (readFile_keeps hread).cwd
    dsimp only at hrun
    split_ifs at hrun
    · obtain ⟨h₁, -, hrun⟩ := Outcome.bind_eq_done_iff.mp hrun
      cases hrun
      exact ⟨hcwd, rfl⟩
    · obtain ⟨⟨er, image, sys⟩, -, hrun⟩ := Outcome.bind_eq_done_iff.mp hrun
      obtain ⟨h₁, -, hrun⟩ := Outcome.bind_eq_done_iff.mp hrun
      dsimp only at hrun
      split_ifs at hrun
      · cases hrun
        exact ⟨hcwd, rfl⟩
      · obtain ⟨hsame, hpath⟩ := spawnImage_stays hrun
        exact ⟨hsame.trans hcwd, hpath⟩

theorem cmdExec_stays (hcwd : 2 ≤ m.vol.cwdCluster)
    (hrun : cmdExec T img m args = .done (out, m')) : Stays m.state m'.state := by
  unfold cmdExec at hrun
  cases args with
  | nil =>
      cases hrun
      exact ⟨rfl, rfl⟩
  | cons path args =>
      dsimp only at hrun
      by_cases hmounted : m.vol.mounted = true
      · rw [if_neg (not_not_intro hmounted)] at hrun
        split_ifs at hrun
        · cases hrun
          exact ⟨rfl, rfl⟩
        obtain ⟨p, hparent, hrun⟩ := Outcome.bind_eq_done_iff.mp hrun
        split_ifs at hrun with hfail
        · cases hrun
          exact ⟨(pathToParentAndBase_back hmounted hcwd hparent).2.2 hfail, rfl⟩
        · obtain ⟨⟨found, v₁⟩, hfind, hrun⟩ := Outcome.bind_eq_done_iff.mp hrun
          have hback := parent_back (s := m.state) hcwd hmounted hparent (find_later hfind)
          cases found with
          | none =>
              cases hrun
              exact ⟨hback, rfl⟩
          | some e =>
              dsimp only at hrun
              split_ifs at hrun
              · cases hrun
                exact ⟨hback, rfl⟩
              · cases hrun
                exact ⟨hback, rfl⟩
              · obtain ⟨hsame, hpath⟩ := runFile_stays hrun
                exact ⟨hsame.trans hback, hpath⟩
      · rw [if_pos hmounted] at hrun
        cases hrun
        exact ⟨rfl, rfl⟩

/-- The commands that take a path. -/
inductive PathCommand where
  | file (cmd : Command)
  | exec

def PathCommand.run (T : Tables) (img : ℕ) :
    PathCommand → Machine → List (List UInt8) → Outcome (String × Machine)
  | file cmd, m, args => do
      let r ← cmd.run m.state args
      .done (r.1, m.setState r.2)
  | exec, m, args => cmdExec T img m args

theorem Command.run_stays (cmd : Command) (hcwd : 2 ≤ s.vol.cwdCluster)
    (hcd : cmd = .cd → ¬CdSucceeds s args) (hrun : cmd.run s args = .done (out, s')) :
    Stays s s' := by
  -- the call of `touch`, `rm`, `mkdir` and `rmdir` is one of the driver's
  have hop (op : Op) (v : Vol) (r : ℤ) (v' : Vol) (h : op.run v = .done (r, v')) : Later v v' :=
    Request.later (.change op) (by rw [Request.run, h]; rfl)
  cases cmd with
  | ls => exact cmdLs_stays hcwd hrun
  | cat => exact cmdCat_stays hcwd hrun
  | touch => exact pathCommand_stays hcwd (fun v name ↦ hop (.create name) v) hrun
  | write => exact cmdWrite_stays hcwd hrun
  | rm => exact pathCommand_stays hcwd (fun v name ↦ hop (.remove name) v) hrun
  | mkdir => exact pathCommand_stays hcwd (fun v name ↦ hop (.mkdir name) v) hrun
  | rmdir => exact pathCommand_stays hcwd (fun v name ↦ hop (.rmdir name) v) hrun
  | cd => exact cmdCd_stays hcwd (hcd rfl) hrun

/-- Only a `cd` that succeeds moves the shell, whatever the disk, the drive and the heap do.  The
directory, the path and the buffer of an `exec` are kept apart from the pages that it maps. -/
theorem only_cd_moves (cmd : PathCommand) (hcwd : 2 ≤ m.vol.cwdCluster)
    (hcd : cmd = .file .cd → ¬CdSucceeds m.state args)
    (hrun : cmd.run T img m args = .done (out, m')) :
    m'.vol.cwdCluster = m.vol.cwdCluster ∧ m'.cwdPath = m.cwdPath := by
  cases cmd with
  | file cmd =>
      obtain ⟨⟨text, s'⟩, hcmd, hrun⟩ := Outcome.bind_eq_done_iff.mp hrun
      cases hrun
      exact cmd.run_stays hcwd (fun h ↦ hcd (congrArg _ h)) hcmd
  | exec => exact cmdExec_stays hcwd hrun

end Programs

/-- `cd D/X`: the shell has entered `D` when it finds no `X` there. -/
theorem only_cd_moves_failed_cd : ∃ out m',
    PathCommand.run lowTables 0 (.file .cd) ⟨treeVol, [chSlash], fresh⟩ [[0x44, chSlash, 0x58]] =
      .done (out, m') ∧ m'.vol.cwdCluster = 2 ∧ m'.cwdPath = [chSlash] := by
  have hreturns : (PathCommand.run lowTables 0 (.file .cd) ⟨treeVol, [chSlash], fresh⟩
      [[0x44, chSlash, 0x58]]).value?.isSome = true := by decide +kernel
  have hwalk : (cdPath treeShell [0x44, chSlash, 0x58]).value?.map (fun x ↦ decide (x.1 < 0)) =
      some true := by decide +kernel
  obtain ⟨⟨out, m'⟩, hvalue⟩ := Option.isSome_iff_exists.mp hreturns
  obtain ⟨⟨r, shown, v⟩, hcd, hfail⟩ := Option.map_eq_some_iff.mp hwalk
  have hrun := Outcome.value?_eq_some.mp hvalue
  refine ⟨out, m', hrun, only_cd_moves (.file .cd) (by decide) (fun _ ↦ ?_) hrun⟩
  rintro ⟨-, r', shown', v', hcd', hr'⟩
  cases (Outcome.value?_eq_some.mp hcd).symm.trans hcd'
  exact hr' (of_decide_eq_true hfail)

end MyOS.Shell
