import MyOS.Fat32.Links
import MyOS.Heap.Invariant
import MyOS.Shell.Model

/-!
# Three walks along a path

`fat32_chdir_path`, `path_descend` and `cmd_cd` each cut a path into its parts on their own.  All
of them enter the parts of `tokens` one after the other.  `path_descend` is one part behind: it
enters a part when the next one is complete, and leaves the last one to its caller.
-/

namespace MyOS.Shell

open Fat32 Heap

variable {s : State} {v v' : Vol} {path cur tok shown name : List UInt8} {r : ℤ}
  {toks : List (List UInt8)} {prev : Option (List UInt8)}

/-- The volume with its root as the working directory. -/
def atRoot (v : Vol) : Vol := { v with cwdCluster := v.geo.rootCluster }

/-- The parts of a target, as `cmd_cd` cuts them. -/
def tokens : List UInt8 → List UInt8 → List (List UInt8)
  | [], tok => if tok = [] then [] else [tok]
  | b :: path, tok =>
      if b = chSlash then if tok = [] then tokens path [] else tok :: tokens path []
      else tokens path (if tok.length < 15 then tok ++ [b] else tok)

/-- Enter the parts one after the other, up to the first that cannot be entered. -/
def enterAll : List (List UInt8) → Vol → Outcome (ℤ × Vol)
  | [], v => .done (0, v)
  | tok :: toks, v => do
      let r ← fat32Chdir v tok
      if r.1 < 0 then .done (-1, r.2) else enterAll toks r.2

/-- The walk along a path: from the root if it begins with a slash, part after part. -/
def walkPath (v : Vol) (path : List UInt8) : Outcome (ℤ × Vol) :=
  enterAll (tokens path []) (if path.head? = some chSlash then atRoot v else v)

/-- `path_descend`, and then `fat32_chdir` into the basename if there is one. -/
def descendAndEnter (v : Vol) (path : List UInt8) : Outcome (ℤ × Vol) := do
  let r ← pathDescend v path
  if r.1 < 0 then .done (-1, r.2.2)
  else if r.2.1 = [] then .done (0, r.2.2)
  else fat32Chdir r.2.2 r.2.1

/-- The loop of `cmd_cd`, without the path that it shows. -/
def cdWalk (s : State) (path : List UInt8) : Outcome (ℤ × Vol) := do
  let r ← cdPath s path
  .done (r.1, r.2.2)

/-! ## One part -/

theorem chdir_codes (hrun : fat32Chdir v tok = .done (r, v')) : r = 0 ∨ r = -1 := by
  unfold fat32Chdir at hrun
  by_cases hmounted : v.mounted = true
  · rw [if_neg (not_not_intro hmounted)] at hrun
    split at hrun
    · cases hrun
      exact Or.inl rfl
    split at hrun
    · cases hrun
      exact Or.inl rfl
    split at hrun
    · split at hrun
      · cases hrun
        exact Or.inl rfl
      · obtain ⟨⟨found, v₁⟩, -, hrun⟩ := Outcome.bind_eq_done_iff.mp hrun
        cases found with
        | none =>
            cases hrun
            exact Or.inr rfl
        | some look =>
            cases hrun
            exact Or.inl rfl
    · obtain ⟨⟨found, v₁⟩, -, hrun⟩ := Outcome.bind_eq_done_iff.mp hrun
      cases found with
      | none =>
          cases hrun
          exact Or.inr rfl
      | some look =>
          dsimp only at hrun
          split at hrun
          · cases hrun
            exact Or.inr rfl
          · cases hrun
            exact Or.inl rfl
  · rw [if_pos hmounted] at hrun
    cases hrun
    exact Or.inr rfl

theorem enterAll_singleton : enterAll [tok] v = fat32Chdir v tok := by
  rw [enterAll]
  cases hrun : fat32Chdir v tok with
  | done x =>
      obtain ⟨r, v'⟩ := x
      rcases chdir_codes hrun with rfl | rfl
      · rfl
      · rfl
  | halt msg => rfl
  | spin => rfl

theorem chdir_root (hmounted : v.mounted = true) :
    fat32Chdir v [chSlash] = .done (0, atRoot v) := by
  rw [fat32Chdir, if_neg (by simp [hmounted]), if_pos rfl]
  rfl

/-! ## The loops -/

theorem chdirTokens_eq (path tok : List UInt8) (v : Vol) :
    chdirTokens path tok v = enterAll (tokens path tok) v := by
  induction path generalizing tok v with
  | nil =>
      rw [chdirTokens, tokens]
      split_ifs
      · rfl
      · exact enterAll_singleton.symm
  | cons b path ih =>
      rw [chdirTokens, tokens]
      split_ifs
      · exact ih [] v
      · rw [enterAll]
        cases fat32Chdir v tok with
        | done x =>
            simp only [Outcome.done_bind, ih]
            rfl
        | halt msg => rfl
        | spin => rfl
      · exact ih _ v
      · exact ih _ v

/-- What is shown does not matter for where `cmd_cd` goes. -/
theorem cdTokens_eq (path tok shown : List UInt8) (v : Vol) :
    (cdTokens path tok shown v >>= fun r ↦ .done (r.1, r.2.2)) = enterAll (tokens path tok) v := by
  induction path generalizing tok shown v with
  | nil =>
      rw [cdTokens, tokens]
      split_ifs
      · rfl
      · rw [enterAll]
        cases fat32Chdir v tok with
        | done x =>
            simp only [Outcome.done_bind]
            split_ifs <;> rfl
        | halt msg => rfl
        | spin => rfl
  | cons b path ih =>
      rw [cdTokens, tokens]
      split_ifs
      · exact ih [] shown v
      · rw [enterAll]
        cases fat32Chdir v tok with
        | done x =>
            simp only [Outcome.done_bind]
            split_ifs
            · rfl
            · exact ih [] _ x.2
        | halt msg => rfl
        | spin => rfl
      · exact ih _ shown v
      · exact ih _ shown v

/-- What is left to do after the loop of `path_descend`. -/
def enterLast (r : ℤ × Option (List UInt8) × Vol) : Outcome (ℤ × Vol) :=
  if r.1 < 0 then .done (-1, r.2.2)
  else if r.2.1.getD [] = [] then .done (0, r.2.2)
  else fat32Chdir r.2.2 (r.2.1.getD [])

theorem enterLast_zero (hprev : ∀ name ∈ prev, name ≠ []) :
    enterLast (0, prev, v) = enterAll prev.toList v := by
  cases prev with
  | none => rfl
  | some name => exact (if_neg (hprev name rfl)).trans enterAll_singleton.symm

/-- The part in `prev` is complete and not entered yet, the one in `cur` is being read. -/
theorem descendTokens_eq (path cur : List UInt8) (v : Vol) (hprev : ∀ name ∈ prev, name ≠ []) :
    (descendTokens path cur prev v >>= enterLast) =
      enterAll (prev.toList ++ tokens path cur) v := by
  induction path generalizing cur prev v with
  | nil =>
      rw [descendTokens, tokens]
      unfold endToken
      split_ifs with hempty
      · rw [List.append_nil]
        exact enterLast_zero hprev
      · cases prev with
        | none => exact enterLast_zero fun name hname ↦ Option.mem_some.mp hname ▸ hempty
        | some name =>
            simp only [Option.toList_some, List.singleton_append, enterAll]
            cases fat32Chdir v name with
            | done x =>
                simp only [Outcome.done_bind]
                split_ifs
                · rfl
                · exact enterLast_zero fun name hname ↦
                    Option.mem_some.mp hname ▸ hempty
            | halt msg => rfl
            | spin => rfl
  | cons b path ih =>
      rw [descendTokens, tokens]
      unfold endToken
      split_ifs with hslash hempty
      · exact ih [] v hprev
      · have hcur : ∀ name ∈ some cur, name ≠ [] := fun name hname ↦
          Option.mem_some.mp hname ▸ hempty
        cases prev with
        | none => exact ih [] v hcur
        | some name =>
            simp only [Option.toList_some, List.singleton_append, enterAll]
            cases fat32Chdir v name with
            | done x =>
                simp only [Outcome.done_bind]
                split_ifs
                · rfl
                · exact ih [] x.2 hcur
            | halt msg => rfl
            | spin => rfl
      · exact ih _ v hprev
      · exact ih _ v hprev

/-! ## The walks -/

theorem walkPath_cons (v : Vol) (b : UInt8) (path : List UInt8) :
    walkPath v (b :: path) = if b = chSlash then enterAll (tokens path []) (atRoot v)
      else enterAll (tokens (b :: path) []) v := by
  rw [walkPath, List.head?_cons]
  by_cases hslash : b = chSlash
  · rw [if_pos hslash, if_pos (congrArg some hslash), tokens, if_pos hslash, if_pos rfl]
  · rw [if_neg hslash, if_neg fun heq ↦ hslash (Option.some.inj heq)]

theorem fat32ChdirPath_eq (hmounted : v.mounted = true) (path : List UInt8) :
    fat32ChdirPath v path = walkPath v path := by
  unfold fat32ChdirPath
  rw [if_neg (not_not_intro hmounted)]
  cases path with
  | nil => exact chdirTokens_eq [] [] v
  | cons b path =>
      dsimp only
      rw [walkPath_cons, chdirTokens_eq, chdirTokens_eq]
      rfl

theorem descendAndEnter_eq_bind (v : Vol) (path : List UInt8) :
    descendAndEnter v path = descendPath v path >>= enterLast := by
  rw [descendAndEnter, pathDescend]
  cases descendPath v path with
  | done x => rfl
  | halt msg => rfl
  | spin => rfl

theorem descendAndEnter_eq (hmounted : v.mounted = true) (path : List UInt8) :
    descendAndEnter v path = walkPath v path := by
  rw [descendAndEnter_eq_bind]
  cases path with
  | nil => exact descendTokens_eq [] [] v nofun
  | cons b path =>
      rw [walkPath_cons, descendPath]
      by_cases hslash : b = chSlash
      · rw [if_pos hslash, if_pos hslash, chdir_root hmounted, Outcome.done_bind]
        exact descendTokens_eq path [] (atRoot v) nofun
      · rw [if_neg hslash, if_neg hslash]
        exact descendTokens_eq (b :: path) [] v nofun

theorem cdWalk_eq (hmounted : s.vol.mounted = true) (path : List UInt8) :
    cdWalk s path = walkPath s.vol path := by
  rw [cdWalk]
  cases path with
  | nil => exact cdTokens_eq [] [] s.cwdPath s.vol
  | cons b path =>
      rw [walkPath_cons, cdPath]
      by_cases hslash : b = chSlash
      · rw [if_pos hslash, if_pos hslash, chdir_root hmounted, Outcome.done_bind]
        exact cdTokens_eq path [] [chSlash] (atRoot s.vol)
      · rw [if_neg hslash, if_neg hslash]
        exact cdTokens_eq (b :: path) [] s.cwdPath s.vol

/-- On a mounted volume the three walks enter the same parts in the same order: they return the
same code and leave the same volume, whatever the path, the volume and the drive are. -/
theorem path_walkers_agree (hmounted : s.vol.mounted = true) (path : List UInt8) :
    fat32ChdirPath s.vol path = walkPath s.vol path ∧
      descendAndEnter s.vol path = walkPath s.vol path ∧ cdWalk s path = walkPath s.vol path :=
  ⟨fat32ChdirPath_eq hmounted path, descendAndEnter_eq hmounted path, cdWalk_eq hmounted path⟩

/-- The shell on a volume with the directory `D`. -/
def treeShell : State := ⟨treeVol, kheapInit lowArena fun _ ↦ 0, [chSlash]⟩

/-- The path `/D//..`. -/
theorem path_walkers_agree_tree : treeShell.vol.mounted = true ∧
    fat32ChdirPath treeVol [0x2F, 0x44, 0x2F, 0x2F, 0x2E, 0x2E] =
      enterAll [[0x44], [0x2E, 0x2E]] (atRoot treeVol) ∧
    descendAndEnter treeVol [0x2F, 0x44, 0x2F, 0x2F, 0x2E, 0x2E] =
      enterAll [[0x44], [0x2E, 0x2E]] (atRoot treeVol) ∧
    cdWalk treeShell [0x2F, 0x44, 0x2F, 0x2F, 0x2E, 0x2E] =
      enterAll [[0x44], [0x2E, 0x2E]] (atRoot treeVol) :=
  ⟨rfl, path_walkers_agree (s := treeShell) rfl [0x2F, 0x44, 0x2F, 0x2F, 0x2E, 0x2E]⟩

end MyOS.Shell
