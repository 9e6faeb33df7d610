import MyOS.Shell.Cwd

/-!
# What `pwd` shows

The shell keeps the path that it shows and the cluster that it is in by separate code.  The two
stay in step as long as the path has room for the names that are entered and the twelve
characters kept of a name have its short name.  Where one of the two fails, the path leads to
another directory or to none.
-/

namespace MyOS.Shell

open Fat32 Fat32.Image Heap

variable {v v' w : Vol} {s s' : State} {I : Image} {c tok shown path : List UInt8}
  {cs : List (List UInt8)} {d : ℕ} {p q : Pos}

/-! ## Paths and their parts -/

/-- The path with the given parts, the last one first. -/
def render : List (List UInt8) → List UInt8
  | [] => [chSlash]
  | c :: cs => (if cs = [] then [] else render cs) ++ chSlash :: c

/-- A part of a path, other than `.` and `..`. -/
structure IsName (c : List UInt8) : Prop where
  ne_nil : c ≠ []
  no_slash : chSlash ∉ c
  short : c.length ≤ 15
  not_dots : c ≠ [chDot] ∧ c ≠ [chDot, chDot]

theorem IsName.plain (h : IsName c) : c ≠ [chSlash] ∧ c ≠ [chDot] ∧ c ≠ [chDot, chDot] := by
  refine ⟨?_, h.not_dots⟩
  rintro rfl
  exact h.no_slash List.mem_cons_self

theorem render_cons_tail (cs : List (List UInt8)) : chSlash :: (render cs).tail = render cs := by
  induction cs with
  | nil => rfl
  | cons c cs ih =>
      rw [render]
      split_ifs
      · rfl
      · rw [← ih]
        rfl

theorem render_ne_root (hc : c ≠ []) (cs : List (List UInt8)) : render (c :: cs) ≠ [chSlash] := by
  intro h
  have hlen := congrArg List.length h
  have hpos := List.length_pos_of_ne_nil hc
  rw [render, List.length_append, List.length_cons, List.length_singleton] at hlen
  omega

theorem pathPop_render (hc : chSlash ∉ c) (hne : c ≠ []) (cs : List (List UInt8)) :
    pathPop (render (c :: cs)) = render cs := by
  have hpos := List.length_pos_of_ne_nil hne
  have hlen : ¬(render (c :: cs)).length ≤ 1 := by
    rw [render, List.length_append, List.length_cons]
    omega
  have hkept : ((render (c :: cs)).reverse.dropWhile (· ≠ chSlash)).reverse =
      (if cs = [] then [] else render cs) ++ [chSlash] := by
    have hrev : (render (c :: cs)).reverse =
        c.reverse ++ chSlash :: (if cs = [] then [] else render cs).reverse := by
      simp [render]
    rw [hrev, dropWhile_append_stop]
    · simp
    · intro x hx
      have hmem : x ∈ c := List.mem_reverse.mp hx
      simpa using fun heq : x = chSlash ↦ hc (heq ▸ hmem)
    · simp
  rw [pathPop, if_neg hlen]
  simp only [hkept]
  by_cases hcs : cs = []
  · subst hcs
    rfl
  · have htail := congrArg List.length (render_cons_tail cs)
    rw [List.length_cons] at htail
    rw [if_neg hcs, if_pos (by rw [List.length_append, List.length_singleton]; omega),
      List.dropLast_concat]

/-! ## Names as they are shown -/

theorem toUpper_eq_slash : ∀ b : UInt8, toUpper b = chSlash ↔ b = chSlash := by
  apply Bytes.forall_byte
  decide +kernel

/-- A name of dots is the only one that is shown so. -/
theorem eq_of_shown_dots {dots : List UInt8} (hdots : ∀ b ∈ dots, b = chDot)
    (hshort : dots.length < 12) (h : shortToDisplay tok = dots) : tok = dots := by
  have hself : dots.map toUpper = dots := by
    refine (List.map_congr_left fun b hb ↦ ?_).trans (List.map_id dots)
    rw [hdots b hb]
    rfl
  have htake : tok.take 12 = dots := eq_of_dots (hself.trans h.symm) hdots
  have hlen := congrArg List.length htake
  rw [List.length_take] at hlen
  rw [← htake, List.take_of_length_le (by omega)]

/-- What is shown of a name is a name. -/
theorem IsName.display (h : IsName tok) : IsName (shortToDisplay tok) := by
  refine ⟨?_, ?_, ?_, ?_, ?_⟩
  · have hpos := List.length_pos_of_ne_nil h.ne_nil
    refine List.ne_nil_of_length_pos ?_
    rw [shortToDisplay, List.length_map, List.length_take]
    omega
  · intro hmem
    obtain ⟨b, hb, hslash⟩ := List.mem_map.mp hmem
    rw [(toUpper_eq_slash b).mp hslash] at hb
    exact h.no_slash (List.mem_of_mem_take hb)
  · rw [shortToDisplay, List.length_map, List.length_take]
    omega
  · exact fun hdot ↦ h.not_dots.1 (eq_of_shown_dots (by decide) (by decide) hdot)
  · exact fun hdots ↦ h.not_dots.2 (eq_of_shown_dots (by decide) (by decide) hdots)

/-- The path has room for the name. -/
def Room (shown tok : List UInt8) : Prop :=
  shown.length + 1 + (shortToDisplay tok).length + 1 < cwdPathMax

theorem pathPush_of_room (h : Room (render cs) tok) (hcs : ∀ c ∈ cs, IsName c) :
    pathPush (render cs) tok = render (shortToDisplay tok :: cs) := by
  have hroom : ¬(render cs).length + 1 + (shortToDisplay tok).length + 1 ≥ cwdPathMax :=
    Nat.not_le.mpr h
  rw [pathPush]
  simp only [if_neg hroom]
  cases cs with
  | nil => rfl
  | cons c cs =>
      have hname := hcs c List.mem_cons_self
      rw [if_neg (render_ne_root hname.ne_nil cs)]
      rw [show render (shortToDisplay tok :: c :: cs) =
        render (c :: cs) ++ chSlash :: shortToDisplay tok by rw [render, if_neg (by simp)]]

theorem pathPush_of_not_room (h : ¬Room shown tok) : pathPush shown tok = shown := by
  rw [pathPush]
  simp only [if_pos (Nat.not_lt.mp h)]

/-! ## Resolving a path -/

theorem chdirTokens_name (hc : chSlash ∉ c) :
    ∀ tok : List UInt8, (tok ++ c).length ≤ 15 →
      chdirTokens c tok v = chdirTokens [] (tok ++ c) v := by
  induction c with
  | nil => simp
  | cons b c ih =>
      intro tok hlen
      obtain ⟨hb, hc⟩ : ¬chSlash = b ∧ chSlash ∉ c := by simpa using hc
      have hshort : tok.length < 15 := by
        rw [List.length_append, List.length_cons] at hlen
        omega
      have hstep : chdirTokens (b :: c) tok v = chdirTokens c (tok ++ [b]) v := by
        rw [chdirTokens, if_neg (Ne.symm hb), if_pos hshort]
      rw [hstep, ih hc _ (by simpa using hlen), List.append_assoc, List.singleton_append]

theorem chdirTokens_of_name (hc : IsName c) : chdirTokens c [] v = fat32Chdir v c := by
  rw [chdirTokens_name hc.no_slash [] hc.short, List.nil_append, chdirTokens, if_neg hc.ne_nil]

theorem chdirTokens_append_slash (h : chdirTokens path tok v = .done (0, v')) (c : List UInt8) :
    chdirTokens (path ++ chSlash :: c) tok v = chdirTokens c [] v' := by
  induction path generalizing tok v with
  | nil =>
      rw [chdirTokens] at h
      rw [List.nil_append, chdirTokens, if_pos rfl]
      by_cases htok : tok = []
      · rw [if_pos htok] at h ⊢
        cases h
        rfl
      · rw [if_neg htok] at h ⊢
        rw [h, Outcome.done_bind]
        rfl
  | cons b path ih =>
      rw [chdirTokens] at h
      rw [List.cons_append, chdirTokens]
      by_cases hb : b = chSlash
      · rw [if_pos hb] at h ⊢
        by_cases htok : tok = []
        · rw [if_pos htok] at h ⊢
          exact ih h
        · rw [if_neg htok] at h ⊢
          obtain ⟨⟨r, v₁⟩, hchdir, hrest⟩ := Outcome.bind_eq_done_iff.mp h
          rw [hchdir, Outcome.done_bind]
          dsimp only at hrest ⊢
          by_cases hr : r < 0
          · rw [if_pos hr] at hrest
            cases hrest
          · rw [if_neg hr] at hrest ⊢
            exact ih hrest
      · rw [if_neg hb] at h ⊢
        exact ih h

/-- The parts of a path, the last one first, and the directory that they lead to. -/
inductive Locates (I : Image) : List (List UInt8) → ℕ → Prop
  | root : Locates I [] I.root
  | sub {cs : List (List UInt8)} {c : List UInt8} {d : ℕ} {p : Pos} : Locates I cs d →
      I.HasSub d p → (I.entry p).name = toShortName c → IsName c →
      Locates I (c :: cs) (I.entry p).start

theorem Locates.names (h : Locates I cs d) : ∀ c ∈ cs, IsName c := by
  induction h with
  | root => nofun
  | sub _ _ _ hc ih =>
      intro c hmem
      rcases List.mem_cons.mp hmem with rfl | hmem
      · exact hc
      · exact ih c hmem

/-- One name after the others. -/
theorem chdirTokens_render (h : chdirTokens (render cs).tail [] v = .done (0, v'))
    (hc : IsName c) : chdirTokens (render (c :: cs)).tail [] v = fat32Chdir v' c := by
  by_cases hcs : cs = []
  · subst hcs
    rw [render, List.tail_cons, chdirTokens, if_pos rfl] at h
    cases h
    exact chdirTokens_of_name hc
  · have htail : (render (c :: cs)).tail = (render cs).tail ++ chSlash :: c := by
      rw [render, if_neg hcs, ← render_cons_tail cs]
      rfl
    rw [htail, chdirTokens_append_slash h, chdirTokens_of_name hc]

/-- Entries of one directory with one name are the same. -/
theorem hasSub_of_name (hI : I.Intact) (hp : I.HasSub d p) (hq : I.HasSub d q)
    (hname : (I.entry p).name = (I.entry q).name) : p = q := by
  obtain ⟨l, hl, hpl⟩ := hp.slot
  obtain ⟨m, hm, hqm⟩ := hq.slot
  obtain rfl := hl.unique hI.small hm
  exact hI.names d l p q hp.parent hl hpl hqm hp.live hq.live hname

theorem Locates.chdirTokens (h : Locates v.image cs d) (hv : v.Tree)
    (hroot : v.cwdCluster = v.geo.rootCluster) :
    ∃ v', Fat32.chdirTokens (render cs).tail [] v = .done (0, v') ∧ Visits v v' ∧
      v'.cwdCluster = d := by
  generalize hI : v.image = I at h
  induction h with
  | root =>
      refine ⟨v, rfl, .refl hv, ?_⟩
      rw [hroot, ← hI]
      rfl
  | @sub cs c d p hloc hsub hname hc ih =>
      obtain ⟨v₁, hrun, hvisits, hcwd⟩ := ih
      subst hI
      have hv₁ := hvisits.tree hv
      rw [chdirTokens_render hrun hc]
      obtain ⟨r, v₂, hchdir, hmoved, hres⟩ := fat32Chdir_down hv₁ hc.plain
      rw [hvisits.image, hcwd] at hres
      rcases hres with ⟨-, -, hnone⟩ | ⟨rfl, q, hsub', hname', hcwd'⟩
      · exact absurd hname (hnone p hsub)
      · obtain rfl := hasSub_of_name hv.wf hsub' hsub (hname'.trans hname.symm)
        refine ⟨v₂, hchdir, ⟨⟨hmoved.ready, hmoved.geo.trans hvisits.geo,
          hmoved.image.trans hvisits.image⟩, ?_⟩, hcwd'⟩
        rw [hcwd']
        exact hsub.isDir

theorem fat32ChdirPath_render (hv : v.Tree) (cs : List (List UInt8)) :
    fat32ChdirPath (atRoot v) (render cs) = Fat32.chdirTokens (render cs).tail [] (atRoot v) := by
  have hmounted : (atRoot v).mounted = true := hv.ready.mounted
  rw [← render_cons_tail, fat32ChdirPath, if_neg (by simp [hmounted])]
  rw [if_pos rfl]
  rfl

/-- The path that is shown leads from the root to the directory the shell is in. -/
def PwdTrue (s : State) : Prop :=
  ∃ v', fat32ChdirPath (atRoot s.vol) s.cwdPath = .done (0, v') ∧
    v'.cwdCluster = s.vol.cwdCluster

/-- The path that is shown is made of the names that lead to the working directory. -/
def Located (v : Vol) (shown : List UInt8) : Prop :=
  ∃ cs, shown = render cs ∧ Locates v.image cs v.cwdCluster

theorem Located.pwdTrue (hv : s.vol.Tree) (h : Located s.vol s.cwdPath) : PwdTrue s := by
  obtain ⟨cs, hshown, hloc⟩ := h
  have hroot := atRoot_visits hv
  rw [← hroot.image] at hloc
  obtain ⟨v', hrun, -, hcwd⟩ := hloc.chdirTokens (hroot.tree hv) rfl
  refine ⟨v', ?_, hcwd⟩
  rw [hshown, fat32ChdirPath_render hv, hrun]

/-! ## One part of a target -/

/-- The path that is shown still leads to the working directory when `tok` has been entered. -/
def Shows (shown tok : List UInt8) : Prop :=
  tok = [chDot] ∨ tok = [chDot, chDot] ∨
    Room shown tok ∧ toShortName (shortToDisplay tok) = toShortName tok

instance (shown tok : List UInt8) : Decidable (Room shown tok) :=
  inferInstanceAs (Decidable (_ < _))

instance (shown tok : List UInt8) : Decidable (Shows shown tok) :=
  inferInstanceAs (Decidable (_ ∨ _ ∨ _ ∧ _))

/-- A call that does not fail returns 0. -/
theorem chdir_code {r : ℤ} (hrun : fat32Chdir v tok = .done (r, v')) (hr : ¬r < 0) : r = 0 := by
  rcases chdir_codes hrun with hzero | hfail
  · exact hzero
  · omega

theorem Located.enter (hv : v.Tree) (h : Located v shown) (htok : tok ≠ [])
    (hslash : chSlash ∉ tok) (hshort : tok.length ≤ 15) (hshows : Shows shown tok)
    (hrun : fat32Chdir v tok = .done (0, v')) : Located v' (cdShown tok shown) := by
  obtain ⟨cs, rfl, hloc⟩ := h
  rw [cdShown]
  by_cases hdot : tok = [chDot]
  · subst hdot
    rw [fat32Chdir, if_neg (by simp [hv.ready.mounted]), if_neg (by decide), if_pos rfl] at hrun
    cases hrun
    rw [if_pos rfl]
    exact ⟨cs, rfl, hloc⟩
  rw [if_neg hdot]
  by_cases hdots : tok = [chDot, chDot]
  · subst hdots
    rw [if_pos rfl]
    generalize hcwd : v.cwdCluster = d at hloc
    cases hloc with
    | root =>
        have htop : v.cwdCluster = v.geo.rootCluster := hcwd
        rw [fat32Chdir, if_neg (by simp [hv.ready.mounted]), if_neg (by decide),
          if_neg (by decide), if_pos rfl, if_pos htop] at hrun
        cases hrun
        refine ⟨[], rfl, ?_⟩
        rw [hcwd]
        exact .root
    | @sub cs c d p hloc hsub hname hc =>
        obtain ⟨v'', hrun', hmoved, hcwd'⟩ := fat32Chdir_up hv hsub hcwd
        cases hrun.symm.trans hrun'
        refine ⟨cs, pathPop_render hc.no_slash hc.ne_nil cs, ?_⟩
        rw [hmoved.image, hcwd']
        exact hloc
  · rw [if_neg hdots]
    have hname : IsName tok := ⟨htok, hslash, hshort, hdot, hdots⟩
    obtain ⟨hroom, hsame⟩ := (hshows.resolve_left hdot).resolve_left hdots
    obtain ⟨r, v'', hrun', hmoved, hres⟩ := fat32Chdir_down hv hname.plain
    cases hrun.symm.trans hrun'
    rcases hres with ⟨hr, -⟩ | ⟨-, p, hsub, htarget, hcwd⟩
    · cases hr
    · refine ⟨_, pathPush_of_room hroom hloc.names, ?_⟩
      rw [hmoved.image, hcwd]
      exact hloc.sub hsub (htarget.trans hsame.symm) hname.display

/-! ## Targets -/

/-- Every part is shown as it has to be. -/
def ShowsAll : List (List UInt8) → List UInt8 → Prop
  | [], _ => True
  | tok :: toks, shown => Shows shown tok ∧ ShowsAll toks (cdShown tok shown)

/-- A part of a target while it is read. -/
def Unfinished (tok : List UInt8) : Prop := chSlash ∉ tok ∧ tok.length ≤ 15

theorem Unfinished.nil : Unfinished [] := ⟨List.not_mem_nil, Nat.zero_le 15⟩

theorem Unfinished.grow {b : UInt8} (h : Unfinished tok) (hb : b ≠ chSlash) :
    Unfinished (if tok.length < 15 then tok ++ [b] else tok) := by
  split_ifs with hshort
  · refine ⟨?_, by rw [List.length_append, List.length_singleton]; omega⟩
    simpa [h.1] using Ne.symm hb
  · exact h

theorem cdTokens_located (hv : v.Tree) (path shown : List UInt8) (htok : Unfinished tok) :
    ∃ r shown' v', cdTokens path tok shown v = .done (r, shown', v') ∧ Visits v v' ∧
      (¬r < 0 → r = 0 ∧
        (Located v shown → ShowsAll (tokens path tok) shown → Located v' shown')) := by
  induction path generalizing tok shown v with
  | nil =>
      rw [cdTokens, tokens]
      by_cases hempty : tok = []
      · rw [if_pos hempty, if_pos hempty]
        exact ⟨0, shown, v, rfl, .refl hv, fun _ ↦ ⟨rfl, fun hloc _ ↦ hloc⟩⟩
      rw [if_neg hempty, if_neg hempty]
      obtain ⟨r, v₁, hchdir, hvisits⟩ := chdir_visits hv tok
      simp only [hchdir, Outcome.done_bind]
      by_cases hr : r < 0
      · rw [if_pos hr]
        exact ⟨-1, shown, v₁, rfl, hvisits, fun h ↦ absurd (by norm_num) h⟩
      · rw [if_neg hr]
        refine ⟨0, _, v₁, rfl, hvisits, fun _ ↦ ⟨rfl, fun hloc hall ↦ ?_⟩⟩
        obtain rfl := chdir_code hchdir hr
        exact hloc.enter hv hempty htok.1 htok.2 hall.1 hchdir
  | cons b path ih =>
      rw [cdTokens, tokens]
      by_cases hslash : b = chSlash
      · rw [if_pos hslash, if_pos hslash]
        by_cases hempty : tok = []
        · rw [if_pos hempty, if_pos hempty]
          exact ih hv shown .nil
        rw [if_neg hempty, if_neg hempty]
        obtain ⟨r, v₁, hchdir, hvisits⟩ := chdir_visits hv tok
        simp only [hchdir, Outcome.done_bind]
        by_cases hr : r < 0
        · rw [if_pos hr]
          exact ⟨-1, shown, v₁, rfl, hvisits, fun h ↦ absurd (by norm_num) h⟩
        · rw [if_neg hr]
          obtain ⟨r', shown', v', hrest, hvisits', hres⟩ := ih (hvisits.tree hv) _ .nil
          refine ⟨r', shown', v', hrest, hvisits.trans hvisits', fun hr' ↦ ?_⟩
          obtain ⟨hzero, hkeep⟩ := hres hr'
          obtain rfl := chdir_code hchdir hr
          refine ⟨hzero, fun hloc hall ↦ hkeep ?_ hall.2⟩
          exact hloc.enter hv hempty htok.1 htok.2 hall.1 hchdir
      · rw [if_neg hslash, if_neg hslash]
        exact ih hv shown (htok.grow hslash)

/-! ## Commands -/

/-- Every part of a target is shown as it has to be, from the root if it begins with a slash. -/
def TargetShows (shown : List UInt8) : List UInt8 → Prop
  | [] => True
  | b :: path =>
      if b = chSlash then ShowsAll (tokens path []) [chSlash]
      else ShowsAll (tokens (b :: path) []) shown

theorem cdPath_located (hv : s.vol.Tree) (target : List UInt8) :
    ∃ r shown v', cdPath s target = .done (r, shown, v') ∧ Visits s.vol v' ∧
      (¬r < 0 → r = 0 ∧
        (Located s.vol s.cwdPath → TargetShows s.cwdPath target → Located v' shown)) := by
  cases target with
  | nil => exact ⟨0, _, _, rfl, .refl hv, fun _ ↦ ⟨rfl, fun hloc _ ↦ hloc⟩⟩
  | cons b path =>
      rw [cdPath, TargetShows]
      by_cases hslash : b = chSlash
      · rw [if_pos hslash, if_pos hslash]
        have hroot := atRoot_visits hv
        obtain ⟨r, shown, v', hrun, hvisits, hres⟩ :=
          cdTokens_located (hroot.tree hv) path [chSlash] .nil
        rw [chdir_root hv.ready.mounted, Outcome.done_bind]
        refine ⟨r, shown, v', hrun, hroot.trans hvisits, fun hr ↦ ?_⟩
        obtain ⟨hzero, hkeep⟩ := hres hr
        exact ⟨hzero, fun _ hall ↦ hkeep ⟨[], rfl, .root⟩ hall⟩
      · rw [if_neg hslash, if_neg hslash]
        exact cdTokens_located hv (b :: path) s.cwdPath .nil

/-- The command fails, or every name of its target is shown as it has to be. -/
def CdShows (s : State) (args : List (List UInt8)) : Prop :=
  ∀ shown v, cdPath s (args.headD [chSlash]) = .done (0, shown, v) →
    TargetShows s.cwdPath (args.headD [chSlash])

theorem cmdCd_located (hv : s.vol.Tree) (args : List (List UInt8)) :
    ∃ out s', cmdCd s args = .done (out, s') ∧ s'.vol.Tree ∧
      (Located s.vol s.cwdPath → CdShows s args → Located s'.vol s'.cwdPath) := by
  obtain ⟨r, shown, v₁, hcd, hvisits, hres⟩ := cdPath_located hv (args.headD [chSlash])
  rw [cmdCd, if_neg (by simp [hv.ready.mounted])]
  simp only [hcd, Outcome.done_bind]
  by_cases hr : r < 0
  · rw [if_pos hr]
    obtain ⟨hback, hcwd⟩ := setCwd_visits hvisits hv.cwd hv
    refine ⟨_, _, rfl, hback.tree hv, fun hloc _ ↦ ?_⟩
    rwa [Located, hback.image, hcwd]
  · rw [if_neg hr]
    obtain ⟨rfl, hkeep⟩ := hres hr
    exact ⟨_, _, rfl, hvisits.tree hv, fun hloc hshows ↦ hkeep hloc (hshows shown v₁ hcd)⟩

/-! ## Targets of one name -/

theorem cdTokens_name (hc : chSlash ∉ c) :
    ∀ tok : List UInt8, tok.length ≤ 15 →
      cdTokens c tok shown v = cdTokens [] ((tok ++ c).take 15) shown v := by
  induction c with
  | nil =>
      intro tok hlen
      rw [List.append_nil, List.take_of_length_le hlen]
  | cons b c ih =>
      intro tok hlen
      obtain ⟨hb, hc⟩ : ¬chSlash = b ∧ chSlash ∉ c := by simpa using hc
      have hstep : cdTokens (b :: c) tok shown v =
          cdTokens c (if tok.length < 15 then tok ++ [b] else tok) shown v := by
        rw [cdTokens, if_neg (Ne.symm hb)]
      rw [hstep]
      split_ifs with hshort
      · rw [ih hc _ (by rw [List.length_append, List.length_singleton]; omega), List.append_assoc,
          List.singleton_append]
      · have hfull : tok.length = 15 := by omega
        rw [ih hc tok hlen, List.take_append_of_le_length hfull.ge,
          List.take_append_of_le_length hfull.ge]

/-- A command with one name as its target that has moved the shell. -/
theorem cmdCd_name {target : List UInt8} {out : String} (hv : s.vol.Tree)
    (hslash : chSlash ∉ target) (hcall : cmdCd s [target] = .done (out, s'))
    (hmoved : s'.vol.cwdCluster ≠ s.vol.cwdCluster) :
    target.take 15 ≠ [] ∧ fat32Chdir s.vol (target.take 15) = .done (0, s'.vol) ∧
      s'.cwdPath = cdShown (target.take 15) s.cwdPath := by
  have hpath : cdPath s target = cdTokens [] (target.take 15) s.cwdPath s.vol := by
    cases target with
    | nil => rfl
    | cons b target =>
        have hb : b ≠ chSlash := fun h ↦ hslash (h ▸ List.mem_cons_self)
        rw [cdPath, if_neg hb]
        exact cdTokens_name hslash [] (Nat.zero_le 15)
  rw [cmdCd, if_neg (by simp [hv.ready.mounted])] at hcall
  simp only [List.headD_cons, hpath, cdTokens] at hcall
  by_cases hempty : target.take 15 = []
  · simp only [if_pos hempty, Outcome.done_bind] at hcall
    cases hcall
    exact absurd rfl hmoved
  obtain ⟨r, v', hchdir, hvisits⟩ := chdir_visits hv (target.take 15)
  simp only [if_neg hempty, hchdir, Outcome.done_bind] at hcall
  by_cases hr : r < 0
  · simp only [if_pos hr, Outcome.done_bind] at hcall
    cases hcall
    exact absurd (setCwd_visits hvisits hv.cwd hv).2 hmoved
  · simp only [if_neg hr, Outcome.done_bind] at hcall
    obtain rfl := chdir_code hchdir hr
    cases hcall
    exact ⟨hempty, hchdir, rfl⟩

theorem hasSub_of_start (hI : I.Intact) {e : ℕ} (hp : I.HasSub d p) (hq : I.HasSub e q)
    (hstart : (I.entry p).start = (I.entry q).start) : p = q := by
  obtain ⟨m, hm⟩ := hI.entry_chain p hp.isEntry
  obtain ⟨n, hn⟩ := hI.entry_chain q hq.isEntry
  have hpm := (hm.of_directory hp.directory).start_mem
  have hqn := (hn.of_directory hq.directory).start_mem
  rw [← hstart] at hqn
  exact Option.some.inj (hI.owner_eq ⟨hp.isEntry, hm⟩ ⟨hq.isEntry, hn⟩ hpm hqn)

/-- A name that is not shown as it has to be makes the path wrong. -/
theorem Shows.of_pwdTrue (hv : s.vol.Tree) (hloc : Located s.vol s.cwdPath) (htok : tok ≠ [])
    (hslash : chSlash ∉ tok) (hshort : tok.length ≤ 15)
    (hrun : fat32Chdir s.vol tok = .done (0, s'.vol))
    (hmoved : s'.vol.cwdCluster ≠ s.vol.cwdCluster)
    (hpath : s'.cwdPath = cdShown tok s.cwdPath) (htrue : PwdTrue s') : Shows s.cwdPath tok := by
  by_cases hdot : tok = [chDot]
  · exact Or.inl hdot
  by_cases hdots : tok = [chDot, chDot]
  · exact Or.inr (Or.inl hdots)
  have hname : IsName tok := ⟨htok, hslash, hshort, hdot, hdots⟩
  obtain ⟨cs, hcs, hloc⟩ := hloc
  obtain ⟨r, v', hrun', hmove, hres⟩ := fat32Chdir_down hv hname.plain
  cases hrun.symm.trans hrun'
  obtain ⟨hr, -⟩ | ⟨-, p, hsub, htarget, hcwd⟩ := hres
  · cases hr
  have hv' : s'.vol.Tree := hmove.tree hv (by rw [hcwd]; exact hsub.isDir)
  have hroot := atRoot_visits hv'
  -- the names that are shown lead to the old working directory
  have hold : Locates (atRoot s'.vol).image cs s.vol.cwdCluster := by
    rwa [hroot.image, hmove.image]
  obtain ⟨v₁, hold, hvisits, hback⟩ := hold.chdirTokens (hroot.tree hv') rfl
  obtain ⟨v₂, htrue, hthere⟩ := htrue
  rw [cdShown, if_neg hdot, if_neg hdots, hcs] at hpath
  by_cases hroom : Room s.cwdPath tok
  · rw [hcs] at hroom ⊢
    refine Or.inr (Or.inr ⟨hroom, ?_⟩)
    rw [hpath, pathPush_of_room hroom hloc.names, fat32ChdirPath_render hv',
      chdirTokens_render hold hname.display] at htrue
    obtain ⟨r, v₃, hrun₃, -, hres⟩ := fat32Chdir_down (hvisits.tree (hroot.tree hv'))
      hname.display.plain
    cases htrue.symm.trans hrun₃
    obtain ⟨hr, -⟩ | ⟨-, q, hsub', htarget', hcwd'⟩ := hres
    · cases hr
    rw [hvisits.image, hroot.image, hmove.image] at hsub' htarget' hcwd'
    obtain rfl := hasSub_of_start hv.wf hsub' hsub (by rw [← hcwd', hthere, hcwd])
    rw [← htarget', htarget]
  · rw [hcs] at hroom
    rw [hpath, pathPush_of_not_room hroom, fat32ChdirPath_render hv', hold] at htrue
    cases htrue
    exact absurd (hthere.symm.trans hback) hmoved

/-! ## Runs -/

/-- A `cd`, whatever it returns. -/
def CdStep (s s' : State) : Prop :=
  ∃ (args : List (List UInt8)) (out : String), CdShows s args ∧ cmdCd s args = .done (out, s')

theorem located_of_run (hv : s.vol.Tree) (hloc : Located s.vol s.cwdPath)
    (hrun : Relation.ReflTransGen CdStep s s') : s'.vol.Tree ∧ Located s'.vol s'.cwdPath := by
  induction hrun with
  | refl => exact ⟨hv, hloc⟩
  | tail _ hstep ih =>
      obtain ⟨args, out, hshows, hcall⟩ := hstep
      obtain ⟨out', s'', hcall', htree, hkeep⟩ := cmdCd_located ih.1 args
      cases hcall.symm.trans hcall'
      exact ⟨htree, hkeep ih.2 hshows⟩

/-- From the root, the path that is shown leads to the working directory after every run of `cd`
commands that each fail or show the names they enter.  Every further `cd` returns, and one that
enters a single name keeps the path true exactly if it shows that name. -/
theorem pwd_tells_truth (hv : s.vol.Tree) (hroot : s.vol.cwdCluster = s.vol.geo.rootCluster)
    (hpath : s.cwdPath = [chSlash]) (hrun : Relation.ReflTransGen CdStep s s') :
    PwdTrue s' ∧ (∀ args, ∃ out s'', cmdCd s' args = .done (out, s'')) ∧
      ∀ target out s'', chSlash ∉ target → cmdCd s' [target] = .done (out, s'') →
        s''.vol.cwdCluster ≠ s'.vol.cwdCluster →
        (PwdTrue s'' ↔ Shows s'.cwdPath (target.take 15)) := by
  have hstart : Located s.vol s.cwdPath := by
    refine ⟨[], hpath, ?_⟩
    rw [hroot]
    exact .root
  obtain ⟨hv', hloc⟩ := located_of_run hv hstart hrun
  refine ⟨hloc.pwdTrue hv', fun args ↦ ?_, fun target out s'' hslash hcall hmoved ↦ ?_⟩
  · obtain ⟨out, s'', hcall, -⟩ := cmdCd_located hv' args
    exact ⟨out, s'', hcall⟩
  · obtain ⟨hne, hchdir, hshown⟩ := cmdCd_name hv' hslash hcall hmoved
    have hfree : chSlash ∉ target.take 15 := fun hmem ↦ hslash (List.mem_of_mem_take hmem)
    have hshort : (target.take 15).length ≤ 15 := List.length_take_le 15 target
    constructor
    · exact Shows.of_pwdTrue hv' hloc hne hfree hshort hchdir hmoved hshown
    · intro hshows
      obtain ⟨r, v'', hchdir', hvisits⟩ := chdir_visits hv' (target.take 15)
      cases hchdir.symm.trans hchdir'
      refine Located.pwdTrue (hvisits.tree hv') ?_
      rw [hshown]
      exact hloc.enter hv' hne hfree hshort hshows hchdir

/-- `cd D` -/
theorem pwd_tells_truth_tree : ∃ out s, cmdCd treeShell [[0x44]] = .done (out, s) ∧
    s.cwdPath = [chSlash, 0x44] ∧ PwdTrue s := by
  have hcd : (cmdCd treeShell [[0x44]]).value?.map (fun x ↦ x.2.cwdPath) =
      some [chSlash, 0x44] := by decide +kernel
  obtain ⟨⟨out, s⟩, hvalue, hpath⟩ := Option.map_eq_some_iff.mp hcd
  have hrun := Outcome.value?_eq_some.mp hvalue
  have hshows : TargetShows [chSlash] [0x44] := by
    rw [TargetShows, if_neg (by decide)]
    exact ⟨by decide, trivial⟩
  have hstep : CdStep treeShell s := ⟨[[0x44]], out, fun _ _ _ ↦ hshows, hrun⟩
  exact ⟨out, s, hrun, hpath,
    (pwd_tells_truth ⟨treeVol_good.sound, treeVol_linked⟩ rfl rfl (.single hstep)).1⟩

/-- `ABCDEFGHIJKLM.X` -/
def longName : List UInt8 :=
  [0x41, 0x42, 0x43, 0x44, 0x45, 0x46, 0x47, 0x48, 0x49, 0x4A, 0x4B, 0x4C, 0x4D, 0x2E, 0x58]

/-- A volume whose root holds the directory `ABCDEFGH.X`. -/
def longVol : Vol :=
  smallVol 2 [(2, 0x0FFFFFFF), (3, 0x0FFFFFFF)]
    [((2, 0), newDirent (toShortName longName) fatAttrDirectory 3 0),
     ((3, 0), newDirent dotName fatAttrDirectory 3 0),
     ((3, 1), newDirent dotdotName fatAttrDirectory 0 0)]

theorem longVol_fits : longVol.image.Fits ⟨[2], [((2, 0), [3])]⟩ := by decide +kernel

theorem longVol_tree : longVol.Tree where
  ready := smallVol_ready (by norm_num) _ _
  wf := longVol_fits.wellFormed.toIntact
  cwd := .root
  linked := longVol_fits.linked_one rfl (by decide +kernel) ⟨by decide +kernel,
    by decide +kernel, by decide +kernel, by decide +kernel, by decide +kernel, by decide +kernel⟩

def longShell : State := ⟨longVol, kheapInit lowArena fun _ ↦ 0, [chSlash]⟩

/-- `cd ABCDEFGHIJKLM.X` enters `ABCDEFGH.X` and shows `/ABCDEFGHIJKL`, which is not there. -/
theorem pwd_of_long_name : longShell.vol.Tree ∧
    longShell.vol.cwdCluster = longShell.vol.geo.rootCluster ∧ longShell.cwdPath = [chSlash] ∧
    ∃ out s, cmdCd longShell [longName] = .done (out, s) ∧ s.vol.cwdCluster = 3 ∧
      ¬PwdTrue s := by
  have hcd : (do
      let x ← cmdCd longShell [longName]
      let y ← fat32ChdirPath (atRoot x.2.vol) x.2.cwdPath
      .done (x, y)).value?.map (fun z : (String × State) × (ℤ × Vol) ↦
        (z.1.2.vol.cwdCluster, z.2.1)) = some (3, -1) := by decide +kernel
  obtain ⟨⟨⟨out, s⟩, r, v'⟩, hvalue, hstate⟩ := Option.map_eq_some_iff.mp hcd
  obtain ⟨x, hcall, hrest⟩ := Outcome.bind_eq_done_iff.mp (Outcome.value?_eq_some.mp hvalue)
  obtain ⟨y, hresolve, hdone⟩ := Outcome.bind_eq_done_iff.mp hrest
  cases hdone
  simp only [Prod.mk.injEq] at hstate
  refine ⟨longVol_tree, rfl, rfl, out, s, hcall, hstate.1, ?_⟩
  rintro ⟨v'', htrue, -⟩
  cases hresolve.symm.trans htrue
  cases hstate.2

end MyOS.Shell
