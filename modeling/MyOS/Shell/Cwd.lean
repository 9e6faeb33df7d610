import MyOS.Fat32.Branches
import MyOS.Fat32.Lookup
import MyOS.Heap.Contract
import MyOS.Shell.Paths

/-!
# The shell's working directory

Every command leaves the shell in a live directory, unless it takes that directory away.  The
commands go back to the saved cluster number without a look at what has become of it, and
`rmdir` with an absolute path, or one through `..`, reaches the directory the shell is in.
-/

namespace MyOS.Shell

open Fat32 Fat32.Image Heap

variable {A : Arena} {v v' w : Vol} {s s' : State} {I : Image} {path cur base name : List UInt8}
  {args : List (List UInt8)} {c d p n : ℕ} {h : Kheap} {live : List ℕ}

/-! ## Paths -/

/-- From `v` one gets to `v'` by changing the directory. -/
structure Visits (v v' : Vol) : Prop extends Moved v v' where
  dir : v.image.IsDir v'.cwdCluster

theorem Visits.refl (hv : v.Tree) : Visits v v := ⟨⟨hv.ready, rfl, rfl⟩, hv.cwd⟩

theorem Visits.trans (h : Visits v v') (h' : Visits v' w) : Visits v w :=
  ⟨⟨h'.ready, h'.geo.trans h.geo, h'.image.trans h.image⟩, h.image ▸ h'.dir⟩

theorem Visits.tree (h : Visits v v') (hv : v.Tree) : v'.Tree := h.toMoved.tree hv h.dir

theorem Visits.formed (h : Visits v v') (hv : v.Formed) : v'.Formed := h.toMoved.formed hv h.dir

theorem visits_quiet (hv : v.Formed) (hq : Quiet v v') (hv' : v'.Ready) : Visits v v' :=
  ⟨⟨hv', hq.geo, hq.image⟩, by rw [hq.cwd]; exact hv.cwd⟩

theorem chdir_visits (hv : v.Tree) (name : List UInt8) :
    ∃ r v', fat32Chdir v name = .done (r, v') ∧ Visits v v' := by
  obtain ⟨r, v', hrun, hmoved, hres⟩ := fat32Chdir_spec hv name
  refine ⟨r, v', hrun, hmoved, ?_⟩
  rcases hres with ⟨-, hcwd⟩ | ⟨-, hleads⟩
  · rw [hcwd]
    exact hv.cwd
  · exact hleads.isDir hv.cwd

/-- Going back to a live directory. -/
theorem setCwd_visits (h : Visits v v') (hd : v.image.IsDir d) (hv : v.Tree) :
    Visits v (fat32SetCwdCluster v' d) ∧ (fat32SetCwdCluster v' d).cwdCluster = d := by
  obtain ⟨l, hl⟩ := hv.wf.dir_chain hd
  have hrange := (hl.range _ hl.start_mem).1
  rw [fat32SetCwdCluster, if_neg (by simp [h.ready.mounted]), if_neg (by omega)]
  refine ⟨⟨⟨⟨h.ready.mounted, h.ready.geo, h.ready.reliable, h.ready.hint, h.ready.cache⟩, h.geo,
    h.image⟩, hd⟩, rfl⟩

/-- A part of a path stays ASCII when a character of the path is added. -/
theorem ascii_grow {b : UInt8} (hcur : Ascii cur) (hpath : Ascii (b :: path)) :
    Ascii (if cur.length < 15 then cur ++ [b] else cur) := by
  split_ifs
  · intro x hx
    rcases List.mem_append.mp hx with hx | hx
    · exact hcur x hx
    · rw [List.mem_singleton.mp hx]
      exact hpath b List.mem_cons_self
  · exact hcur

theorem ascii_tail {b : UInt8} (hpath : Ascii (b :: path)) : Ascii path :=
  fun x hx ↦ hpath x (List.mem_cons_of_mem b hx)

theorem ascii_nil : Ascii [] := nofun

theorem endToken_spec {prev : Option (List UInt8)} (hv : v.Formed) (hcur : Ascii cur)
    (hprev : ∀ name ∈ prev, Ascii name) :
    ∃ r prev' v', endToken cur prev v = .done (r, prev', v') ∧ Visits v v' ∧
      ∀ name ∈ prev', Ascii name := by
  have hnew : ∀ name ∈ some cur, Ascii name := by
    rintro name ⟨⟩
    exact hcur
  unfold endToken
  by_cases hempty : cur = []
  · rw [if_pos hempty]
    exact ⟨0, prev, v, rfl, .refl hv.toTree, hprev⟩
  rw [if_neg hempty]
  cases prev with
  | none => exact ⟨0, _, v, rfl, .refl hv.toTree, hnew⟩
  | some name =>
      obtain ⟨r, v', hchdir, hvisits⟩ := chdir_visits hv.toTree name
      simp only [hchdir, Outcome.done_bind]
      split_ifs
      · exact ⟨-1, _, v', rfl, hvisits, hprev⟩
      · exact ⟨0, _, v', rfl, hvisits, hnew⟩

theorem descendTokens_spec {prev : Option (List UInt8)} (hv : v.Formed) (hpath : Ascii path)
    (hcur : Ascii cur) (hprev : ∀ name ∈ prev, Ascii name) :
    ∃ r prev' v', descendTokens path cur prev v = .done (r, prev', v') ∧ Visits v v' ∧
      ∀ name ∈ prev', Ascii name := by
  induction path generalizing cur prev v with
  | nil => exact endToken_spec hv hcur hprev
  | cons b path ih =>
      rw [descendTokens]
      by_cases hslash : b = chSlash
      · rw [if_pos hslash]
        obtain ⟨r, prev₁, v₁, hend, hvisits, hprev₁⟩ := endToken_spec hv hcur hprev
        simp only [hend, Outcome.done_bind]
        by_cases hr : r < 0
        · rw [if_pos hr]
          exact ⟨-1, prev₁, v₁, rfl, hvisits, hprev₁⟩
        · rw [if_neg hr]
          obtain ⟨r', prev', v', hrest, hvisits', hprev'⟩ :=
            ih (hvisits.formed hv) (ascii_tail hpath) ascii_nil hprev₁
          exact ⟨r', prev', v', hrest, hvisits.trans hvisits', hprev'⟩
      · rw [if_neg hslash]
        exact ih hv (ascii_tail hpath) (ascii_grow hcur hpath) hprev

theorem descendPath_spec (hv : v.Formed) (hpath : Ascii path) :
    ∃ r prev v', descendPath v path = .done (r, prev, v') ∧ Visits v v' ∧
      ∀ name ∈ prev, Ascii name := by
  have hnone : ∀ name ∈ (none : Option (List UInt8)), Ascii name := nofun
  cases path with
  | nil => exact descendTokens_spec hv hpath ascii_nil hnone
  | cons b path =>
      rw [descendPath]
      by_cases hslash : b = chSlash
      · rw [if_pos hslash]
        obtain ⟨r₀, v₀, hchdir, hvisits₀⟩ := chdir_visits hv.toTree [chSlash]
        obtain ⟨r, prev, v', hrun, hvisits, hprev⟩ :=
          descendTokens_spec (hvisits₀.formed hv) (ascii_tail hpath) ascii_nil hnone
        rw [hchdir, Outcome.done_bind]
        exact ⟨r, prev, v', hrun, hvisits₀.trans hvisits, hprev⟩
      · rw [if_neg hslash]
        exact descendTokens_spec hv hpath ascii_nil hnone

theorem pathDescend_spec (hv : v.Formed) (hpath : Ascii path) :
    ∃ r base v', pathDescend v path = .done (r, base, v') ∧ Visits v v' ∧ Ascii base := by
  obtain ⟨r, prev, v', hrun, hvisits, hprev⟩ := descendPath_spec hv hpath
  rw [pathDescend, hrun, Outcome.done_bind]
  refine ⟨r, _, v', rfl, hvisits, ?_⟩
  cases prev with
  | none => exact ascii_nil
  | some name => exact hprev name rfl

/-- The way to the parent, and the way back if there is no parent. -/
theorem pathToParentAndBase_spec (hv : v.Formed) (hpath : Ascii path) :
    ∃ P, pathToParentAndBase v path = .done P ∧ P.saved = v.cwdCluster ∧ Visits v P.vol ∧
      Ascii P.base ∧ (P.code < 0 → P.vol.cwdCluster = v.cwdCluster) := by
  obtain ⟨r, base, v', hrun, hvisits, hbase⟩ := pathDescend_spec hv hpath
  simp only [pathToParentAndBase, hrun, Outcome.done_bind]
  split_ifs
  · obtain ⟨hback, hcwd⟩ := setCwd_visits hvisits hv.cwd hv.toTree
    exact ⟨_, rfl, rfl, hback, hbase, fun _ ↦ hcwd⟩
  · exact ⟨_, rfl, rfl, hvisits, hbase, fun hcode ↦ absurd hcode (by norm_num)⟩

theorem atRoot_visits (hv : v.Tree) : Visits v (atRoot v) :=
  ⟨(Quiet.refl v).moved hv.ready _, .root⟩

theorem enterAll_visits (hv : v.Tree) (toks : List (List UInt8)) :
    ∃ r v', enterAll toks v = .done (r, v') ∧ Visits v v' := by
  induction toks generalizing v with
  | nil => exact ⟨0, v, rfl, .refl hv⟩
  | cons tok toks ih =>
      obtain ⟨r, v₁, hchdir, hvisits⟩ := chdir_visits hv tok
      simp only [enterAll, hchdir, Outcome.done_bind]
      split_ifs
      · exact ⟨-1, v₁, rfl, hvisits⟩
      · obtain ⟨r', v', hrest, hvisits'⟩ := ih (hvisits.tree hv)
        exact ⟨r', v', hrest, hvisits.trans hvisits'⟩

theorem walkPath_visits (hv : v.Tree) (path : List UInt8) :
    ∃ r v', walkPath v path = .done (r, v') ∧ Visits v v' := by
  rw [walkPath]
  split_ifs
  · have hroot := atRoot_visits hv
    obtain ⟨r, v', hrun, hvisits⟩ := enterAll_visits (hroot.tree hv) (tokens path [])
    exact ⟨r, v', hrun, hroot.trans hvisits⟩
  · exact enterAll_visits hv (tokens path [])

/-! ## Commands -/

/-- The shell is in a live directory of a volume in order, and the heap is in order. -/
structure Steady (A : Arena) (live : List ℕ) (s : State) : Prop where
  vol : s.vol.Formed
  heap : HeapInv A ⟨s.heap, live⟩

theorem lsEnter_visits (hv : v.Formed) (args : List (List UInt8)) :
    ∃ r v', lsEnter v args = .done (r, v') ∧ Visits v v' := by
  cases args with
  | nil => exact ⟨0, v, rfl, .refl hv.toTree⟩
  | cons path _ =>
      rw [lsEnter, fat32ChdirPath_eq hv.ready.mounted]
      exact walkPath_visits hv.toTree path

theorem cmdLs_steady (hs : Steady A live s) (args : List (List UInt8)) :
    ∃ out s', cmdLs s args = .done (out, s') ∧ Steady A live s' := by
  have hv := hs.vol
  obtain ⟨r, v₁, henter, hvisits⟩ := lsEnter_visits hv args
  have hv₁ := hvisits.formed hv
  rw [cmdLs, if_neg (by simp [hv.ready.mounted])]
  simp only [henter, Outcome.done_bind]
  by_cases hr : r < 0
  · rw [if_pos hr]
    exact ⟨_, _, rfl, (setCwd_visits hvisits hv.cwd hv.toTree).1.formed hv, hs.heap⟩
  · rw [if_neg hr]
    obtain ⟨l, hl⟩ := hv₁.wf.dir_chain hv₁.cwd
    obtain ⟨v₂, hlist, hquiet, hv₂⟩ := fat32Listdir_spec lsVisitor hv₁.ready hl (hv₁.ended hl) ""
    rw [hlist, Outcome.done_bind]
    have hvisits₂ := hvisits.trans (visits_quiet hv₁ hquiet hv₂)
    exact ⟨_, _, rfl, (setCwd_visits hvisits₂ hv.cwd hv.toTree).1.formed hv, hs.heap⟩

theorem cdPath_visits (hv : s.vol.Tree) (path : List UInt8) :
    ∃ r shown v', cdPath s path = .done (r, shown, v') ∧ Visits s.vol v' := by
  obtain ⟨r, v', hwalk, hvisits⟩ := walkPath_visits hv path
  rw [← cdWalk_eq hv.ready.mounted] at hwalk
  obtain ⟨⟨r, shown, v'⟩, hrun, hdone⟩ := Outcome.bind_eq_done_iff.mp hwalk
  cases hdone
  exact ⟨r, shown, v', hrun, hvisits⟩

theorem cmdCd_steady (hs : Steady A live s) (args : List (List UInt8)) :
    ∃ out s', cmdCd s args = .done (out, s') ∧ Steady A live s' := by
  have hv := hs.vol
  obtain ⟨r, shown, v₁, hcd, hvisits⟩ := cdPath_visits hv.toTree (args.headD [chSlash])
  rw [cmdCd, if_neg (by simp [hv.ready.mounted])]
  simp only [hcd, Outcome.done_bind]
  split_ifs
  · exact ⟨_, _, rfl, (setCwd_visits hvisits hv.cwd hv.toTree).1.formed hv, hs.heap⟩
  · exact ⟨_, _, rfl, hvisits.formed hv, hs.heap⟩

/-- A read that fills at most the buffer gives the heap back as it was. -/
theorem showFile_steady {q : Pos} (hs : Steady A live s)
    (hq : (∃ m, s.vol.image.EntryChain q m) ∨ (s.vol.image.entry q).start = 0) :
    ∃ out s', showFile s (s.vol.image.entry q) = .done (out, s') ∧ Steady A live s' := by
  obtain ⟨p, h, hcall, hinv⟩ := kmalloc_inv hs.heap catBufSize
  simp only [showFile, hcall, Outcome.done_bind]
  by_cases hp : p = 0
  · rw [if_pos hp] at hinv
    rw [if_pos hp]
    exact ⟨_, _, rfl, hs.vol, hinv⟩
  rw [if_neg hp] at hinv
  rw [if_neg hp]
  have hserves := hs.heap.kmalloc_serves (by norm_num [catBufSize]) hcall hp
  obtain ⟨n, k, src, v', hread, hk, hvol⟩ : ∃ n k src v',
      fat32ReadFile s.vol (s.vol.image.entry q) h.mem p catBufSize =
        .done (n, h.mem.blit p k src, v') ∧ k ≤ catBufSize ∧ v'.Formed := by
    rcases hq with ⟨m, hm⟩ | hstart
    · obtain ⟨v', hread, hquiet, hv'⟩ := fat32ReadFile_spec hs.vol.ready hm h.mem p catBufSize
      exact ⟨_, _, _, v', hread, (min_le_left _ _).trans (min_le_right _ _),
        (visits_quiet hs.vol hquiet hv').formed hs.vol⟩
    · refine ⟨0, 0, blank, s.vol, ?_, Nat.zero_le _, hs.vol⟩
      rw [fat32ReadFile, if_pos hs.vol.ready.mounted, hstart, Bytes.blit_zero]
      rfl
  rw [hread, Outcome.done_bind]
  obtain ⟨h', hfree, hinv'⟩ := (hinv.blit hserves hk src).free_head
  rw [hfree, Outcome.done_bind]
  exact ⟨_, _, rfl, hvol, hinv'⟩

theorem cmdCat_steady (hs : Steady A live s) (hargs : ∀ a ∈ args, Ascii a) :
    ∃ out s', cmdCat s args = .done (out, s') ∧ Steady A live s' := by
  have hv := hs.vol
  cases args with
  | nil => exact ⟨_, s, rfl, hs⟩
  | cons path _ =>
      obtain ⟨P, hpath, hsaved, hvisits, hbase, hfail⟩ :=
        pathToParentAndBase_spec hv (hargs path List.mem_cons_self)
      rw [cmdCat, if_neg (by simp [hv.ready.mounted])]
      simp only [hpath, Outcome.done_bind]
      by_cases hcode : P.code < 0
      · rw [if_pos hcode]
        exact ⟨_, _, rfl, hvisits.formed hv, hs.heap⟩
      rw [if_neg hcode]
      have hv₁ := hvisits.formed hv
      obtain ⟨l, hl⟩ := hv₁.wf.dir_chain hv₁.cwd
      obtain ⟨v₂, hfind, hquiet, hv₂⟩ := fat32Find_spec hv₁.ready hl (hv₁.ended hl) P.base
      rw [hfind, Outcome.done_bind, hsaved]
      have hvisits₂ :=
        (setCwd_visits (hvisits.trans (visits_quiet hv₁ hquiet hv₂)) hv.cwd hv.toTree).1
      have hs₂ : Steady A live { s with vol := fat32SetCwdCluster v₂ s.vol.cwdCluster } :=
        ⟨hvisits₂.formed hv, hs.heap⟩
      cases hres : (P.vol.image.liveIn (P.vol.image.slotsOf l)).find? fun e ↦
          strEqCi (formatShortName e.name) P.base with
      | none => exact ⟨_, _, rfl, hs₂⟩
      | some e =>
          obtain ⟨q, hq, hqlive, rfl⟩ := mem_liveIn.mp (List.mem_of_find?_eq_some hres)
          have hstart := hv₁.entry_start hl hq hqlive
          rw [hvisits.image, ← hvisits₂.image] at hstart ⊢
          dsimp only
          split_ifs
          · exact ⟨_, _, rfl, hs₂⟩
          · exact showFile_steady hs₂ hstart

/-! ## Commands that change the volume -/

/-- The call that a command makes in the parent directory. -/
def Command.op (words : List (List UInt8)) : Command → List UInt8 → Option Op
  | .touch, base => some (.create base)
  | .write, base => some
      (.writeFile base (fun i ↦ (writeText words).getD i 0) (writeText words).length)
  | .rm, base => some (.remove base)
  | .mkdir, base => some (.mkdir base)
  | .rmdir, base => some (.rmdir base)
  | _, _ => none

/-- The command does not take away the directory the shell is in, or one above it, and it does
not run out of room for the new contents of a file. -/
def Spares (cmd : Command) (v : Vol) (args : List (List UInt8)) : Prop :=
  ∀ path ∈ args.head?, ∀ P, pathToParentAndBase v path = .done P → ¬P.code < 0 →
    ∀ op ∈ cmd.op args.tail P.base, ¬op.RunsOut P.vol ∧ ¬op.TakesBranch P.vol v.cwdCluster

/-- A call in another directory, and back. -/
theorem call_and_back {op : Op} (hv : v.Formed) (hvisits : Visits v v') (hop : op.Valid)
    (hnot : ¬op.RunsOut v') (hspared : ¬op.TakesBranch v' v.cwdCluster) :
    ∃ r w, op.run v' = .done (r, w) ∧ (fat32SetCwdCluster w v.cwdCluster).Formed := by
  have hv' := hvisits.formed hv
  obtain ⟨l, hl⟩ := hv'.wf.dir_chain hv'.cwd
  obtain ⟨r, w, hrun, -⟩ := Op.run_ends hv'.toSound hl hop
  have hw := Op.step_formed hv' hop hnot hrun
  have hdir : v'.image.IsDir v.cwdCluster := by
    rw [hvisits.image]
    exact hv.cwd
  have hkept := Op.keeps_dir hv'.toSound hop hnot hspared hdir hrun
  exact ⟨r, w, hrun, (setCwd_visits (.refl hw.toTree) hkept hw.toTree).1.formed hw⟩

theorem pathCommand_steady {usage invalid failed made : String}
    (call : Vol → List UInt8 → Outcome (ℤ × Vol)) (hs : Steady A live s)
    (hargs : ∀ a ∈ args, Ascii a) (op : List UInt8 → Op)
    (hcall : ∀ v base, call v base = (op base).run v)
    (hvalid : ∀ base, Ascii base → (op base).Valid)
    (hspared : ∀ path ∈ args.head?, ∀ P, pathToParentAndBase s.vol path = .done P → ¬P.code < 0 →
      ¬(op P.base).RunsOut P.vol ∧ ¬(op P.base).TakesBranch P.vol s.vol.cwdCluster) :
    ∃ out s', pathCommand usage invalid failed made call s args = .done (out, s') ∧
      Steady A live s' := by
  have hv := hs.vol
  cases args with
  | nil => exact ⟨_, s, rfl, hs⟩
  | cons path _ =>
      obtain ⟨P, hpath, hsaved, hvisits, hbase, -⟩ :=
        pathToParentAndBase_spec hv (hargs path List.mem_cons_self)
      rw [pathCommand, if_neg (by simp [hv.ready.mounted])]
      simp only [hpath, Outcome.done_bind]
      by_cases hcode : P.code < 0
      · rw [if_pos hcode]
        exact ⟨_, _, rfl, hvisits.formed hv, hs.heap⟩
      rw [if_neg hcode]
      obtain ⟨hnot, hbranch⟩ := hspared path rfl P hpath hcode
      obtain ⟨r, w, hrun, hw⟩ := call_and_back hv hvisits (hvalid _ hbase) hnot hbranch
      rw [hcall, hrun, Outcome.done_bind, hsaved]
      dsimp only
      split_ifs
      · exact ⟨_, _, rfl, hw, hs.heap⟩
      · exact ⟨_, _, rfl, hw, hs.heap⟩

theorem runsOut_data {base : List UInt8} {data data' : Bytes} {size : ℕ}
    (h : (Op.writeFile base data size).RunsOut v) : (Op.writeFile base data' size).RunsOut v := by
  obtain ⟨name, data₀, size₀, p, old, hop, hrest⟩ := h
  cases hop
  exact ⟨base, data', size, p, old, rfl, hrest⟩

theorem cmdWrite_steady (hs : Steady A live s) (hargs : ∀ a ∈ args, Ascii a)
    (hspared : Spares .write s.vol args) :
    ∃ out s', cmdWrite s args = .done (out, s') ∧ Steady A live s' := by
  have hv := hs.vol
  rcases args with - | ⟨path, - | ⟨word, words⟩⟩
  · exact ⟨_, s, rfl, hs⟩
  · exact ⟨_, s, rfl, hs⟩
  obtain ⟨p, h, hcall, hinv⟩ := kmalloc_inv hs.heap writeBufSize
  obtain ⟨P, hpath, hsaved, hvisits, hbase, -⟩ :=
    pathToParentAndBase_spec hv (hargs path List.mem_cons_self)
  rw [cmdWrite, if_neg (by simp [hv.ready.mounted])]
  · simp only [hcall, Outcome.done_bind]
    by_cases hp : p = 0
    · rw [if_pos hp] at hinv
      rw [if_pos hp]
      exact ⟨_, _, rfl, hv, hinv⟩
    rw [if_neg hp] at hinv
    rw [if_neg hp]
    have hlength : (writeText (word :: words)).length ≤ writeBufSize := List.length_take_le _ _
    have hserves := hs.heap.kmalloc_serves (by norm_num [writeBufSize]) hcall hp
    obtain ⟨h', hfree, hinv'⟩ := (hinv.blit hserves hlength
      fun i ↦ (writeText (word :: words)).getD i 0).free_head
    simp only [hpath, Outcome.done_bind]
    by_cases hcode : P.code < 0
    · rw [if_pos hcode, hfree, Outcome.done_bind]
      exact ⟨_, _, rfl, hvisits.formed hv, hinv'⟩
    rw [if_neg hcode]
    obtain ⟨hnot, -⟩ := hspared path rfl P hpath hcode _ rfl
    generalize hdata : (fun i ↦ h.mem.blit p (writeText (word :: words)).length
      (fun i ↦ (writeText (word :: words)).getD i 0) (p + i)) = data
    have hvalid : (Op.writeFile P.base data (writeText (word :: words)).length).Valid :=
      ⟨hbase, hlength.trans_lt (by norm_num [writeBufSize])⟩
    obtain ⟨r, w, hrun, hw⟩ := call_and_back hv hvisits hvalid
      (fun hout ↦ hnot (runsOut_data hout)) (by rintro ⟨_, _, hop, -⟩; cases hop)
    have hwrite : fat32WriteFile P.vol P.base data (writeText (word :: words)).length =
      .done (r, w) := hrun
    simp only [hwrite, Outcome.done_bind, hfree, hsaved]
    split_ifs
    · exact ⟨_, _, rfl, hw, hinv'⟩
    · exact ⟨_, _, rfl, hw, hinv'⟩
  · simp

/-- Every command that spares the directory the shell is in returns, and the shell is in a live
directory after it. -/
theorem Command.run_steady (cmd : Command) (hs : Steady A live s) (hargs : ∀ a ∈ args, Ascii a)
    (hspared : Spares cmd s.vol args) :
    ∃ out s', cmd.run s args = .done (out, s') ∧ Steady A live s' := by
  cases cmd with
  | ls => exact cmdLs_steady hs args
  | cat => exact cmdCat_steady hs hargs
  | cd => exact cmdCd_steady hs args
  | write => exact cmdWrite_steady hs hargs hspared
  | touch =>
      exact pathCommand_steady fat32Create hs hargs .create (fun _ _ ↦ rfl)
        (fun _ hbase ↦ ⟨hbase, by norm_num [Op.size]⟩)
        fun path hp P hP hcode ↦ hspared path hp P hP hcode _ rfl
  | rm =>
      exact pathCommand_steady fat32Remove hs hargs .remove (fun _ _ ↦ rfl)
        (fun _ hbase ↦ ⟨hbase, by norm_num [Op.size]⟩)
        fun path hp P hP hcode ↦ hspared path hp P hP hcode _ rfl
  | mkdir =>
      exact pathCommand_steady fat32Mkdir hs hargs .mkdir (fun _ _ ↦ rfl)
        (fun _ hbase ↦ ⟨hbase, by norm_num [Op.size]⟩)
        fun path hp P hP hcode ↦ hspared path hp P hP hcode _ rfl
  | rmdir =>
      exact pathCommand_steady fat32Rmdir hs hargs .rmdir (fun _ _ ↦ rfl)
        (fun _ hbase ↦ ⟨hbase, by norm_num [Op.size]⟩)
        fun path hp P hP hcode ↦ hspared path hp P hP hcode _ rfl

/-! ## Runs -/

/-- One command, that spares the directory the shell is in. -/
def Step (s s' : State) : Prop :=
  ∃ (cmd : Command) (args : List (List UInt8)) (out : String), (∀ a ∈ args, Ascii a) ∧
    Spares cmd s.vol args ∧ cmd.run s args = .done (out, s')

theorem Steady.of_run (hs : Steady A live s) (hrun : Relation.ReflTransGen Step s s') :
    Steady A live s' := by
  induction hrun with
  | refl => exact hs
  | tail _ hstep ih =>
      obtain ⟨cmd, args, out, hargs, hspared, hcall⟩ := hstep
      obtain ⟨out', s'', hcall', hs''⟩ := cmd.run_steady ih hargs hspared
      rw [hcall] at hcall'
      cases hcall'
      exact hs''

/-- The working directory is the root, or a sub-directory with a live entry that starts at an
allocated cluster. -/
def CwdLive (v : Vol) : Prop :=
  v.cwdCluster = v.geo.rootCluster ∨
    (∃ d p, v.image.HasSub d p ∧ (v.image.entry p).start = v.cwdCluster) ∧
      v.image.fat v.cwdCluster ≠ 0

theorem cwdLive_of_formed (hv : v.Formed) : CwdLive v := by
  rcases hv.cwd.cases_sub with hroot | hsub
  · exact Or.inl hroot
  · exact Or.inr ⟨hsub, hv.wf.dir_fat_ne_zero hv.cwd⟩

/-- A freshly mounted volume: well formed, with its directories linked, and the shell in its
root. -/
structure Fresh (A : Arena) (live : List ℕ) (s : State) : Prop where
  good : s.vol.Good
  linked : s.vol.image.Linked
  plain : s.vol.image.PlainRoot
  root : s.vol.cwdCluster = s.vol.geo.rootCluster
  heap : HeapInv A ⟨s.heap, live⟩

/-- In every run of commands that spare the directory the shell is in, it is alive after every
command, and every such command returns. -/
theorem cwd_stays_live (hs : Fresh A live s) (hrun : Relation.ReflTransGen Step s s') :
    CwdLive s'.vol ∧ ∀ (cmd : Command) (args : List (List UInt8)), (∀ a ∈ args, Ascii a) →
      Spares cmd s'.vol args → ∃ out s'', cmd.run s' args = .done (out, s'') := by
  have hsteady : Steady A live s := ⟨⟨⟨hs.good.sound, hs.linked⟩, hs.plain⟩, hs.heap⟩
  have hs' := hsteady.of_run hrun
  refine ⟨cwdLive_of_formed hs'.vol, fun cmd args hargs hspared ↦ ?_⟩
  obtain ⟨out, s'', hcall, -⟩ := cmd.run_steady hs' hargs hspared
  exact ⟨out, s'', hcall⟩

theorem treeShell_fresh : Fresh lowArena [] treeShell where
  good := treeVol_good
  linked := treeVol_linked
  plain := by
    intro l p hl hp
    obtain rfl := hl.unique treeVol_good.wf.small treeVol_fits.root_chain
    have hslots : ∀ p ∈ treeVol.image.slotsOf [2], (treeVol.image.entry p).Live →
        ¬(treeVol.image.entry p).IsDot := by decide +kernel
    exact hslots p hp
  root := rfl
  heap := (Reachable.init fun _ ↦ 0).inv

/-- `cd D` -/
theorem cwd_stays_live_tree : ∃ out s, Command.cd.run treeShell [[0x44]] = .done (out, s) ∧
    s.vol.cwdCluster = 3 ∧ CwdLive s.vol := by
  have hcd : (Command.cd.run treeShell [[0x44]]).value?.map (fun x ↦ x.2.vol.cwdCluster) =
      some 3 := by decide +kernel
  obtain ⟨⟨out, s⟩, hvalue, hcwd⟩ := Option.map_eq_some_iff.mp hcd
  have hrun := Outcome.value?_eq_some.mp hvalue
  have hspares : Spares .cd treeShell.vol [[0x44]] := by
    intro path _ P _ _ op hop
    cases hop
  have hstep : Step treeShell s := ⟨.cd, [[0x44]], out, by decide, hspares, hrun⟩
  exact ⟨out, s, hrun, hcwd, (cwd_stays_live treeShell_fresh (.single hstep)).1⟩

/-- `cd D` and `rmdir /D`: the shell is in a directory whose cluster is free. -/
theorem rmdir_of_cwd : Fresh lowArena [] treeShell ∧
    ∃ out s out' s', Command.cd.run treeShell [[0x44]] = .done (out, s) ∧
      Command.rmdir.run s [[chSlash, 0x44]] = .done (out', s') ∧ ¬CwdLive s'.vol := by
  have hcalls : (do
      let r ← Command.cd.run treeShell [[0x44]]
      Command.rmdir.run r.2 [[chSlash, 0x44]]).value?.map (fun x : String × State ↦
        (x.2.vol.cwdCluster, x.2.vol.geo.rootCluster, x.2.vol.image.fat 3)) =
      some (3, 2, 0) := by decide +kernel
  obtain ⟨⟨out', s'⟩, hvalue, hstate⟩ := Option.map_eq_some_iff.mp hcalls
  obtain ⟨⟨out, s⟩, hcd, hrmdir⟩ := Outcome.bind_eq_done_iff.mp (Outcome.value?_eq_some.mp hvalue)
  simp only [Prod.mk.injEq] at hstate
  obtain ⟨hcwd, hroot, hfree⟩ := hstate
  refine ⟨treeShell_fresh, out, s, out', s', hcd, hrmdir, ?_⟩
  rintro (hsame | ⟨-, hfat⟩)
  · rw [hcwd, hroot] at hsame
    cases hsame
  · rw [hcwd] at hfat
    exact hfat hfree

end MyOS.Shell
