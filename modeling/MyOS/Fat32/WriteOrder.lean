import MyOS.Fat32.Cut
import MyOS.Fat32.Failure
import MyOS.Fat32.Unreliable

/-!
# The order of the writes

A call that takes clusters away clears their links before it changes the entry that leads to them.
If the power goes off in between, the entry is there with a chain that is not.  Calls that only
take free clusters fill them before an entry leads there, and may be stopped at any time.
-/

namespace MyOS.Fat32

open Image

variable {v v' w : Vol} {I : Image} {op : Op} {n c d s : ℕ} {l m old : List ℕ} {p : Pos}
  {name target : List UInt8} {r : ℤ}

/-! ## Chains that run into a free cluster -/

namespace Image

/-- Cluster `c` is on the chain of `s`, as far as it can be followed. -/
inductive Reaches (I : Image) (s : ℕ) : ℕ → Prop
  | start : 2 ≤ s → isEoc s = false → Reaches I s s
  | next {c : ℕ} : Reaches I s c → 2 ≤ I.fat c → isEoc (I.fat c) = false → Reaches I s (I.fat c)

/-- A live entry has a chain with a free cluster on it. -/
def Dangling (I : Image) : Prop :=
  ∃ p c, I.IsEntry p ∧ I.Reaches (I.entry p).start c ∧ I.fat c = 0

theorem Reaches.two_le (h : I.Reaches s c) : 2 ≤ s := by
  induction h with
  | start hs _ => exact hs
  | next _ _ _ ih => exact ih

theorem Reaches.mem_chain (h : I.Reaches s c) (hl : I.Chain s l) : c ∈ l := by
  induction h with
  | start _ _ => exact hl.start_mem
  | next _ _ heoc ih =>
      obtain ⟨z, hwalk, hz⟩ := hl.walk
      rcases hwalk.next_mem_or_eq ih with hmem | hend
      · exact hmem
      · rw [hend, hz] at heoc
        cases heoc

theorem Intact.not_dangling (h : I.Intact) : ¬I.Dangling := by
  rintro ⟨p, c, hp, hc, hfree⟩
  obtain ⟨l, hl | ⟨-, -, hstart, -⟩⟩ := h.entry_chain p hp
  · exact hl.fat_ne_zero (hc.mem_chain hl) hfree
  · have hlo := hc.two_le
    omega

/-- The directory of an entry stays where it is when a link of the entry's chain is cleared: a way
to it that leads through the entry has passed through the directory before. -/
theorem Intact.isDir_cleared (h : I.Intact) (hd : I.IsDir d) (hl : I.Chain d l)
    (hp : p ∈ I.slotsOf l) (hown : I.Owns (some p) old) (hc : c ∈ old) :
    (I.setFat c 0).IsDir d := by
  have hkeep : ∀ {o m s}, I.Owns o m → o ≠ some p → I.Chain s m → (I.setFat c 0).Chain s m := by
    intro o m s ho hne hm
    refine hm.congr rfl fun x hx ↦ Function.update_of_ne ?_ _ _
    rintro rfl
    exact h.disjoint o (some p) m old ho hown hne hx hc
  have hway : ∀ e, I.IsDir e → (I.setFat c 0).IsDir d ∨
      (I.setFat c 0).IsDir e ∧ ∃ o m, I.Owns o m ∧ o ≠ some p ∧ I.Chain e m := by
    intro e he
    induction he with
    | root =>
        obtain ⟨m, hm⟩ := h.root_chain
        exact Or.inr ⟨.root, none, m, hm, nofun, hm⟩
    | @sub e m q he hm hq hlive hdot hdir ih =>
        rcases ih with hleft | ⟨he', o, m', ho, hne, hm'⟩
        · exact Or.inl hleft
        obtain rfl := hm.unique h.small hm'
        by_cases hqp : q = p
        · rw [hqp] at hq
          obtain rfl := h.dir_eq he hd hm hl (mem_slotsOf.mp hq).1 (mem_slotsOf.mp hp).1
          exact Or.inl he'
        · have hentry : I.IsEntry q := .of_mem he hm hq hlive hdot
          obtain ⟨k, hk⟩ := h.entry_chain q hentry
          refine Or.inr ⟨.sub he' (hkeep ho hne hm) hq hlive hdot hdir, some q, k, ⟨hentry, hk⟩,
            fun hsame ↦ hqp (Option.some.inj hsame), hk.of_directory hdir⟩
  exact (hway d hd).elim id And.left

/-- An entry whose first cluster is cleared dangles. -/
theorem Intact.dangling_of_cleared (h : I.Intact) (hd : I.IsDir d) (hl : I.Chain d l)
    (hp : p ∈ I.slotsOf l) (hlive : (I.entry p).Live) (hdot : ¬(I.entry p).IsDot)
    (hold : I.Chain (I.entry p).start old) : (I.setFat (I.entry p).start 0).Dangling := by
  have hentry : I.IsEntry p := .of_mem hd hl hp hlive hdot
  have hown : I.Owns (some p) old := ⟨hentry, Or.inl hold⟩
  have hapart := h.entry_notMem_chain hd hl (mem_slotsOf.mp hp).1 hown
  have hl' : (I.setFat (I.entry p).start 0).Chain d l := by
    refine hl.congr rfl fun x hx ↦ Function.update_of_ne ?_ _ _
    rintro rfl
    exact hapart hx hold.start_mem
  obtain ⟨hlo, hhi⟩ := hold.range _ hold.start_mem
  refine ⟨p, (I.entry p).start, ?_, .start hlo (not_isEoc h.small hhi), Function.update_self _ _ _⟩
  exact .of_mem (h.isDir_cleared hd hl hp hown hold.start_mem) hl' hp hlive hdot

end Image

/-! ## What a call frees -/

/-- The name is that of a file with a chain. -/
def FreesFile (v : Vol) (name : List UInt8) : Prop :=
  ∃ p, v.image.Named v.cwdCluster (toShortName name) p ∧
    (v.image.entry p).isDirectory = false ∧ 2 ≤ (v.image.entry p).start

/-- The call takes a chain away that an entry leads to: that of a file that is removed or
overwritten, or that of a directory that `dir_is_empty` accepts. -/
def Op.Frees : Op → Vol → Prop
  | create _, _ => False
  | mkdir _, _ => False
  | writeFile name _ _, v => FreesFile v name
  | remove name, v => FreesFile v name
  | rmdir name, v => ¬(name = [chDot] ∨ name = [chDot, chDot]) ∧
      ∃ p old, v.image.Named v.cwdCluster (toShortName name) p ∧
        (v.image.entry p).isDirectory = true ∧ v.image.Chain (v.image.entry p).start old ∧
        ∀ q ∈ v.image.slotsOf old, (v.image.entry q).Live → (v.image.entry q).DotLike

/-! ## Calls that may be stopped -/

theorem Vol.Sound.cut (h : v.Sound) (n : ℕ) : (v.cut n).Steady :=
  ⟨h.wf, h.cwd, (h.ready.trusts _).cut n⟩

/-- When the power has gone off during the search for a name, no slot is found for it. -/
theorem stopped_of_misses (h : v.Sound) (hmiss : Misses (v.cut n) target) :
    ∃ v₁ v₂, searchDir (v.cut n) (v.cut n).cwdCluster target = .done (none, v₁) ∧
      findFreeDirentIn v₁ v₁.cwdCluster = .done (none, v₂) := by
  obtain ⟨⟨p, l, hl, hp, hlive, hname⟩, v₁, hsearch⟩ := hmiss
  obtain ⟨r, w, hsearch', hquiet, hlater, hw, -, hr⟩ := (h.cut n).search hl target
  rw [hsearch] at hsearch'
  cases hsearch'
  rcases hr with ⟨-, habsent | hmissed⟩ | ⟨-, _, -, hfound, -⟩
  · exact absurd hname (habsent p hp hlive)
  · have hl₁ : v₁.image.Chain v₁.cwdCluster l := by rwa [hquiet.image, hquiet.cwd]
    obtain ⟨hlo, hhi⟩ := hl₁.range _ hl₁.start_mem
    obtain ⟨v₂, hfree, -⟩ := scanLoop_inert freeVisit none none (dead_of_missed hmissed hlater)
      hw.trusts.geo hlo hhi (show 0 < walkFuel by norm_num [walkFuel])
    exact ⟨v₁, v₂, hsearch, hfree⟩
  · cases hfound

theorem Stored.intact {W : Prop} (h : Stored (v.cut n) w target W r)
    (hcode : Misses (v.cut n) target → r = -1) (hnot : ¬W) : w.image.Intact := by
  refine (h.steady ?_ fun hover ↦ hnot hover.1).wf
  rintro ⟨hmiss, rfl⟩
  exact absurd (hcode hmiss) (by decide)

theorem fat32Create_cut (h : v.Sound) (hnul : 0 ∉ name) (n : ℕ) :
    ∃ r w, fat32Create (v.cut n) name = .done (r, w) ∧ w.image.Intact := by
  obtain ⟨r, w, hrun, hstored⟩ := fat32Create_any (h.cut n) hnul
  refine ⟨r, w, hrun, hstored.intact (fun hmiss ↦ ?_) id⟩
  obtain ⟨v₁, v₂, hsearch, hfree⟩ := stopped_of_misses h hmiss
  rw [fat32Create, if_pos (h.cut n).trusts.mounted] at hrun
  simp only [hsearch, hfree, Outcome.done_bind] at hrun
  cases hrun
  rfl

theorem fat32Mkdir_cut (h : v.Sound) (hnul : 0 ∉ name) (n : ℕ) :
    ∃ r w, fat32Mkdir (v.cut n) name = .done (r, w) ∧ w.image.Intact := by
  obtain ⟨r, w, hrun, hstored⟩ := fat32Mkdir_any (h.cut n) hnul
  refine ⟨r, w, hrun, hstored.intact (fun hmiss ↦ ?_) id⟩
  obtain ⟨v₁, v₂, hsearch, hfree⟩ := stopped_of_misses h hmiss
  rw [fat32Mkdir, if_pos (h.cut n).trusts.mounted] at hrun
  simp only [hsearch, hfree, Outcome.done_bind] at hrun
  cases hrun
  rfl

theorem fat32WriteFile_cut (h : v.Sound) (hnul : 0 ∉ name) (data : Bytes) {size : ℕ}
    (hsize : size < 2 ^ 32) (n : ℕ) :
    ∃ r w, fat32WriteFile (v.cut n) name data size = .done (r, w) ∧
      (¬FreesFile v name → w.image.Intact) := by
  obtain ⟨r, w, hrun, hstored⟩ := fat32WriteFile_any (h.cut n) hnul data hsize
  refine ⟨r, w, hrun, fun hnot ↦ hstored.intact (fun hmiss ↦ ?_) fun hover ↦ hnot ?_⟩
  · obtain ⟨v₁, v₂, hsearch, hfree⟩ := stopped_of_misses h hmiss
    rw [fat32WriteFile, if_pos (h.cut n).trusts.mounted, writeTarget] at hrun
    simp only [hsearch, hfree, Outcome.done_bind, Outcome.pure_eq_done] at hrun
    cases hrun
    rfl
  · obtain ⟨look, v₁, hsearch, hfile, hstart⟩ := hover
    obtain ⟨l, hl⟩ := h.wf.dir_chain h.cwd
    obtain ⟨found, v₂, hsearch', -, -, -, -, hfound⟩ := (h.cut n).search hl (toShortName name)
    rw [hsearch] at hsearch'
    cases hsearch'
    rcases hfound with ⟨hnone, -⟩ | ⟨-, p, hp, hlook, hlive, hname⟩
    · cases hnone
    · cases hlook
      exact ⟨p, ⟨l, hl, hp, hlive, hname⟩, hfile, hstart⟩

theorem fat32Remove_cut (h : v.Sound) (name : List UInt8) (n : ℕ) :
    ∃ r w, fat32Remove (v.cut n) name = .done (r, w) ∧
      (¬FreesFile v name → w.image.Intact) := by
  obtain ⟨l, hl⟩ := h.wf.dir_chain h.cwd
  obtain ⟨found, v₁, hsearch, hq₁, -, h₁, ht₁, hfound⟩ := (h.cut n).search hl (toShortName name)
  have himage₁ : v₁.image = v.image := hq₁.image
  rw [fat32Remove, if_pos (h.cut n).trusts.mounted]
  simp only [hsearch, Outcome.done_bind]
  rcases hfound with ⟨rfl, -⟩ | ⟨-, p, hp, rfl, hlive, htarget⟩
  · exact ⟨-1, v₁, rfl, fun _ ↦ h₁.wf⟩
  have hlook : ((v.cut n).lookAt p).entry = v.image.entry p := rfl
  simp only [hlook]
  by_cases hdir : (v.image.entry p).isDirectory = true
  · rw [if_pos hdir]
    exact ⟨-1, v₁, rfl, fun _ ↦ h₁.wf⟩
  rw [if_neg hdir]
  have hdot := not_dot_of_shortName htarget
  obtain ⟨old, hold, hsite⟩ := Site.of_entry h.wf h.cwd hl hp hlive hdot
  rcases hold.cases with ⟨hstart, hchain⟩ | ⟨hstart, rfl⟩
  · rw [← himage₁] at hchain
    obtain ⟨v₂, hfree, -⟩ := freeChain_any ht₁ hchain fun c hc ↦
      ⟨some p, old, ⟨.of_mem h.cwd hl hp hlive hdot, hold⟩, hc⟩
    rw [himage₁] at hfree
    rw [if_pos hstart, hfree, Outcome.done_bind]
    refine ⟨_, _, rfl, fun hnot ↦ absurd ?_ hnot⟩
    exact ⟨p, ⟨l, hl, hp, hlive, htarget⟩, Bool.eq_false_iff.mpr hdir, hstart⟩
  · obtain ⟨ok, v₂, hpatch, -, hok, hfail⟩ := patchSlot_any (n := 1) h₁.trusts.geo
      (hasSlot_later hq₁.toKeeps (hasSlot_of_mem hl hp)) (by norm_num) (fun _ ↦ 0xE5)
    rw [hq₁.lookAt] at hpatch
    have hmark : markDeleted v₁ ((v.cut n).lookAt p).lba ((v.cut n).lookAt p).offset = (ok, v₂) :=
      hpatch
    rw [if_neg (by omega), Outcome.pure_eq_done, Outcome.done_bind, hmark]
    refine ⟨_, v₂, rfl, fun _ ↦ ?_⟩
    cases ok with
    | false =>
        rw [hfail rfl]
        exact h₁.wf
    | true =>
        have htidy := hsite.tidy_deleted
        rw [hok rfl, himage₁]
        exact htidy.intact

theorem fat32Rmdir_cut (h : v.Sound) (name : List UInt8) (n : ℕ) :
    ∃ r w, fat32Rmdir (v.cut n) name = .done (r, w) ∧
      (¬(Op.rmdir name).Frees v → w.image.Intact) := by
  obtain ⟨l, hl⟩ := h.wf.dir_chain h.cwd
  rw [fat32Rmdir, if_pos (h.cut n).trusts.mounted]
  by_cases hdots : name = [chDot] ∨ name = [chDot, chDot]
  · rw [if_pos hdots]
    exact ⟨-1, _, rfl, fun _ ↦ h.wf⟩
  rw [if_neg hdots]
  obtain ⟨found, v₁, hsearch, hq₁, hlater₁, h₁, ht₁, hfound⟩ :=
    (h.cut n).search hl (toShortName name)
  have himage₁ : v₁.image = v.image := hq₁.image
  simp only [hsearch, Outcome.done_bind]
  rcases hfound with ⟨rfl, -⟩ | ⟨-, p, hp, rfl, hlive, htarget⟩
  · exact ⟨-1, v₁, rfl, fun _ ↦ h₁.wf⟩
  have hlook : ((v.cut n).lookAt p).entry = v.image.entry p := rfl
  simp only [hlook]
  by_cases hdir : (v.image.entry p).isDirectory = true
  swap
  · rw [if_pos hdir]
    exact ⟨-1, v₁, rfl, fun _ ↦ h₁.wf⟩
  have hdot := not_dot_of_shortName htarget
  obtain ⟨old, hold, -⟩ := Site.of_entry h.wf h.cwd hl hp hlive hdot
  have hchain := hold.of_directory hdir
  have hstart : ¬(v.image.entry p).start < 2 := by
    have := (hchain.range _ hchain.start_mem).1
    omega
  have howned : ∀ c ∈ old, c ∈ v.image.Owned := fun c hc ↦
    ⟨some p, old, ⟨.of_mem h.cwd hl hp hlive hdot, hold⟩, hc⟩
  have hends : v₁.image.Ended old := by
    rw [himage₁]
    exact h.wf.ends _ _ (.sub h.cwd hl hp hlive hdot hdir) hchain
  have hchain₁ : v₁.image.Chain (v.image.entry p).start old := by rwa [himage₁]
  obtain ⟨empty, v₂, hempty, hq₂, hlater₂, ht₂, hres⟩ :=
    scanDir_any emptyVisit false true (links_trusts _) ht₁ hchain₁ howned
  have himage₂ : v₂.image = v.image := hq₂.image.trans himage₁
  have hempty : dirIsEmpty v₁ (v.image.entry p).start = .done (empty, v₂) := hempty
  rw [if_neg (not_not_intro hdir), if_neg hstart]
  simp only [hempty, Outcome.done_bind]
  cases empty with
  | false => exact ⟨-1, v₂, rfl, fun _ ↦ himage₂ ▸ h.wf⟩
  | true =>
      have hchain₂ : v₂.image.Chain (v.image.entry p).start old := by rwa [himage₂]
      obtain ⟨v₃, hfree, hrel⟩ := freeChain_any ht₂ hchain₂ howned
      simp only [not_true, if_false, hfree, Outcome.done_bind, Outcome.pure_eq_done]
      refine ⟨_, _, rfl, fun hnot ↦ ?_⟩
      rcases hres with ⟨htrue, -⟩ | ⟨-, hmissed⟩
      · -- the directory is empty
        have hall := (empty_result hends).mp htrue.symm
        rw [himage₁] at hall
        exact absurd ⟨hdots, p, old, ⟨l, hl, hp, hlive, htarget⟩, hdir, hchain, hall⟩ hnot
      · -- the power has gone off in the scan, and what follows does nothing
        have hdead := dead_of_missed ((missed_iff hlater₁ hlater₂).mpr (Or.inr hmissed))
          (hlater₁.trans hlater₂)
        obtain ⟨hlater₃, hdisk₃⟩ := freeChain_inert hfree hdead
        have himage₃ := Vol.image_congr hrel.toKeeps.geo hdisk₃
        rw [(markDeleted_inert (hdead.later hlater₃) _ _).image, himage₃, himage₂]
        exact h.wf

theorem Op.run_cut (h : v.Sound) (hnul : 0 ∉ op.name) (hsize : op.size < 2 ^ 32) (n : ℕ) :
    ∃ r w, op.run (v.cut n) = .done (r, w) ∧ (¬op.Frees v → w.image.Intact) := by
  cases op with
  | create name =>
      obtain ⟨r, w, hrun, hw⟩ := fat32Create_cut h hnul n
      exact ⟨r, w, hrun, fun _ ↦ hw⟩
  | mkdir name =>
      obtain ⟨r, w, hrun, hw⟩ := fat32Mkdir_cut h hnul n
      exact ⟨r, w, hrun, fun _ ↦ hw⟩
  | writeFile name data size => exact fat32WriteFile_cut h hnul data hsize n
  | remove name => exact fat32Remove_cut h name n
  | rmdir name => exact fat32Rmdir_cut h name n

/-! ## Calls that may not -/

/-- The search for a name that is there, on a drive that lasts for it. -/
theorem search_cut (h : v.Sound) (hp : v.image.Named v.cwdCluster target p) :
    ∃ v₁, Quiet v v₁ ∧ v₁.Ready ∧ ∀ n, v₁.ata.polls ≤ n →
      searchDir (v.cut n) (v.cut n).cwdCluster target = .done (some (v.lookAt p), v₁.cut n) := by
  obtain ⟨l, hl, hp, hlive, hname⟩ := hp
  obtain ⟨found, v₁, hsearch, hq₁, hv₁, hfound⟩ := searchDir_spec h.ready hl (h.ended hl) target
  rcases hfound with ⟨-, habsent⟩ | ⟨q, hq, rfl, hqlive, hqname⟩
  · exact absurd hname (habsent p hp hlive)
  · obtain rfl := h.wf.names _ l q p h.cwd hl hq hp hqlive hlive (hqname.trans hname.symm)
    exact ⟨v₁, hq₁, hv₁, fun n hn ↦ scanLoop_cut h.ready.reliable hsearch hn⟩

theorem dirIsEmpty_cut (hv : v.Ready) (hl : v.image.Chain s l) (hends : v.image.Ended l)
    (hall : ∀ q ∈ v.image.slotsOf l, (v.image.entry q).Live → (v.image.entry q).DotLike) :
    ∃ v₁, Quiet v v₁ ∧ v₁.Ready ∧ v.ata.polls ≤ v₁.ata.polls ∧ ∀ n, v₁.ata.polls ≤ n →
      dirIsEmpty (v.cut n) s = .done (true, v₁.cut n) := by
  obtain ⟨empty, v₁, hempty, hq₁, hv₁, hdots⟩ := dirIsEmpty_spec hv hl hends
  obtain rfl := hdots.mpr hall
  exact ⟨v₁, hq₁, hv₁, (dirIsEmpty_alike v.ata.ready _ _ _ hempty).1.polls,
    fun n hn ↦ scanLoop_cut hv.reliable hempty hn⟩

theorem Vol.Sound.dangling_of_cleared (h : v.Sound)
    (hp : v.image.Named v.cwdCluster (toShortName name) p)
    (hold : v.image.Chain (v.image.entry p).start old) :
    (v.image.setFat (v.image.entry p).start 0).Dangling := by
  obtain ⟨l, hl, hp, hlive, hname⟩ := hp
  exact h.wf.dangling_of_cleared h.cwd hl hp hlive (not_dot_of_shortName hname) hold

/-- A file that has a first cluster has a chain. -/
theorem Vol.Sound.file_chain (h : v.Sound)
    (hp : v.image.Named v.cwdCluster (toShortName name) p) (hstart : 2 ≤ (v.image.entry p).start) :
    ∃ old, v.image.Chain (v.image.entry p).start old := by
  obtain ⟨l, hl, hp, hlive, hname⟩ := hp
  obtain ⟨old, hold⟩ := h.wf.entry_chain p (.of_mem h.cwd hl hp hlive (not_dot_of_shortName hname))
  rcases hold.cases with ⟨-, hchain⟩ | ⟨hzero, -⟩
  · exact ⟨old, hchain⟩
  · omega

/-- The power goes off when the first link of a file is cleared. -/
theorem freesFile_cut (h : v.Sound) (hfrees : FreesFile v name) :
    ∃ p n u w, (v.image.entry p).isDirectory = false ∧ 2 ≤ (v.image.entry p).start ∧
      searchDir (v.cut n) (v.cut n).cwdCluster (toShortName name) = .done (some (v.lookAt p), u) ∧
      freeChain u (v.image.entry p).start = .done w ∧ w.Dead ∧ w.image.Dangling := by
  obtain ⟨p, hp, hfile, hstart⟩ := hfrees
  obtain ⟨old, hchain⟩ := h.file_chain hp hstart
  have hdangling := h.dangling_of_cleared hp hchain
  obtain ⟨v₁, hq₁, hv₁, hsearch⟩ := search_cut h hp
  rw [← hq₁.image] at hchain
  obtain ⟨n, w, hn, hfree, -, hdead, himage⟩ := freeChain_cut hv₁ hchain
  rw [hq₁.image] at hfree himage
  exact ⟨p, n, _, w, hfile, hstart, hsearch n hn, hfree, hdead, himage ▸ hdangling⟩

theorem fat32Remove_dangling (h : v.Sound) (hfrees : FreesFile v name) :
    ∃ n r w, fat32Remove (v.cut n) name = .done (r, w) ∧ w.image.Dangling := by
  obtain ⟨p, n, u, w, hfile, hstart, hsearch, hfree, hdead, hdangling⟩ := freesFile_cut h hfrees
  have hquiet := markDeleted_inert hdead (v.lookAt p).lba (v.lookAt p).offset
  refine ⟨n, code (markDeleted w (v.lookAt p).lba (v.lookAt p).offset).1, _, ?_,
    hquiet.image ▸ hdangling⟩
  have hlook : (v.lookAt p).entry = v.image.entry p := rfl
  rw [fat32Remove, if_pos (h.cut n).trusts.mounted]
  simp only [hsearch, Outcome.done_bind, hlook, hfile, if_pos hstart, hfree]
  rfl

theorem fat32Rmdir_dangling (h : v.Sound) (hfrees : (Op.rmdir name).Frees v) :
    ∃ n r w, fat32Rmdir (v.cut n) name = .done (r, w) ∧ w.image.Dangling := by
  obtain ⟨hdots, p, old, hp, hdir, hchain, hall⟩ := hfrees
  have hdangling := h.dangling_of_cleared hp hchain
  have hends : v.image.Ended old := by
    obtain ⟨l, hl, hp, hlive, hname⟩ := hp
    exact h.wf.ends _ _ (.sub h.cwd hl hp hlive (not_dot_of_shortName hname) hdir) hchain
  have hstart := (hchain.range _ hchain.start_mem).1
  obtain ⟨v₁, hq₁, hv₁, hsearch⟩ := search_cut h hp
  obtain ⟨v₂, hq₂, hv₂, hpolls, hempty⟩ := dirIsEmpty_cut (s := (v.image.entry p).start) (l := old)
    hv₁ (by rwa [hq₁.image]) (by rwa [hq₁.image]) (by rwa [hq₁.image])
  have himage₂ : v₂.image = v.image := hq₂.image.trans hq₁.image
  obtain ⟨n, w, hn, hfree, -, hdead, himage⟩ := freeChain_cut (s := (v.image.entry p).start)
    (l := old) hv₂ (by rwa [himage₂])
  have hquiet := markDeleted_inert hdead (v.lookAt p).lba (v.lookAt p).offset
  rw [himage₂] at himage
  rw [← himage, ← hquiet.image] at hdangling
  refine ⟨n, code (markDeleted w (v.lookAt p).lba (v.lookAt p).offset).1, _, ?_, hdangling⟩
  have hlook : (v.lookAt p).entry = v.image.entry p := rfl
  rw [fat32Rmdir, if_pos (h.cut n).trusts.mounted, if_neg hdots]
  simp only [hsearch n (hpolls.trans hn), Outcome.done_bind, hlook, hdir, not_true, if_false,
    if_neg (not_lt.mpr hstart), hempty n hn, hfree]
  rfl

/-- What is left of `fat32_write_file` when the power has gone off. -/
theorem writeFile_inert {look : DirLookup} {data : Bytes} {size : ℕ} {v₁ : Vol}
    (hmounted : v.mounted = true)
    (htarget : writeTarget v (toShortName name) = .done (some look, v₁)) (hdead : v₁.Dead)
    (hrun : fat32WriteFile v name data size = .done (r, w)) : w.image = v₁.image := by
  rw [fat32WriteFile, if_pos hmounted, htarget, Outcome.done_bind] at hrun
  obtain ⟨⟨chain, v₂⟩, hloop, hrun⟩ := Outcome.bind_eq_done_iff.mp hrun
  have hacts : Acts True (Bounds.all v₁.geo) v₁ v₂ :=
    writeClusters_acts trivial rfl trivial (Or.inl rfl)
      (writeFollows_of_forall (fun _ ↦ trivial) _ _ _ _ _) hloop
  have hlater := Acts.later hacts
  have himage := Vol.image_congr hlater.geo (Acts.inert hacts hdead)
  cases chain with
  | none =>
      cases hrun
      exact himage
  | some first =>
      have hquiet := writeDirent_inert (hdead.later hlater) look.lba look.offset
        ((look.entry.setCluster first).setSize size)
      cases hrun
      exact hquiet.image.trans himage

theorem fat32WriteFile_dangling (h : v.Sound) (hnul : 0 ∉ name) (data : Bytes) {size : ℕ}
    (hsize : size < 2 ^ 32) (hfrees : FreesFile v name) :
    ∃ n r w, fat32WriteFile (v.cut n) name data size = .done (r, w) ∧ w.image.Dangling := by
  obtain ⟨p, n, u, w, hfile, hstart, hsearch, hfree, hdead, hdangling⟩ := freesFile_cut h hfrees
  have htarget : writeTarget (v.cut n) (toShortName name) = .done
      (some { v.lookAt p with entry := ((v.image.entry p).setCluster 0).setSize 0 }, w) := by
    have hlook : (v.lookAt p).entry = v.image.entry p := rfl
    rw [writeTarget]
    simp only [hsearch, Outcome.done_bind, hlook, hfile, if_pos hstart, hfree]
    rfl
  obtain ⟨r, w', hrun, -⟩ := fat32WriteFile_cut h hnul data hsize n
  refine ⟨n, r, w', hrun, ?_⟩
  rw [writeFile_inert (h.cut n).trusts.mounted htarget hdead hrun]
  exact hdangling

theorem Op.run_dangling (h : v.Sound) (hnul : 0 ∉ op.name) (hsize : op.size < 2 ^ 32)
    (hfrees : op.Frees v) : ∃ n r w, op.run (v.cut n) = .done (r, w) ∧ w.image.Dangling := by
  cases op with
  | create name => exact hfrees.elim
  | mkdir name => exact hfrees.elim
  | writeFile name data size => exact fat32WriteFile_dangling h hnul data hsize hfrees
  | remove name => exact fat32Remove_dangling h hfrees
  | rmdir name => exact fat32Rmdir_dangling h hfrees

/-- Wherever the power goes off, the call ends, and no entry is left with a free cluster on its
chain, just when the call does not take away a chain that an entry leads to. -/
theorem stopped_anywhere_iff (h : v.Sound) (op : Op) (hnul : 0 ∉ op.name)
    (hsize : op.size < 2 ^ 32) :
    (∀ n, ∃ r w, op.run (v.cut n) = .done (r, w)) ∧
      ((∀ n r w, op.run (v.cut n) = .done (r, w) → ¬w.image.Dangling) ↔ ¬op.Frees v) := by
  refine ⟨fun n ↦ ?_, fun hsafe hfrees ↦ ?_, fun hnot n r w hrun ↦ ?_⟩
  · obtain ⟨r, w, hrun, -⟩ := Op.run_cut h hnul hsize n
    exact ⟨r, w, hrun⟩
  · obtain ⟨n, r, w, hrun, hdangling⟩ := Op.run_dangling h hnul hsize hfrees
    exact hsafe n r w hrun hdangling
  · obtain ⟨r', w', hrun', hintact⟩ := Op.run_cut h hnul hsize n
    rw [hrun] at hrun'
    cases hrun'
    exact (hintact hnot).not_dangling

theorem stopped_anywhere_iff_full : (∀ n, ∃ r w,
    (Op.create [0x42]).run (fullVol.cut n) = .done (r, w)) ∧
      ((∀ n r w, (Op.create [0x42]).run (fullVol.cut n) = .done (r, w) → ¬w.image.Dangling) ↔
        ¬(Op.create [0x42]).Frees fullVol) :=
  stopped_anywhere_iff fullVol_sound (.create [0x42]) (by decide) (by decide)

/-- The power goes off at the fifth poll of `fat32_remove`: the link of cluster 3 is cleared, and
the entry of `A` still names it. -/
theorem remove_stopped_dangling : fullVol.Sound ∧ ∃ r w,
    (Op.remove [0x41]).run (fullVol.cut 4) = .done (r, w) ∧ w.image.Dangling := by
  refine ⟨fullVol_sound, ?_⟩
  have hrun : ((Op.remove [0x41]).run (fullVol.cut 4)).value?.map (fun x ↦ decide
      (x.2.image.ChainCheck x.2.image.root [2] ∧ (2, 0) ∈ x.2.image.slotsOf [2] ∧
        (x.2.image.entry (2, 0)).Live ∧ ¬(x.2.image.entry (2, 0)).IsDot ∧
        (x.2.image.entry (2, 0)).start = 3 ∧ x.2.image.fat 3 = 0)) = some true := by
    decide +kernel
  obtain ⟨⟨r, w⟩, hvalue, hfacts⟩ := Option.map_eq_some_iff.mp hrun
  obtain ⟨hroot, hmem, hlive, hdot, hstart, hfree⟩ := of_decide_eq_true hfacts
  refine ⟨r, w, Outcome.value?_eq_some.mp hvalue, (2, 0), 3, ?_, ?_, hfree⟩
  · exact .of_mem .root hroot.chain hmem hlive hdot
  · rw [hstart]
    exact .start (by norm_num) (by decide)

end MyOS.Fat32
