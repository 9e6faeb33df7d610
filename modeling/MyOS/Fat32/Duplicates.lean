import MyOS.Fat32.Cache
import MyOS.Fat32.Failure
import MyOS.Fat32.Polls
import MyOS.Fat32.Unreliable

/-!
# Names that are stored twice

`search_dir` cannot tell a name that is not there from a sector that cannot be read.  A call that
stores a name asks it first, so it may store a name that the directory already has: when the name
is there and a poll fails while it is searched for.  No other call does.  What has to be excluded
besides is an overwriting that is broken off, by a poll that fails or because the room does not
suffice, for it leaves a file on clusters that a later directory may take.  As long as neither
happens, the names of every directory stay unique, whichever other polls fail.
-/

namespace MyOS.Fat32

open Bytes Image

variable {v w : Vol} {op : Op} {r : ℤ}

/-! ## What a call meets -/

/-- The name of the call is that of an entry of the working directory. -/
def Op.Known (op : Op) (v : Vol) : Prop :=
  ∃ p, v.image.Named v.cwdCluster (toShortName op.name) p

/-- A poll fails while the working directory is searched for the name of the call. -/
def Op.SearchFails (op : Op) (v : Vol) : Prop :=
  ∃ found w, searchDir v v.cwdCluster (toShortName op.name) = .done (found, w) ∧ Missed v w

/-- The call is a `fat32_write_file` on a file that has clusters. -/
def Op.Replaces (op : Op) (v : Vol) : Prop :=
  ∃ name data size p, op = .writeFile name data size ∧
    v.image.Named v.cwdCluster (toShortName name) p ∧ (v.image.entry p).isDirectory = false ∧
    2 ≤ (v.image.entry p).start

/-- The call finds a file that has clusters. -/
def Op.Overwrites : Op → Vol → Prop
  | .writeFile name _ _, v => MyOS.Fat32.Overwrites v (toShortName name)
  | _, _ => False

theorem Op.misses_iff (op : Op) (h : v.Steady) :
    Misses v (toShortName op.name) ↔ op.Known v ∧ op.SearchFails v := by
  obtain ⟨l, hl⟩ := h.wf.dir_chain h.cwd
  refine and_congr_right ?_
  rintro ⟨p, l', hl', hp, hlive, hname⟩
  obtain rfl := hl'.unique h.wf.small hl
  obtain ⟨found, w, hsearch, -, -, -, -, hfound⟩ := h.search hl (toShortName op.name)
  constructor
  · rintro ⟨w', hnone⟩
    rw [hsearch] at hnone
    cases hnone
    rcases hfound with ⟨-, habsent | hmissed⟩ | ⟨-, q, -, hsome, -⟩
    · exact absurd hname (habsent p hp hlive)
    · exact ⟨none, _, hsearch, hmissed⟩
    · cases hsome
  · rintro ⟨found', w', hsearch', hmissed⟩
    rw [hsearch] at hsearch'
    cases hsearch'
    rcases hfound with ⟨rfl, -⟩ | ⟨hno, -⟩
    · exact ⟨w, hsearch⟩
    · exact absurd hmissed hno

theorem Op.replaces_of_overwrites (h : v.Steady) (hover : op.Overwrites v) : op.Replaces v := by
  cases op with
  | writeFile name data size =>
      obtain ⟨look, w, hsearch, hfile, hstart⟩ := hover
      obtain ⟨l, hl⟩ := h.wf.dir_chain h.cwd
      obtain ⟨found, w', hsearch', -, -, -, -, hfound⟩ := h.search hl (toShortName name)
      rw [hsearch] at hsearch'
      cases hsearch'
      rcases hfound with ⟨hnone, -⟩ | ⟨-, p, hp, hlook, hlive, hname⟩
      · cases hnone
      · cases hlook
        exact ⟨name, data, size, p, rfl, ⟨l, hl, hp, hlive, hname⟩, hfile, hstart⟩
  | create name => exact hover.elim
  | mkdir name => exact hover.elim
  | remove name => exact hover.elim
  | rmdir name => exact hover.elim

/-- Every call that stores a name returns, on any drive. -/
theorem Op.stored_any (op : Op) (h : v.Steady) (hop : ¬op.Takes) (hname : 0 ∉ op.name)
    (hsize : op.size < 2 ^ 32) :
    ∃ r v', op.run v = .done (r, v') ∧
      Stored v v' (toShortName op.name) (op.Overwrites v) r := by
  cases op with
  | create name => exact fat32Create_any h hname
  | writeFile name data size => exact fat32WriteFile_any h hname data hsize
  | mkdir name => exact fat32Mkdir_any h hname
  | remove name => exact absurd trivial hop
  | rmdir name => exact absurd trivial hop

/-! ## Overwriting without a failure -/

theorem Vol.Steady.onDrive (h : v.Steady) (o : ℕ → Bool) : (v.onDrive o).Steady :=
  ⟨h.wf, h.cwd, h.trusts.mounted, h.trusts.geo, h.trusts.hint, h.trusts.cache⟩

/-- On a drive that never fails the volume is sound. -/
theorem Vol.Steady.sound (h : v.Steady) (hcached : Cached v) :
    (v.onDrive fun _ ↦ true).Sound :=
  ⟨⟨h.trusts.mounted, h.trusts.geo, fun _ ↦ rfl, h.trusts.hint, hcached⟩, h.wf, h.cwd⟩

/-- A file is replaced as on a drive that never fails if no poll of the call fails. -/
theorem Vol.Steady.replaced (h : v.Steady) (hreplaces : op.Replaces v) (hsize : op.size < 2 ^ 32)
    (hrun : op.run v = .done (r, w)) (hcalm : ¬Missed v w) (hcached : Cached v)
    (hroom : ¬op.RunsOut v) : w.Steady := by
  obtain ⟨name, data, size, p, rfl, ⟨l, hl, hp, hlive, hname⟩, -⟩ := hreplaces
  have hsize : size < 2 ^ 32 := hsize
  have hv := h.sound hcached
  have hrun' : fat32WriteFile (v.onDrive fun _ ↦ true) name data size =
      .done (r, w.onDrive fun _ ↦ true) :=
    (fat32WriteFile_alike (fun _ ↦ true) v name data size _ hrun).2 (.of_not_missed hcalm)
  obtain ⟨r', w', hwrite, hready, hkeep, hends⟩ := fat32WriteFile_ends hv hl
    (Or.inr ⟨p, hp, hlive, hname⟩) data hsize
  rw [hrun'] at hwrite
  cases hwrite
  exact (hends.sound hv hl hroom hready hkeep).steady.onDrive w.ata.ready

/-! ## Runs -/

/-- A call that stores a name, or a change of the working directory.  No poll fails while a name
that is there is searched for; a file is replaced without a poll that fails, with an FAT cache
that is up to date and with room for the new contents. -/
inductive StoreStep : Vol → Vol → Prop
  | call {v w : Vol} {r : ℤ} (op : Op) (hop : ¬op.Takes) (hname : 0 ∉ op.name)
      (hsize : op.size < 2 ^ 32) (hrun : op.run v = .done (r, w))
      (hfound : ¬(op.Known v ∧ op.SearchFails v))
      (hwhole : op.Replaces v → ¬Missed v w ∧ Cached v ∧ ¬op.RunsOut v) : StoreStep v w
  | move {v : Vol} {d : ℕ} (hd : v.image.IsDir d) : StoreStep v { v with cwdCluster := d }

theorem Vol.Steady.step (h : v.Steady) (hstep : StoreStep v w) : w.Steady := by
  cases hstep with
  | call op hop hname hsize hrun hfound hwhole =>
      by_cases hover : op.Overwrites v
      · obtain ⟨hcalm, hcached, hroom⟩ := hwhole (op.replaces_of_overwrites h hover)
        exact h.replaced (op.replaces_of_overwrites h hover) hsize hrun hcalm hcached hroom
      · obtain ⟨r', v', hrun', hstored⟩ := op.stored_any h hop hname hsize
        rw [hrun'] at hrun
        cases hrun
        refine hstored.steady ?_ fun hbroken ↦ hover hbroken.1
        rw [op.misses_iff h]
        exact fun hmisses ↦ hfound hmisses.1
  | move hd => exact ⟨h.wf, hd, h.trusts.mounted, h.trusts.geo, h.trusts.hint, h.trusts.cache⟩

theorem Vol.Steady.run (h : v.Steady) (hrun : Relation.ReflTransGen StoreStep v w) :
    w.Steady := by
  induction hrun with
  | refl => exact h
  | tail _ hstep ih => exact ih.step hstep

/-- After such a run the names are unique.  The next call, whatever polls fail, makes one of them
ambiguous exactly if a poll fails while the name, which is there, is searched for and the call
goes on to succeed. -/
theorem names_stay_unique (h : v.Steady) (hrun : Relation.ReflTransGen StoreStep v w) :
    w.image.NamesUnique ∧ ∀ op : Op, ¬op.Takes → 0 ∉ op.name → op.size < 2 ^ 32 →
      ∃ r w', op.run w = .done (r, w') ∧
        (w'.image.NamesUnique ↔ ¬(op.Known w ∧ op.SearchFails w ∧ r = 0)) := by
  have hw := h.run hrun
  refine ⟨hw.wf.names, fun op hop hname hsize ↦ ?_⟩
  obtain ⟨r, w', hrun, hstored⟩ := op.stored_any hw hop hname hsize
  refine ⟨r, w', hrun, ?_⟩
  rw [hstored.unique, op.misses_iff hw, and_assoc]

/-- The polls of a search that ends early enough do not fail. -/
theorem Op.not_searchFails (op : Op) {n m : ℕ} (hready : ∀ k < n, v.ata.ready k = true)
    (hpolls : (searchDir v v.cwdCluster (toShortName op.name)).value?.map
      (fun x ↦ x.2.ata.polls) = some m) (hm : m ≤ n) : ¬op.SearchFails v := by
  rintro ⟨found, w, hsearch, k, -, hk, hfails⟩
  rw [hsearch] at hpolls
  have hpolls : w.ata.polls = m := Option.some.inj hpolls
  rw [hready k (by omega)] at hfails
  cases hfails

theorem fullVol_not_runsOut : ¬(Op.writeFile [0x41] blank 512).RunsOut fullVol := by
  rintro ⟨name, data, size, p, old, hop, hp, -, hold, -, hroom⟩
  cases hop
  have hA : fullVol.image.Named 2 (toShortName [0x41]) (2, 0) :=
    ⟨[2], fullVol_fits.root_chain, by decide +kernel, by decide +kernel, by decide +kernel⟩
  obtain rfl := fullVol_sound.named_unique hp hA
  have hchain := (fullVol_fits.2.2.1 ((2, 0), [3]) (by simp)).entryChain
  obtain rfl := hold.unique fullVol_sound.wf.small hchain
  exact absurd hroom (by decide +kernel)

/-- The file `A` is replaced, and then the sector of the root directory cannot be written for
`B`. -/
theorem names_stay_unique_unwritten : ∃ w₁ w₂,
    (Op.writeFile [0x41] blank 512).run (fullVol.onDrive fun k ↦ k != 13) = .done (0, w₁) ∧
      (Op.create [0x42]).run w₁ = .done (-1, w₂) ∧ w₂.image.NamesUnique ∧
      ∀ op : Op, ¬op.Takes → 0 ∉ op.name → op.size < 2 ^ 32 →
        ∃ r w', op.run w₂ = .done (r, w') ∧
          (w'.image.NamesUnique ↔ ¬(op.Known w₂ ∧ op.SearchFails w₂ ∧ r = 0)) := by
  have hcodes : ((Op.writeFile [0x41] blank 512).run (fullVol.onDrive fun k ↦ k != 13)).value?.map
      (fun x ↦ (x.1, x.2.ata.polls, ((Op.create [0x42]).run x.2).value?.map Prod.fst,
        (searchDir x.2 x.2.cwdCluster (toShortName [0x42])).value?.map (fun y ↦ y.2.ata.polls))) =
      some (0, 10, some (-1), some 11) := by decide +kernel
  obtain ⟨⟨r, w₁⟩, hvalue, hcodes⟩ := Option.map_eq_some_iff.mp hcodes
  have hrun₁ := Outcome.value?_eq_some.mp hvalue
  simp only [Prod.mk.injEq] at hcodes
  obtain ⟨rfl, hpolls, hcreate, hsearch⟩ := hcodes
  obtain ⟨⟨r, w₂⟩, hvalue₂, hr⟩ := Option.map_eq_some_iff.mp hcreate
  obtain rfl : r = -1 := hr
  have hrun₂ := Outcome.value?_eq_some.mp hvalue₂
  have hlater : Later (fullVol.onDrive fun k ↦ k != 13) w₁ :=
    (fat32WriteFile_alike (fun _ ↦ true) _ [0x41] blank 512 _ hrun₁).1
  have hready : ∀ k < 13, (fullVol.onDrive fun k ↦ k != 13).ata.ready k = true := by
    intro k hk
    exact bne_iff_ne.mpr hk.ne
  have hready₁ : ∀ k < 13, w₁.ata.ready k = true := by
    rw [hlater.ready]
    exact hready
  refine ⟨w₁, w₂, hrun₁, hrun₂, names_stay_unique (fullVol_sound.steady.onDrive fun k ↦ k != 13)
    (.tail (.single (.call (.writeFile [0x41] blank 512) id (by decide) (by decide) hrun₁
      (fun hfails ↦ ?_) fun _ ↦ ⟨?_, Or.inl rfl, fullVol_not_runsOut⟩))
      (.call (.create [0x42]) id (by decide) (by decide) hrun₂ (fun hfails ↦ ?_) ?_))⟩
  · exact (Op.writeFile [0x41] blank 512).not_searchFails (m := 1) hready (by decide +kernel)
      (by norm_num) hfails.2
  · rintro ⟨k, -, hk, hfails⟩
    rw [hready k (by omega)] at hfails
    cases hfails
  · exact (Op.create [0x42]).not_searchFails hready₁ hsearch (by norm_num) hfails.2
  · rintro ⟨name, data, size, p, hop, -⟩
    cases hop

/-- A root directory of one cluster with the file `A`. -/
def namedVol : Vol :=
  smallVol 2 [(2, 0x0FFFFFFF)] [((2, 0), newDirent (padTo 11 [0x41]) 0x20 0 0)]

theorem namedVol_fits : namedVol.image.Fits ⟨[2], [((2, 0), [])]⟩ := by decide +kernel

theorem namedVol_steady (ready : ℕ → Bool) : (namedVol.onDrive ready).Steady := by
  have hsound : namedVol.Sound :=
    ⟨smallVol_ready (by norm_num) _ _, namedVol_fits.wellFormed.toIntact, .root⟩
  exact hsound.steady.onDrive ready

/-- One read fails, the one of the sector with the name, and the name is stored again. -/
theorem name_stored_twice : (namedVol.onDrive fun k ↦ k != 0).Steady ∧ ∃ w,
    (Op.create [0x41]).run (namedVol.onDrive fun k ↦ k != 0) = .done (0, w) ∧
      ¬w.image.NamesUnique := by
  refine ⟨namedVol_steady _, ?_⟩
  obtain ⟨r, w, hrun, hstored⟩ := Op.stored_any (.create [0x41])
    (namedVol_steady fun k ↦ k != 0) id (by decide) (by decide)
  have hcode : ((Op.create [0x41]).run (namedVol.onDrive fun k ↦ k != 0)).value?.map Prod.fst =
      some 0 := by decide +kernel
  obtain rfl : r = 0 := by
    rw [hrun] at hcode
    exact Option.some.inj hcode
  refine ⟨w, hrun, fun hunique ↦ hstored.unique.mp hunique ⟨⟨⟨(2, 0), [2], ?_⟩, ?_⟩, rfl⟩⟩
  · exact ⟨namedVol_fits.root_chain, by decide +kernel, by decide +kernel, by decide +kernel⟩
  · have hsearch : (searchDir (namedVol.onDrive fun k ↦ k != 0) 2 (toShortName [0x41])).value?.map
        (fun x ↦ x.1.isNone) = some true := by decide +kernel
    obtain ⟨⟨found, w'⟩, hvalue, hnone⟩ := Option.map_eq_some_iff.mp hsearch
    obtain rfl := Option.isNone_iff_eq_none.mp hnone
    exact ⟨w', Outcome.value?_eq_some.mp hvalue⟩

end MyOS.Fat32
