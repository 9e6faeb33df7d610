import MyOS.Fat32.Acts

/-!
# The calls and the clusters they follow

A call searches directories, clears chains and fills slots, one after the other.  For each call
of the driver `Follows` says which clusters it arrives at, and `acts` takes the call apart.
-/

namespace MyOS.Fat32

open Bytes

variable {g : Geometry} {W : Prop} {B : Bounds g} {u v v' w : Vol}

/-! ## Calls -/

section Calls

variable {C : ℕ → Prop} {target name path tok : List UInt8} {r : ℤ} {start : ℕ}

def SearchFollows (C : ℕ → Prop) (v : Vol) (start : ℕ) (target : List UInt8) : Prop :=
  Follows C (scanBody (searchVisit target) none) walkFuel start v

def SlotFollows (C : ℕ → Prop) (v : Vol) (start : ℕ) : Prop :=
  Follows C (scanBody freeVisit none) walkFuel start v

def EmptyFollows (C : ℕ → Prop) (v : Vol) (start : ℕ) : Prop :=
  Follows C (scanBody emptyVisit false) walkFuel start v

theorem searchDir_acts {found : Option DirLookup} (hgeo : v.geo = g)
    (hfollows : SearchFollows B.cluster v start target)
    (hrun : searchDir v start target = .done (found, v')) :
    Acts W B v v' ∧ ∀ look ∈ found, B.Sector look.lba := by
  refine ⟨scanLoop_acts hfollows hrun, ?_⟩
  refine scanLoop_result (P := fun r ↦ ∀ look ∈ r, B.Sector look.lba) hgeo nofun nofun
    (fun look r hlook hr ↦ ?_) hfollows hrun
  rcases searchVisit_eq_some hr with ⟨rfl, -⟩ | ⟨rfl, -⟩
  · nofun
  · rintro _ ⟨⟩
    exact hlook

theorem findFreeDirentIn_acts {slot : Option DirLookup} (hgeo : v.geo = g)
    (hfollows : SlotFollows B.cluster v start)
    (hrun : findFreeDirentIn v start = .done (slot, v')) :
    Acts W B v v' ∧ ∀ look ∈ slot, B.Sector look.lba := by
  refine ⟨scanLoop_acts hfollows hrun, ?_⟩
  refine scanLoop_result (P := fun r ↦ ∀ look ∈ r, B.Sector look.lba) hgeo nofun nofun
    (fun look r hlook hr ↦ ?_) hfollows hrun
  rw [freeVisit] at hr
  split_ifs at hr
  obtain rfl := Option.some.inj hr
  rintro _ ⟨⟩
  exact hlook

theorem dirIsEmpty_acts {empty : Bool} (hfollows : EmptyFollows B.cluster v start)
    (hrun : dirIsEmpty v start = .done (empty, v')) : Acts W B v v' :=
  scanLoop_acts hfollows hrun

/-- The search for a name, and for a slot if it is not there. -/
def NewFollows (C : ℕ → Prop) (v : Vol) (target : List UInt8) : Prop :=
  SearchFollows C v v.cwdCluster target ∧
    ∀ v₁, searchDir v v.cwdCluster target = .done (none, v₁) → SlotFollows C v₁ v₁.cwdCluster

/-- The search for a file, and its chain. -/
def DropFollows (C : ℕ → Prop) (v : Vol) (target : List UInt8) : Prop :=
  ∀ look v₁, searchDir v v.cwdCluster target = .done (some look, v₁) →
    look.entry.isDirectory = false → 2 ≤ look.entry.start → FreeFollows C v₁ look.entry.start

/-- The chain that `fat32_mkdir` clears if it fails. -/
def MakeFollows (C : ℕ → Prop) (v : Vol) (look : DirLookup) (target : List UInt8) : Prop :=
  ∀ c v₁ ok v₂, allocCluster v = (c, v₁) → c ≠ 0 →
    v₁.ataWrite (clusterToLba v₁.geo c) v₁.geo.sectorsPerCluster (newDirectory c
      (if v₁.cwdCluster = v₁.geo.rootCluster then 0 else v₁.cwdCluster)) = (ok, v₂) →
    (ok = false → FreeFollows C v₂ c) ∧ ∀ v₃, ok = true →
      writeDirent v₂ look.lba look.offset (newDirent target fatAttrDirectory c 0) = (false, v₃) →
      FreeFollows C v₃ c

/-- The clusters that a call arrives at are in `C`. -/
def Op.Follows (C : ℕ → Prop) : Op → Vol → Prop
  | create name, v => NewFollows C v (toShortName name)
  | writeFile name data size, v =>
      NewFollows C v (toShortName name) ∧ DropFollows C v (toShortName name) ∧
        ∀ look v₁, writeTarget v (toShortName name) = .done (some look, v₁) →
          WriteFollows C data size walkFuel 0 0 0 v₁
  | remove name, v =>
      SearchFollows C v v.cwdCluster (toShortName name) ∧ DropFollows C v (toShortName name)
  | mkdir name, v =>
      NewFollows C v (toShortName name) ∧
        ∀ v₁ look v₂, searchDir v v.cwdCluster (toShortName name) = .done (none, v₁) →
          findFreeDirentIn v₁ v₁.cwdCluster = .done (some look, v₂) →
          MakeFollows C v₂ look (toShortName name)
  | rmdir name, v =>
      SearchFollows C v v.cwdCluster (toShortName name) ∧
        ∀ look v₁, searchDir v v.cwdCluster (toShortName name) = .done (some look, v₁) →
          look.entry.isDirectory = true → 2 ≤ look.entry.start →
          EmptyFollows C v₁ look.entry.start ∧
            ∀ v₂, dirIsEmpty v₁ look.entry.start = .done (true, v₂) →
              FreeFollows C v₂ look.entry.start

theorem NewFollows.acts {slot : Option DirLookup} {v₁ v₂ : Vol}
    (h : NewFollows B.cluster v target) (hgeo : v.geo = g)
    (hsearch : searchDir v v.cwdCluster target = .done (none, v₁))
    (hslot : findFreeDirentIn v₁ v₁.cwdCluster = .done (slot, v₂)) :
    Acts W B v v₂ ∧ ∀ look ∈ slot, B.Sector look.lba := by
  have hacts₁ : Acts W B v v₁ := (searchDir_acts hgeo h.1 hsearch).1
  obtain ⟨hacts₂, hsector⟩ := findFreeDirentIn_acts (W := W) (hacts₁.later.geo.trans hgeo)
    (h.2 v₁ hsearch) hslot
  exact ⟨hacts₁.trans hacts₂, hsector⟩

theorem fat32Create_acts (hW : W) (hgeo : v.geo = g)
    (hfollows : (Op.create name).Follows B.cluster v)
    (hrun : fat32Create v name = .done (r, v')) : Acts W B v v' := by
  have hfollows : NewFollows B.cluster v (toShortName name) := hfollows
  rw [fat32Create] at hrun
  split_ifs at hrun
  · obtain ⟨⟨found, v₁⟩, hsearch, hrun⟩ := Outcome.bind_eq_done_iff.mp hrun
    cases found with
    | some look =>
        cases hrun
        exact (searchDir_acts hgeo hfollows.1 hsearch).1
    | none =>
        obtain ⟨⟨slot, v₂⟩, hslot, hrun⟩ := Outcome.bind_eq_done_iff.mp hrun
        obtain ⟨hacts, hsector⟩ := hfollows.acts (W := W) hgeo hsearch hslot
        cases slot with
        | none =>
            cases hrun
            exact hacts
        | some look =>
            cases hrun
            exact hacts.trans (writeDirent_acts (hsector look rfl) hW v₂ _ _)
  · cases hrun
    exact .refl

/-- A chain is cleared if there is one. -/
theorem freeIf_acts {α : Type} {rest : Vol → Outcome α} {a : α} (hW : W)
    (hfollows : 2 ≤ start → FreeFollows B.cluster v start)
    (hrun : (if 2 ≤ start then freeChain v start >>= rest else .done v >>= rest) = .done a) :
    ∃ v₁, Acts W B v v₁ ∧ rest v₁ = .done a := by
  split_ifs at hrun with hstart
  · obtain ⟨v₁, hfree, hrest⟩ := Outcome.bind_eq_done_iff.mp hrun
    exact ⟨v₁, freeChain_acts hW (hfollows hstart) hfree, hrest⟩
  · exact ⟨v, .refl, hrun⟩

theorem fat32Remove_acts (hW : W) (hgeo : v.geo = g)
    (hfollows : (Op.remove name).Follows B.cluster v)
    (hrun : fat32Remove v name = .done (r, v')) : Acts W B v v' := by
  obtain ⟨hsearchF, hdropF⟩ := hfollows
  rw [fat32Remove] at hrun
  split_ifs at hrun
  · obtain ⟨⟨found, v₁⟩, hsearch, hrun⟩ := Outcome.bind_eq_done_iff.mp hrun
    obtain ⟨hacts₁, hsector⟩ := searchDir_acts (W := W) hgeo hsearchF hsearch
    cases found with
    | none =>
        cases hrun
        exact hacts₁
    | some look =>
        dsimp only at hrun
        by_cases hdir : look.entry.isDirectory = true
        · rw [if_pos hdir] at hrun
          cases hrun
          exact hacts₁
        · rw [if_neg hdir] at hrun
          obtain ⟨v₂, hacts₂, hrun⟩ := freeIf_acts hW
            (hdropF look v₁ hsearch (Bool.eq_false_of_not_eq_true hdir)) hrun
          cases hrun
          exact (hacts₁.trans hacts₂).trans (markDeleted_acts (hsector look rfl) hW v₂ _)
  · cases hrun
    exact .refl

theorem writeTarget_acts {slot : Option DirLookup} (hW : W) (hgeo : v.geo = g)
    (hnewF : NewFollows B.cluster v target) (hdropF : DropFollows B.cluster v target)
    (hrun : writeTarget v target = .done (slot, v')) :
    Acts W B v v' ∧ ∀ look ∈ slot, B.Sector look.lba := by
  rw [writeTarget] at hrun
  obtain ⟨⟨found, v₁⟩, hsearch, hrun⟩ := Outcome.bind_eq_done_iff.mp hrun
  obtain ⟨hacts₁, hsector⟩ := searchDir_acts (W := W) hgeo hnewF.1 hsearch
  cases found with
  | none =>
      obtain ⟨⟨free, v₂⟩, hslot, hrun⟩ := Outcome.bind_eq_done_iff.mp hrun
      obtain ⟨hacts₂, hsector₂⟩ := hnewF.acts (W := W) hgeo hsearch hslot
      cases free with
      | none =>
          cases hrun
          exact ⟨hacts₂, by simp⟩
      | some look =>
          cases hrun
          refine ⟨hacts₂, ?_⟩
          rintro _ ⟨⟩
          exact hsector₂ look rfl
  | some look =>
      dsimp only at hrun
      by_cases hdir : look.entry.isDirectory = true
      · rw [if_pos hdir] at hrun
        cases hrun
        exact ⟨hacts₁, by simp⟩
      · rw [if_neg hdir] at hrun
        obtain ⟨v₂, hacts₂, hrun⟩ := freeIf_acts hW
          (hdropF look v₁ hsearch (Bool.eq_false_of_not_eq_true hdir)) hrun
        cases hrun
        refine ⟨hacts₁.trans hacts₂, ?_⟩
        rintro _ ⟨⟩
        exact hsector look rfl

theorem fat32WriteFile_acts {data : Bytes} {size : ℕ} (hW : W) (hgeo : v.geo = g)
    (hh : B.hint v.allocHint) (hfollows : (Op.writeFile name data size).Follows B.cluster v)
    (hrun : fat32WriteFile v name data size = .done (r, v')) : Acts W B v v' := by
  obtain ⟨hnewF, hdropF, hwriteF⟩ := hfollows
  rw [fat32WriteFile] at hrun
  split_ifs at hrun
  · obtain ⟨⟨slot, v₁⟩, htarget, hrun⟩ := Outcome.bind_eq_done_iff.mp hrun
    obtain ⟨hacts₁, hsector⟩ := writeTarget_acts hW hgeo hnewF hdropF htarget
    cases slot with
    | none =>
        cases hrun
        exact hacts₁
    | some look =>
        obtain ⟨⟨chain, v₂⟩, hwrite, hrun⟩ := Outcome.bind_eq_done_iff.mp hrun
        have hacts₂ : Acts W B v₁ v₂ := writeClusters_acts hW (hacts₁.later.geo.trans hgeo)
          (hacts₁.hint hh) (Or.inl rfl) (hwriteF look v₁ htarget) hwrite
        cases chain with
        | none =>
            cases hrun
            exact hacts₁.trans hacts₂
        | some first =>
            cases hrun
            exact (hacts₁.trans hacts₂).trans (writeDirent_acts (hsector look rfl) hW v₂ _ _)
  · cases hrun
    exact .refl

theorem linkDirectory_acts {look : DirLookup} {c : ℕ} (hW : W) (hsector : B.Sector look.lba)
    (hfree : ∀ v₁, writeDirent v look.lba look.offset (newDirent target fatAttrDirectory c 0) =
      (false, v₁) → FreeFollows B.cluster v₁ c)
    (hrun : linkDirectory v look target c = .done (r, v')) : Acts W B v v' := by
  rw [linkDirectory] at hrun
  have hacts : Acts W B v (writeDirent v look.lba look.offset
    (newDirent target fatAttrDirectory c 0)).2 := writeDirent_acts hsector hW v _ _
  rcases hres : writeDirent v look.lba look.offset (newDirent target fatAttrDirectory c 0) with
    ⟨_ | _, v₁⟩
  · rw [hres] at hacts hrun
    obtain ⟨v₂, hchain, hrun⟩ := Outcome.bind_eq_done_iff.mp hrun
    cases hrun
    exact hacts.trans (freeChain_acts hW (hfree v₁ hres) hchain)
  · rw [hres] at hacts hrun
    cases hrun
    exact hacts

theorem fat32Mkdir_acts (hW : W) (hgeo : v.geo = g) (hh : B.hint v.allocHint)
    (hfollows : (Op.mkdir name).Follows B.cluster v)
    (hrun : fat32Mkdir v name = .done (r, v')) : Acts W B v v' := by
  obtain ⟨hnewF, hmakeF⟩ := hfollows
  rw [fat32Mkdir] at hrun
  split_ifs at hrun
  · obtain ⟨⟨found, v₁⟩, hsearch, hrun⟩ := Outcome.bind_eq_done_iff.mp hrun
    cases found with
    | some look =>
        cases hrun
        exact (searchDir_acts hgeo hnewF.1 hsearch).1
    | none =>
        obtain ⟨⟨slot, v₂⟩, hslot, hrun⟩ := Outcome.bind_eq_done_iff.mp hrun
        obtain ⟨hacts₂, hsector⟩ := hnewF.acts (W := W) hgeo hsearch hslot
        cases slot with
        | none =>
            cases hrun
            exact hacts₂
        | some look =>
            have hmake := hmakeF v₁ look v₂ hsearch hslot
            obtain ⟨hacts₃, hc⟩ := allocCluster_acts hW (hacts₂.later.geo.trans hgeo)
              (hacts₂.hint hh)
            rcases halloc : allocCluster v₂ with ⟨c, v₃⟩
            rw [halloc] at hacts₃ hc
            have hacts₃ : Acts W B v v₃ := hacts₂.trans hacts₃
            simp only [halloc] at hrun
            by_cases hzero : c = 0
            · rw [if_pos hzero] at hrun
              cases hrun
              exact hacts₃
            rw [if_neg hzero] at hrun
            have hwrite := writeCluster_act hW (hacts₃.later.geo.trans hgeo)
              (hc.resolve_left hzero) (newDirectory c
                (if v₃.cwdCluster = v₃.geo.rootCluster then 0 else v₃.cwdCluster))
            rcases hres : v₃.ataWrite (clusterToLba v₃.geo c) v₃.geo.sectorsPerCluster
              (newDirectory c (if v₃.cwdCluster = v₃.geo.rootCluster then 0 else v₃.cwdCluster))
              with ⟨_ | _, v₄⟩
            · rw [hres] at hwrite hrun
              obtain ⟨v₅, hfree, hrun⟩ := Outcome.bind_eq_done_iff.mp hrun
              cases hrun
              have hfreeF := (hmake c v₃ false v₄ halloc hzero hres).1 rfl
              exact (hacts₃.tail hwrite).trans (freeChain_acts hW hfreeF hfree)
            · rw [hres] at hwrite hrun
              have hfreeF := (hmake c v₃ true v₄ halloc hzero hres).2
              exact (hacts₃.tail hwrite).trans (linkDirectory_acts hW (hsector look rfl)
                (fun v₅ hdirent ↦ hfreeF v₅ rfl hdirent) hrun)
  · cases hrun
    exact .refl

theorem fat32Rmdir_acts (hW : W) (hgeo : v.geo = g)
    (hfollows : (Op.rmdir name).Follows B.cluster v)
    (hrun : fat32Rmdir v name = .done (r, v')) : Acts W B v v' := by
  obtain ⟨hsearchF, hemptyF⟩ := hfollows
  rw [fat32Rmdir] at hrun
  by_cases hmounted : v.mounted = true
  · rw [if_pos hmounted] at hrun
    by_cases hdots : name = [chDot] ∨ name = [chDot, chDot]
    · rw [if_pos hdots] at hrun
      cases hrun
      exact .refl
    rw [if_neg hdots] at hrun
    obtain ⟨⟨found, v₁⟩, hsearch, hrun⟩ := Outcome.bind_eq_done_iff.mp hrun
    obtain ⟨hacts₁, hsector⟩ := searchDir_acts (W := W) hgeo hsearchF hsearch
    cases found with
    | none =>
        cases hrun
        exact hacts₁
    | some look =>
        dsimp only at hrun
        by_cases hdir : look.entry.isDirectory = true
        · rw [if_neg (not_not_intro hdir)] at hrun
          by_cases hstart : look.entry.start < 2
          · rw [if_pos hstart] at hrun
            cases hrun
            exact hacts₁
          rw [if_neg hstart] at hrun
          obtain ⟨hscanF, hfreeF⟩ := hemptyF look v₁ hsearch hdir (Nat.not_lt.mp hstart)
          obtain ⟨⟨empty, v₂⟩, hempty, hrun⟩ := Outcome.bind_eq_done_iff.mp hrun
          have hacts₂ : Acts W B v v₂ := hacts₁.trans (dirIsEmpty_acts hscanF hempty)
          cases empty with
          | false =>
              cases hrun
              exact hacts₂
          | true =>
              obtain ⟨v₃, hfree, hrun⟩ := Outcome.bind_eq_done_iff.mp hrun
              cases hrun
              exact (hacts₂.trans (freeChain_acts hW (hfreeF v₂ hempty) hfree)).trans
                (markDeleted_acts (hsector look rfl) hW v₃ _)
        · rw [if_pos hdir] at hrun
          cases hrun
          exact hacts₁
  · rw [if_neg hmounted] at hrun
    cases hrun
    exact .refl

theorem Op.acts {op : Op} (hW : W) (hgeo : v.geo = g) (hh : B.hint v.allocHint)
    (hfollows : op.Follows B.cluster v) (hrun : op.run v = .done (r, v')) : Acts W B v v' := by
  cases op with
  | create name => exact fat32Create_acts hW hgeo hfollows hrun
  | writeFile name data size => exact fat32WriteFile_acts hW hgeo hh hfollows hrun
  | remove name => exact fat32Remove_acts hW hgeo hfollows hrun
  | mkdir name => exact fat32Mkdir_acts hW hgeo hh hfollows hrun
  | rmdir name => exact fat32Rmdir_acts hW hgeo hfollows hrun

/-- The name that `fat32_chdir` searches for, if it searches at all. -/
def chdirTarget (v : Vol) (name : List UInt8) : Option (List UInt8) :=
  if name = [chSlash] ∨ name = [chDot] then none
  else if name = [chDot, chDot] then
    if v.cwdCluster = v.geo.rootCluster then none else some dotdotName
  else some (toShortName name)

def ChdirFollows (C : ℕ → Prop) (v : Vol) (name : List UInt8) : Prop :=
  ∀ target ∈ chdirTarget v name, SearchFollows C v v.cwdCluster target

/-- `fat32_chdir` searches for a name and moves the working directory. -/
theorem fat32Chdir_acts (hgeo : v.geo = g) (hfollows : ChdirFollows B.cluster v name)
    (hrun : fat32Chdir v name = .done (r, v')) : Acts W B v v' := by
  rw [ChdirFollows, chdirTarget] at hfollows
  rw [fat32Chdir] at hrun
  by_cases hmounted : v.mounted = true
  · rw [if_neg (not_not_intro hmounted)] at hrun
    by_cases hslash : name = [chSlash]
    · rw [if_pos hslash] at hrun
      cases hrun
      exact .single (.cwd _)
    rw [if_neg hslash] at hrun
    by_cases hdot : name = [chDot]
    · rw [if_pos hdot] at hrun
      cases hrun
      exact .refl
    rw [if_neg hdot] at hrun
    rw [if_neg (not_or.mpr ⟨hslash, hdot⟩)] at hfollows
    by_cases hdots : name = [chDot, chDot]
    · rw [if_pos hdots] at hrun hfollows
      by_cases hroot : v.cwdCluster = v.geo.rootCluster
      · rw [if_pos hroot] at hrun
        cases hrun
        exact .refl
      rw [if_neg hroot] at hrun hfollows
      obtain ⟨⟨found, v₁⟩, hsearch, hrun⟩ := Outcome.bind_eq_done_iff.mp hrun
      have hacts : Acts W B v v₁ := (searchDir_acts hgeo (hfollows _ rfl) hsearch).1
      cases found with
      | none =>
          cases hrun
          exact hacts
      | some look =>
          cases hrun
          exact hacts.tail (.cwd _)
    · rw [if_neg hdots] at hrun hfollows
      obtain ⟨⟨found, v₁⟩, hsearch, hrun⟩ := Outcome.bind_eq_done_iff.mp hrun
      have hacts : Acts W B v v₁ := (searchDir_acts hgeo (hfollows _ rfl) hsearch).1
      cases found with
      | none =>
          cases hrun
          exact hacts
      | some look =>
          dsimp only at hrun
          by_cases hdir : look.entry.isDirectory = true
          · rw [if_neg (not_not_intro hdir)] at hrun
            cases hrun
            exact hacts.tail (.cwd _)
          · rw [if_pos hdir] at hrun
            cases hrun
            exact hacts
  · rw [if_pos hmounted] at hrun
    cases hrun
    exact .refl

def TokensFollow (C : ℕ → Prop) : List UInt8 → List UInt8 → Vol → Prop
  | [], tok, v => tok ≠ [] → ChdirFollows C v tok
  | b :: path, tok, v =>
      if b = chSlash then
        if tok = [] then TokensFollow C path [] v
        else ChdirFollows C v tok ∧
          ∀ r v₁, fat32Chdir v tok = .done (r, v₁) → ¬r < 0 → TokensFollow C path [] v₁
      else TokensFollow C path (if tok.length < 15 then tok ++ [b] else tok) v

theorem chdirTokens_acts (hgeo : v.geo = g) (hfollows : TokensFollow B.cluster path tok v)
    (hrun : chdirTokens path tok v = .done (r, v')) : Acts W B v v' := by
  induction path generalizing tok v with
  | nil =>
      rw [chdirTokens] at hrun
      by_cases hempty : tok = []
      · rw [if_pos hempty] at hrun
        cases hrun
        exact .refl
      · rw [if_neg hempty] at hrun
        exact fat32Chdir_acts hgeo (hfollows hempty) hrun
  | cons b path ih =>
      rw [chdirTokens] at hrun
      rw [TokensFollow] at hfollows
      by_cases hslash : b = chSlash
      · rw [if_pos hslash] at hrun hfollows
        by_cases hempty : tok = []
        · rw [if_pos hempty] at hrun hfollows
          exact ih hgeo hfollows hrun
        · rw [if_neg hempty] at hrun hfollows
          obtain ⟨⟨r₁, v₁⟩, hchdir, hrun⟩ := Outcome.bind_eq_done_iff.mp hrun
          have hacts : Acts W B v v₁ := fat32Chdir_acts hgeo hfollows.1 hchdir
          dsimp only at hrun
          by_cases hfail : r₁ < 0
          · rw [if_pos hfail] at hrun
            cases hrun
            exact hacts
          · rw [if_neg hfail] at hrun
            exact hacts.trans (ih (hacts.later.geo.trans hgeo)
              (hfollows.2 r₁ v₁ hchdir hfail) hrun)
      · rw [if_neg hslash] at hrun hfollows
        exact ih hgeo hfollows hrun

/-- Where `fat32_chdir_path` starts, and the parts that it walks. -/
def PathFollows (C : ℕ → Prop) (v : Vol) : List UInt8 → Prop
  | [] => TokensFollow C [] [] v
  | b :: path =>
      if b = chSlash then TokensFollow C path [] { v with cwdCluster := v.geo.rootCluster }
      else TokensFollow C (b :: path) [] v

theorem fat32ChdirPath_acts (hgeo : v.geo = g) (hfollows : PathFollows B.cluster v path)
    (hrun : fat32ChdirPath v path = .done (r, v')) : Acts W B v v' := by
  unfold fat32ChdirPath at hrun
  by_cases hmounted : v.mounted = true
  · rw [if_neg (not_not_intro hmounted)] at hrun
    cases path with
    | nil => exact chdirTokens_acts hgeo hfollows hrun
    | cons b path =>
        dsimp only at hrun
        rw [PathFollows] at hfollows
        by_cases hslash : b = chSlash
        · rw [if_pos hslash] at hrun hfollows
          refine .head (.cwd v.geo.rootCluster) (chdirTokens_acts ?_ hfollows hrun)
          exact hgeo
        · rw [if_neg hslash] at hrun hfollows
          exact chdirTokens_acts hgeo hfollows hrun
  · rw [if_pos hmounted] at hrun
    cases hrun
    exact .refl

end Calls

/-! ## Requests -/

/-- A call of the driver from outside. -/
inductive Request : Type 1 where
  | change (op : Op)
  | chdir (name : List UInt8)
  | chdirPath (path : List UInt8)
  | setCwdCluster (cluster : ℕ)
  | listdir {σ : Type} (visit : σ → Dirent → σ) (startCluster : ℕ) (ctx : σ)
  | find (name : List UInt8)
  | findInRoot (name : List UInt8)
  | readFile (e : Dirent) (mem : Bytes) (dst max : ℕ)

namespace Request

/-- The volume after the call. -/
def run : Request → Vol → Outcome Vol
  | change op, v => op.run v >>= fun x ↦ .done x.2
  | chdir name, v => fat32Chdir v name >>= fun x ↦ .done x.2
  | chdirPath path, v => fat32ChdirPath v path >>= fun x ↦ .done x.2
  | setCwdCluster c, v => .done (fat32SetCwdCluster v c)
  | listdir visit start ctx, v => fat32Listdir visit v start ctx >>= fun x ↦ .done x.2
  | find name, v => fat32Find v name >>= fun x ↦ .done x.2
  | findInRoot name, v => fat32FindInRoot v name >>= fun x ↦ .done x.2
  | readFile e mem dst max, v => fat32ReadFile v e mem dst max >>= fun x ↦ .done x.2.2

/-- The call writes no sector. -/
def ReadOnly : Request → Prop
  | change _ => False
  | _ => True

/-- The start clusters and the links that the call follows are in `C`. -/
def Follows (C : ℕ → Prop) : Request → Vol → Prop
  | change op, v => op.Follows C v
  | chdir name, v => ChdirFollows C v name
  | chdirPath path, v => PathFollows C v path
  | setCwdCluster _, _ => True
  | listdir _ start _, v => ListFollows C v start
  | find _, v => ListFollows C v v.cwdCluster
  | findInRoot _, v => ListFollows C v v.geo.rootCluster
  | readFile e _ _ max, v => ReadFollows C v e.start (if e.size > max then max else e.size)

/-- Every call is made of acts, and one that only reads of acts that only read. -/
theorem acts {req : Request} (hW : ¬req.ReadOnly → W) (hgeo : v.geo = g)
    (hh : B.hint v.allocHint) (hfollows : req.Follows B.cluster v)
    (hrun : req.run v = .done v') : Acts W B v v' := by
  cases req with
  | change op =>
      obtain ⟨⟨r, v₁⟩, hcall, hdone⟩ := Outcome.bind_eq_done_iff.mp hrun
      cases hdone
      exact op.acts (hW not_false) hgeo hh hfollows hcall
  | chdir name =>
      obtain ⟨⟨r, v₁⟩, hcall, hdone⟩ := Outcome.bind_eq_done_iff.mp hrun
      cases hdone
      exact fat32Chdir_acts hgeo hfollows hcall
  | chdirPath path =>
      obtain ⟨⟨r, v₁⟩, hcall, hdone⟩ := Outcome.bind_eq_done_iff.mp hrun
      cases hdone
      exact fat32ChdirPath_acts hgeo hfollows hcall
  | setCwdCluster c =>
      cases hrun
      rw [fat32SetCwdCluster]
      by_cases hmounted : v.mounted = true
      · rw [if_neg (not_not_intro hmounted)]
        exact .single (.cwd _)
      · rw [if_pos hmounted]
  | listdir visit start ctx =>
      obtain ⟨⟨ctx', v₁⟩, hcall, hdone⟩ := Outcome.bind_eq_done_iff.mp hrun
      cases hdone
      exact fat32Listdir_acts hfollows hcall
  | find name =>
      obtain ⟨⟨found, v₁⟩, hcall, hdone⟩ := Outcome.bind_eq_done_iff.mp hrun
      cases hdone
      rw [fat32Find] at hcall
      split_ifs at hcall
      · exact fat32Listdir_acts hfollows hcall
      · cases hcall
        exact .refl
  | findInRoot name =>
      obtain ⟨⟨found, v₁⟩, hcall, hdone⟩ := Outcome.bind_eq_done_iff.mp hrun
      cases hdone
      rw [fat32FindInRoot] at hcall
      split_ifs at hcall
      · exact fat32Listdir_acts hfollows hcall
      · cases hcall
        exact .refl
  | readFile e mem dst max =>
      obtain ⟨⟨r, mem', v₁⟩, hcall, hdone⟩ := Outcome.bind_eq_done_iff.mp hrun
      cases hdone
      rw [fat32ReadFile] at hcall
      by_cases hmounted : v.mounted = true
      · rw [if_pos hmounted] at hcall
        exact readLoop_acts hfollows hcall
      · rw [if_neg hmounted] at hcall
        cases hcall
        exact .refl

/-! Without bounds on the clusters nothing has to be said about what a call follows. -/

theorem tokensFollow_all (path tok : List UInt8) (v : Vol) :
    TokensFollow (fun _ ↦ True) path tok v := by
  have hchdir : ∀ v name, ChdirFollows (fun _ ↦ True) v name :=
    fun _ _ _ _ ↦ follows_of_forall (fun _ ↦ trivial) _ _ _
  induction path generalizing tok v with
  | nil => exact fun _ ↦ hchdir v tok
  | cons b path ih =>
      rw [TokensFollow]
      split_ifs
      · exact ih [] v
      · exact ⟨hchdir v tok, fun _ v₁ _ _ ↦ ih [] v₁⟩
      · exact ih _ v
      · exact ih _ v

theorem opFollows_all (op : Op) (v : Vol) : op.Follows (fun _ ↦ True) v := by
  have hall : ∀ {τ : Type} {body : ℕ → τ → Option (ℕ × τ)} (fuel c : ℕ) (t : τ),
      Fat32.Follows (fun _ ↦ True) body fuel c t := follows_of_forall fun _ ↦ trivial
  cases op with
  | create name => exact ⟨hall _ _ _, fun _ _ ↦ hall _ _ _⟩
  | writeFile name data size =>
      exact ⟨⟨hall _ _ _, fun _ _ ↦ hall _ _ _⟩, fun _ _ _ _ _ ↦ hall _ _ _,
        fun _ _ _ ↦ writeFollows_of_forall (fun _ ↦ trivial) _ _ _ _ _⟩
  | remove name => exact ⟨hall _ _ _, fun _ _ _ _ _ ↦ hall _ _ _⟩
  | mkdir name =>
      exact ⟨⟨hall _ _ _, fun _ _ ↦ hall _ _ _⟩, fun _ _ _ _ _ _ _ _ _ _ _ _ ↦
        ⟨fun _ ↦ hall _ _ _, fun _ _ _ ↦ hall _ _ _⟩⟩
  | rmdir name => exact ⟨hall _ _ _, fun _ _ _ _ _ ↦ ⟨hall _ _ _, fun _ _ ↦ hall _ _ _⟩⟩

theorem follows_all (req : Request) (v : Vol) : req.Follows (fun _ ↦ True) v := by
  have hall : ∀ {τ : Type} {body : ℕ → τ → Option (ℕ × τ)} (fuel c : ℕ) (t : τ),
      Fat32.Follows (fun _ ↦ True) body fuel c t := follows_of_forall fun _ ↦ trivial
  cases req with
  | change op => exact opFollows_all op v
  | chdir name => exact fun _ _ ↦ hall _ _ _
  | chdirPath path =>
      rw [Follows]
      cases path with
      | nil => exact tokensFollow_all [] [] v
      | cons b path =>
          rw [PathFollows]
          split_ifs
          · exact tokensFollow_all path [] _
          · exact tokensFollow_all (b :: path) [] v
  | setCwdCluster c => trivial
  | listdir visit start ctx => exact hall _ _ _
  | find name => exact hall _ _ _
  | findInRoot name => exact hall _ _ _
  | readFile e mem dst max => exact fun _ ↦ hall _ _ _

/-- Every call that returns leaves the geometry and the mount flag, on any volume and drive. -/
theorem later (req : Request) (hrun : req.run v = .done v') : Later v v' :=
  Acts.later (acts (W := True) (B := Bounds.all v.geo) (fun _ ↦ trivial) rfl trivial
    (req.follows_all v) hrun)

end Request

end MyOS.Fat32
