import MyOS.Fat32.Integrity
import MyOS.Fat32.Names
import MyOS.Fat32.Read

/-!
# Finding what has been written

`fat32_find` formats and compares names, `search_dir` compares short names.  For plain names
the two find the same entry, and what `fat32_write_file` has written is found and read back.
For the other names the write path truncates where the read path does not.
-/

namespace MyOS.Fat32

open Bytes Image

variable {v v' : Vol} {I : Image} {l N : List ℕ} {p q : Pos} {data : Bytes} {size : ℕ}
  {name spelled : List UInt8}

theorem Image.mem_liveIn {ps : List Pos} {e : Dirent} :
    e ∈ I.liveIn ps ↔ ∃ p ∈ ps, (I.entry p).Live ∧ I.entry p = e := by
  simp only [liveIn, List.mem_map, List.mem_filter, decide_eq_true_eq, and_assoc]

/-- A name that matches one live entry only is found there. -/
theorem fat32Find_eq (name : List UInt8) (hv : v.Ready) (hl : v.image.Chain v.cwdCluster l)
    (hends : v.image.Ended l)
    (hp : p ∈ v.image.slotsOf l) (hlive : (v.image.entry p).Live)
    (hmatch : strEqCi (formatShortName (v.image.entry p).name) name = true)
    (honly : ∀ q ∈ v.image.slotsOf l, (v.image.entry q).Live →
      strEqCi (formatShortName (v.image.entry q).name) name = true → q = p) :
    ∃ v', fat32Find v name = .done (some (v.image.entry p), v') ∧ Quiet v v' ∧ v'.Ready := by
  obtain ⟨v', hfind, hquiet, hv'⟩ := fat32Find_spec hv hl hends name
  refine ⟨v', ?_, hquiet, hv'⟩
  rw [hfind]
  cases hres : (v.image.liveIn (v.image.slotsOf l)).find? fun e ↦
      strEqCi (formatShortName e.name) name with
  | none =>
      have hno := List.find?_eq_none.mp hres _ (mem_liveIn.mpr ⟨p, hp, hlive, rfl⟩)
      exact absurd hmatch hno
  | some e =>
      obtain ⟨q, hq, hqlive, rfl⟩ := mem_liveIn.mp (List.mem_of_find?_eq_some hres)
      rw [honly q hq hqlive (by simpa using List.find?_some hres)]

/-! ## Write and read -/

theorem content_get {k c i : ℕ} (hk : N[k]? = some c) (hi : i < 32 * I.slots) :
    I.content N (k * (32 * I.slots) + i) = I.data c i := by
  induction N generalizing k with
  | nil => simp at hk
  | cons x N ih =>
      cases k with
      | zero =>
          obtain rfl : x = c := by simpa using hk
          rw [Nat.zero_mul, Nat.zero_add, content_cons_of_lt _ hi]
      | succ k =>
          have hsplit : (k + 1) * (32 * I.slots) + i =
              32 * I.slots + (k * (32 * I.slots) + i) := by
            rw [Nat.succ_mul]
            omega
          rw [hsplit, content_cons_add]
          exact ih (by simpa using hk)

/-- A filled chain holds the data. -/
theorem Filled.content {J : Image} (h : Filled I J N data size)
    (hfits : size ≤ N.length * (32 * I.slots)) :
    ∀ i < size, J.content N i = data i := by
  intro i hi
  have hpos : 0 < 32 * I.slots := by
    by_contra hzero
    have : 32 * I.slots = 0 := by omega
    rw [this, Nat.mul_zero] at hfits
    omega
  have hsplit : i / (32 * I.slots) * (32 * I.slots) + i % (32 * I.slots) = i :=
    Nat.div_add_mod' i _
  have hmod : i % (32 * I.slots) < 32 * I.slots := Nat.mod_lt i hpos
  have hk : i / (32 * I.slots) < N.length := Nat.div_lt_of_lt_mul (by rw [Nat.mul_comm]; omega)
  obtain ⟨c, hc⟩ : ∃ c, N[i / (32 * I.slots)]? = some c := ⟨_, List.getElem?_eq_getElem hk⟩
  have hget := h.contents _ c hc _ hmod
  rw [hsplit, if_pos hi] at hget
  have hcontent := content_get (I := J) hc (by rwa [h.slots])
  rw [h.slots, hsplit] at hcontent
  rw [hcontent, hget]

theorem content_patch_notMem {n off c : ℕ} {src : Bytes} (hc : c ∉ N) :
    (I.patch c off n src).content N = I.content N := by
  have hagree : Agree {x | x ∈ N} I (I.patch c off n src) := by
    refine ⟨rfl, rfl, rfl, fun _ _ ↦ rfl, fun x hx ↦ ?_⟩
    have hxc : x ≠ c := by
      rintro rfl
      exact hc hx
    exact Function.update_of_ne hxc _ _
  exact hagree.content fun _ hx ↦ hx

theorem toInt_eq {n : ℕ} (h : n < 2 ^ 31) : toInt n = n := if_pos h

theorem Valid83.plain_of_spelled (hname : Valid83 name) (hspelled : strEqCi spelled name = true) :
    Plain spelled := by
  rw [Plain, strEqCi_iff, toShortName_congr hspelled, strEqCi_iff.mp hname.plain,
    strEqCi_iff.mp hspelled]

/-- Where a valid name has been stored in slot `p`, a spelling of it matches no other entry. -/
theorem eq_of_matches_stored {J : Image} {d : ℕ} {removed added : List ℕ}
    (htidy : Tidy I J d l p removed added)
    (hcanon : ∀ p, I.IsEntry p → CanonicalName (I.entry p).name) (hname : Valid83 name)
    (hspelled : strEqCi spelled name = true) (hchain : J.Chain d l)
    (hlive : (J.entry p).Live) (hstored : (J.entry p).name = toShortName spelled) :
    ∀ q ∈ J.slotsOf l, (J.entry q).Live →
      strEqCi (formatShortName (J.entry q).name) spelled = true → q = p := by
  intro q hq hqlive hmatch
  have hdir : J.IsDir d := htidy.isDir_dir
  have hp : p ∈ J.slotsOf l := htidy.slotsOf_eq ▸ htidy.mem
  have hplain := hname.plain_of_spelled hspelled
  by_cases hdot : (J.entry q).IsDot
  · -- a valid name is neither of the dots
    rcases matches_dot hdot hmatch with ⟨-, rfl⟩ | ⟨-, rfl⟩
    · exact absurd hplain not_plain_dot
    · exact absurd (eq_of_dots (strEqCi_iff.mp hspelled) (by decide)) hname.ne_dots
  · by_contra hqp
    have hqentry : J.IsEntry q := .of_mem hdir hchain hq hqlive hdot
    rcases htidy.isEntry_cases hqentry with ⟨-, hqold⟩ | ⟨hsame, -⟩
    · have hkept := (htidy.frame hqold hqp).1
      have hname' := ((hcanon q hqold).matches_iff hplain).mp (by rwa [← hkept])
      rw [← hkept] at hname'
      exact hqp (htidy.intact.names _ l q p hdir hchain hq hp hqlive hlive
        (hname'.trans hstored.symm))
    · exact hqp hsame

/-- What `fat32_write_file` has written is found under any spelling of the name, and read back
byte for byte. -/
theorem write_then_read (h : v.Sound)
    (hcanon : ∀ p, v.image.IsEntry p → CanonicalName (v.image.entry p).name)
    (hname : Valid83 name) (hsize : size < 2 ^ 31)
    (hrun : fat32WriteFile v name data size = .done (0, v'))
    (hspelled : strEqCi spelled name = true) :
    ∃ e w, fat32Find v' spelled = .done (some e, w) ∧ e.size = size ∧
      ∀ mem dst max, ∃ w', fat32ReadFile w e mem dst max =
        .done (((min size max : ℕ) : ℤ), mem.blit dst (min size max) data, w') := by
  obtain ⟨l, hl⟩ := h.wf.dir_chain h.cwd
  have hsize' : size < 2 ^ 32 := by omega
  obtain ⟨r, v'', hrun', hv', hkeep, hres⟩ := fat32WriteFile_spec h hl name data hsize'
  rw [hrun] at hrun'
  cases hrun'
  rcases hres with ⟨hr, -⟩ |
    ⟨p, old, e, -, hsite, ⟨hr, -⟩ | ⟨-, -, N, J, hfill, hfits, -, himage⟩⟩
  · cases hr
  · cases hr
  have hsite := hsite (Or.inl hname.ascii)
  have htidy := (hsite.edits hfill hsize' hfits himage).toTidy
  obtain ⟨hentry, hstored, hlive, -⟩ := hsite.stored himage
  rw [← toShortName_congr hspelled] at hstored
  have hplain := hname.plain_of_spelled hspelled
  have hchain : v'.image.Chain v.cwdCluster l :=
    htidy.chain_keep htidy.dir hl htidy.dir_not_removed
  have hunique := eq_of_matches_stored htidy hcanon hname hspelled hchain hlive hstored
  have hended := htidy.intact.ends _ l htidy.isDir_dir hchain
  have hp : p ∈ v'.image.slotsOf l := htidy.slotsOf_eq ▸ htidy.mem
  rw [← hkeep.cwd] at hchain
  obtain ⟨w, hfind, hquiet, hw⟩ := fat32Find_eq spelled hv' hchain hended hp hlive
    (by rwa [hstored]) hunique
  refine ⟨_, w, hfind, ?_, fun mem dst max ↦ ?_⟩
  · rw [hentry, writtenEntry_size hsize']
  · have hN : w.image.EntryChain p N := by
      rw [hquiet.image]
      exact (htidy.placed hlive).chain
    obtain ⟨w', hread, -⟩ := fat32ReadFile_spec hw hN mem dst max
    rw [hquiet.image, hentry, writtenEntry_size hsize', htidy.slots] at hread
    have hall : min (min size max) (N.length * (32 * v.image.slots)) = min size max := by omega
    rw [hall, toInt_eq (by omega)] at hread
    refine ⟨w', ?_⟩
    rw [hentry, hread]
    have hcontent : ∀ i < min size max, v'.image.content N i = data i := by
      intro i hi
      rw [himage, content_patch_notMem (hsite.dir_disjoint (.filled hfill)).2]
      exact hfill.content hfits i (by omega)
    rw [blit_congr hcontent]

/-- The root holds the empty file `LONGFILE`, and one cluster is free. -/
def longVol : Vol :=
  smallVol 2 [(2, 0x0FFFFFFF)]
    [((2, 0),
      newDirent [0x4C, 0x4F, 0x4E, 0x47, 0x46, 0x49, 0x4C, 0x45, 0x20, 0x20, 0x20] 0x20 0 0)]

theorem longVol_fits : longVol.image.Fits ⟨[2], [((2, 0), [])]⟩ := by decide +kernel

theorem longVol_sound : longVol.Sound :=
  ⟨smallVol_ready (by norm_num) _ _, longVol_fits.wellFormed.toIntact, .root⟩

theorem canonicalName_longfile :
    CanonicalName [0x4C, 0x4F, 0x4E, 0x47, 0x46, 0x49, 0x4C, 0x45, 0x20, 0x20, 0x20] :=
  ⟨[0x4C, 0x4F, 0x4E, 0x47, 0x46, 0x49, 0x4C, 0x45], [], ⟨by decide, by decide, by decide⟩,
    by decide, ⟨by decide, by decide, by decide⟩, by decide, by decide, by decide⟩

theorem longVol_canonical (p : Pos) (hp : longVol.image.IsEntry p) :
    CanonicalName (longVol.image.entry p).name := by
  obtain ⟨m, hm⟩ := longVol_fits.entry_mem hp
  obtain ⟨rfl, -⟩ : p = (2, 0) ∧ m = [] := by simpa using hm
  have hname : (longVol.image.entry (2, 0)).name =
      [0x4C, 0x4F, 0x4E, 0x47, 0x46, 0x49, 0x4C, 0x45, 0x20, 0x20, 0x20] := by decide +kernel
  rw [hname]
  exact canonicalName_longfile

/-- `a.b` is written and read back as `A.b`. -/
theorem write_then_read_spelled :
    ∃ v', fat32WriteFile longVol [0x61, chDot, 0x62] (fun i ↦ UInt8.ofNat i) 300 = .done (0, v') ∧
      ∃ e w, fat32Find v' [0x41, chDot, 0x62] = .done (some e, w) ∧ e.size = 300 ∧
        ∀ mem dst max, ∃ w', fat32ReadFile w e mem dst max =
          .done (((min 300 max : ℕ) : ℤ), mem.blit dst (min 300 max) fun i ↦ UInt8.ofNat i,
            w') := by
  obtain ⟨v', hrun⟩ := Outcome.exists_of_code (r := 0)
    (x := fat32WriteFile longVol [0x61, chDot, 0x62] (fun i ↦ UInt8.ofNat i) 300)
    (by decide +kernel)
  refine ⟨v', hrun, write_then_read longVol_sound longVol_canonical ?_ (by norm_num) hrun
    (by decide)⟩
  exact ⟨[0x61], [0x62], ⟨by decide, by decide, by decide⟩, by decide,
    ⟨by decide, by decide, by decide⟩, by decide⟩

/-! ## The two ways to look a name up -/

/-- The live entries of directory `d` have canonical names, or they are the dot entries, which
come before every free slot. -/
structure Image.CanonicalDir (I : Image) (d : ℕ) : Prop where
  names : ∀ l, I.Chain d l → ∀ p ∈ I.slotsOf l, (I.entry p).Live →
    (I.entry p).IsDot ∨ CanonicalName (I.entry p).name
  dots_first : ∀ l pre q post, I.Chain d l → I.slotsOf l = pre ++ q :: post →
    (I.entry q).Live → (I.entry q).IsDot → ∀ p ∈ pre, (I.entry p).Used

/-- What `fat32_find` finds is what `search_dir` finds for the short name. -/
def SameLookup (v : Vol) (name : List UInt8) : Prop :=
  ∃ found look w w', fat32Find v name = .done (found, w) ∧
    searchDir v v.cwdCluster (toShortName name) = .done (look, w') ∧
    found = look.map DirLookup.entry

/-- The search of the write path ends in the same slot for both names. -/
def SameFile (v : Vol) (a b : List UInt8) : Prop :=
  ∃ look w w', searchDir v v.cwdCluster (toShortName a) = .done (some look, w) ∧
    searchDir v v.cwdCluster (toShortName b) = .done (some look, w')

/-- `fat32_find` finds the entry that is stored under the short name. -/
def FindsStored (v : Vol) (name : List UInt8) : Prop :=
  ∃ p w, v.image.Named v.cwdCluster (toShortName name) p ∧
    fat32Find v name = .done (some (v.image.entry p), w)

/-- The working directory has a live entry with this short name. -/
def Holds (v : Vol) (target : List UInt8) : Prop :=
  ∃ p, v.image.Named v.cwdCluster target p

/-- The formatted name of an entry matches a plain name that it is stored under, or a dot. -/
theorem matches_stored_iff {e : Dirent} (he : e.IsDot ∨ CanonicalName e.name) :
    strEqCi (formatShortName e.name) name = true ↔ e.name = toShortName name ∧ Plain name ∨
      e.name = dotName ∧ name = [chDot] ∨ e.name = dotdotName ∧ name = [chDot, chDot] := by
  constructor
  · intro hmatch
    rcases he with hdot | hcanon
    · exact Or.inr (matches_dot hdot hmatch)
    · have hname : toShortName name = e.name := by
        rw [← toShortName_congr hmatch, hcanon.toShortName_format]
      refine Or.inl ⟨hname.symm, ?_⟩
      rwa [Plain, hname]
  · rintro (⟨hname, hplain⟩ | ⟨hname, rfl⟩ | ⟨hname, rfl⟩)
    · rwa [hname]
    · rw [hname]
      decide
    · rw [hname]
      decide

theorem Holds.of_mem (hl : v.image.Chain v.cwdCluster l) (hp : p ∈ v.image.slotsOf l)
    (hlive : (v.image.entry p).Live) : Holds v (v.image.entry p).name :=
  ⟨p, l, hl, hp, hlive, rfl⟩

theorem Holds.mem {target : List UInt8} (h : v.Sound) (hl : v.image.Chain v.cwdCluster l)
    (hholds : Holds v target) :
    ∃ p ∈ v.image.slotsOf l, (v.image.entry p).Live ∧ (v.image.entry p).name = target := by
  obtain ⟨p, l', hl', hp, hlive, hsame⟩ := hholds
  obtain rfl := hl'.unique h.wf.small hl
  exact ⟨p, hp, hlive, hsame⟩

/-- `fat32_find` finds the entry of a slot, or there is none that matches. -/
theorem fat32Find_cases (h : v.Sound) (hl : v.image.Chain v.cwdCluster l) (name : List UInt8) :
    ∃ found w, fat32Find v name = .done (found, w) ∧
      ((found = none ∧ ∀ q ∈ v.image.slotsOf l, (v.image.entry q).Live →
          ¬strEqCi (formatShortName (v.image.entry q).name) name = true) ∨
        ∃ q ∈ v.image.slotsOf l, (v.image.entry q).Live ∧ found = some (v.image.entry q) ∧
          strEqCi (formatShortName (v.image.entry q).name) name = true) := by
  obtain ⟨w, hfind, -⟩ := fat32Find_spec h.ready hl (h.ended hl) name
  refine ⟨_, w, hfind, ?_⟩
  rcases hfound : (v.image.liveIn (v.image.slotsOf l)).find? (fun e ↦
    strEqCi (formatShortName e.name) name) with - | e
  · refine Or.inl ⟨hfound, fun q hq hqlive ↦ ?_⟩
    exact List.find?_eq_none.mp hfound _ (mem_liveIn.mpr ⟨q, hq, hqlive, rfl⟩)
  · obtain ⟨q, hq, hqlive, rfl⟩ := mem_liveIn.mp (List.mem_of_find?_eq_some hfound)
    exact Or.inr ⟨q, hq, hqlive, hfound, by simpa using List.find?_some hfound⟩

theorem sameLookup_of_results {found : Option Dirent} {look : Option DirLookup} {w w' : Vol}
    (hfind : fat32Find v name = .done (found, w))
    (hsearch : searchDir v v.cwdCluster (toShortName name) = .done (look, w')) :
    SameLookup v name ↔ found = look.map DirLookup.entry := by
  constructor
  · rintro ⟨found', look', u, u', hfind', hsearch', hsame⟩
    rw [hfind] at hfind'
    rw [hsearch] at hsearch'
    cases hfind'
    cases hsearch'
    exact hsame
  · intro hsame
    exact ⟨found, look, w, w', hfind, hsearch, hsame⟩

/-- The two ways to look a name up agree, except on the dots and on names that are stored
under a short name which is not theirs. -/
theorem sameLookup_iff (h : v.Sound) (hcanon : v.image.CanonicalDir v.cwdCluster)
    (hname : Ascii name) :
    SameLookup v name ↔ (Plain name ∨ ¬Holds v (toShortName name)) ∧
      (name = [chDot] → ¬Holds v dotName) ∧ (name = [chDot, chDot] → ¬Holds v dotdotName) := by
  obtain ⟨l, hl⟩ := h.wf.dir_chain h.cwd
  obtain ⟨found, w, hfind, hfound⟩ := fat32Find_cases h hl name
  obtain ⟨look, w', hsearch, -, -, hlook⟩ := searchDir_spec h.ready hl (h.ended hl)
    (toShortName name)
  rw [sameLookup_of_results hfind hsearch]
  rcases hfound with ⟨rfl, hno⟩ | ⟨q, hq, hqlive, rfl, hmatch⟩
  · rcases hlook with ⟨rfl, hnew⟩ | ⟨p, hp, rfl, hlive, hstored⟩
    · -- neither finds anything
      refine iff_of_true rfl ⟨Or.inr fun hholds ↦ ?_, ?_, ?_⟩
      · obtain ⟨p, hp, hlive, hstored⟩ := hholds.mem h hl
        exact hnew p hp hlive hstored
      · rintro rfl hholds
        obtain ⟨p, hp, hlive, hstored⟩ := hholds.mem h hl
        exact hno p hp hlive (by rw [hstored]; decide)
      · rintro rfl hholds
        obtain ⟨p, hp, hlive, hstored⟩ := hholds.mem h hl
        exact hno p hp hlive (by rw [hstored]; decide)
    · -- the read path misses the entry that is stored under the short name
      refine iff_of_false nofun fun ⟨hplain, _, _⟩ ↦ ?_
      have hplain' := hplain.resolve_right (not_not_intro (hstored ▸ .of_mem hl hp hlive))
      exact hno p hp hlive (by rwa [hstored])
  · -- what the write path finds is not a dot entry
    have hnot_dot : some (v.image.entry q) = look.map DirLookup.entry →
        ¬(v.image.entry q).IsDot := by
      intro hsame
      rcases hlook with ⟨rfl, -⟩ | ⟨p, hp, rfl, hlive, hstored⟩
      · cases hsame
      · rw [Option.some.inj hsame]
        exact not_dot_of_shortName hstored
    have hcases := (matches_stored_iff (hcanon.names l hl q hq hqlive)).mp hmatch
    rcases hcases with ⟨hqname, hplain⟩ | ⟨hdot, rfl⟩ | ⟨hdot, rfl⟩
    · -- both find the entry that is stored under the short name
      have hcanonical : CanonicalName (toShortName name) := by
        rw [← hqname]
        exact (hcanon.names l hl q hq hqlive).resolve_left (not_dot_of_shortName hqname)
      refine iff_of_true ?_ ⟨Or.inl hplain, ?_, ?_⟩
      · rcases hlook with ⟨rfl, hnew⟩ | ⟨p, hp, rfl, hlive, hstored⟩
        · exact absurd hqname (hnew q hq hqlive)
        · rw [h.wf.names _ l q p h.cwd hl hq hp hqlive hlive (hqname.trans hstored.symm)]
          rfl
      · rintro rfl
        exact absurd hplain not_plain_dot
      · rintro rfl
        exact absurd hcanonical not_canonical_dots
    · exact iff_of_false (fun hsame ↦ hnot_dot hsame (Or.inl hdot)) fun ⟨_, hone, _⟩ ↦
        hone rfl (hdot ▸ .of_mem hl hq hqlive)
    · exact iff_of_false (fun hsame ↦ hnot_dot hsame (Or.inr hdot)) fun ⟨_, _, htwo⟩ ↦
        htwo rfl (hdot ▸ .of_mem hl hq hqlive)

variable {op : Op}

/-- `..` is stored behind the entry that has the name already, and is not found there. -/
theorem dots_hidden {r : Option Dirent} {J : Image} (hcanon : I.CanonicalDir v.cwdCluster)
    (hl : I.Chain v.cwdCluster l) (hslots : J.slotsOf l = I.slotsOf l)
    (hkept : ∀ q ∈ I.slotsOf l, q ≠ p → J.entry q = I.entry q)
    (hunique : ∀ q ∈ J.slotsOf l, (J.entry q).Live → (J.entry q).name = (J.entry p).name → q = p)
    (hunused : ¬(I.entry p).Used) (hq : q ∈ I.slotsOf l) (hqlive : (I.entry q).Live)
    (hdots : (I.entry q).name = dotdotName)
    (hfind : ((J.liveIn (J.slotsOf l)).find? fun e ↦
      strEqCi (formatShortName e.name) [chDot, chDot]) = r) : r ≠ some (J.entry p) := by
  rintro rfl
  have hqp : q ≠ p := by
    rintro rfl
    exact hunused hqlive.1
  obtain ⟨pre, post, hsplit⟩ := List.append_of_mem hq
  have hpre := hcanon.dots_first l pre q post hl hsplit hqlive (Or.inr hdots)
  have hsame := hkept q hq hqp
  -- the search ends at slot `q` at the latest
  have hstop : ((J.liveIn (pre ++ [q])).find? fun e ↦
      strEqCi (formatShortName e.name) [chDot, chDot]).isSome := by
    rw [List.find?_isSome]
    refine ⟨J.entry q, mem_liveIn.mpr ⟨q, by simp, by rwa [hsame], rfl⟩, ?_⟩
    rw [hsame, hdots]
    decide
  have hearly : J.entry p ∈ J.liveIn (pre ++ [q]) := by
    have hall : J.slotsOf l = (pre ++ [q]) ++ post := by
      rw [hslots, hsplit]
      simp
    obtain ⟨e, he⟩ := Option.isSome_iff_exists.mp hstop
    rw [hall, liveIn_append, List.find?_append, he, Option.some_or] at hfind
    cases hfind
    exact List.mem_of_find?_eq_some he
  obtain ⟨r, hr, hrlive, hrp⟩ := mem_liveIn.mp hearly
  have hr' : r ∈ I.slotsOf l := by
    rw [hsplit]
    rcases List.mem_append.mp hr with hr | hr
    · exact List.mem_append_left _ hr
    · rw [List.mem_singleton.mp hr]
      simp
  obtain rfl : r = p := hunique r (hslots ▸ hr') hrlive (by rw [hrp])
  rcases List.mem_append.mp hr with hr | hr
  · exact hunused (hpre r hr)
  · exact hqp (List.mem_singleton.mp hr).symm

/-- After a call that has stored an entry, `fat32_find` finds it under the name of the call
if the name is plain, unless it is `..` and the directory has such an entry already. -/
theorem findsStored_iff (h : v.Sound) (hcanon : v.image.CanonicalDir v.cwdCluster)
    (hop : op.Valid) (hstores : ¬op.Takes) (hrun : op.run v = .done (0, v')) :
    FindsStored v' op.name ↔
      Plain op.name ∧ ¬(op.name = [chDot, chDot] ∧ Holds v dotdotName) := by
  obtain ⟨l, hl⟩ := h.wf.dir_chain h.cwd
  obtain ⟨hv', hkeep, hends⟩ := Op.ends_of_run h hl hop hrun
  rcases hends with ⟨hr, -⟩ | ⟨hr, -⟩ | ⟨-, p, old, new, hedit⟩
  · cases hr
  · cases hr
  have hlive : (v'.image.entry p).Live := hedit.stored.resolve_left hstores
  have hstored := hedit.name_after hlive
  have hdir : v'.image.IsDir v'.cwdCluster := by
    rw [hkeep.cwd]
    exact hedit.isDir_dir
  have hchain : v'.image.Chain v'.cwdCluster l := by
    rw [hkeep.cwd]
    exact hedit.chain_keep hedit.dir hl hedit.dir_not_removed
  have hp : p ∈ v'.image.slotsOf l := hedit.slotsOf_eq ▸ hedit.mem
  have hended : v'.image.Ended l := hedit.intact.ends _ l hdir hchain
  have hkept : ∀ q ∈ v.image.slotsOf l, q ≠ p → v'.image.entry q = v.image.entry q := by
    have hslots := (hedit.kept_slots hedit.dir hedit.dir_not_removed (hkeep.cwd ▸ hchain)).2
    rwa [hedit.slotsOf_eq] at hslots
  have hunique : ∀ q ∈ v'.image.slotsOf l, (v'.image.entry q).Live →
      (v'.image.entry q).name = (v'.image.entry p).name → q = p :=
    fun q hq hqlive hsame ↦ hedit.intact.names _ l q p hdir hchain hq hp hqlive hlive hsame
  constructor
  · rintro ⟨q, w, ⟨l', hl', hq, hqlive, hqname⟩, hfind⟩
    obtain rfl := hl'.unique hedit.intact.small hchain
    obtain rfl : q = p := hunique q hq hqlive (hqname.trans hstored.symm)
    obtain ⟨w', hfind', -⟩ := fat32Find_spec hv' hchain hended op.name
    rw [hfind] at hfind'
    injection hfind' with hpair
    have hfirst := (congrArg Prod.fst hpair).symm
    refine ⟨?_, ?_⟩
    · have hmatch := List.find?_some hfirst
      rwa [hstored] at hmatch
    · rintro ⟨hdots, t, l'', hl'', ht, htlive, htname⟩
      obtain rfl := hl''.unique h.wf.small hl
      rw [hdots] at hfirst hstored
      refine dots_hidden hcanon hl hedit.slotsOf_eq hkept hunique ?_ ht htlive htname hfirst rfl
      -- no entry of the directory had the short name of `..` before
      refine hedit.unused.resolve_left fun hbefore ↦ ?_
      have hname := hedit.name_before hbefore
      rcases hcanon.names _ hl q hedit.mem hbefore with hdot | hcanonical
      · exact not_dot_of_shortName hname hdot
      · rw [hname, hdots] at hcanonical
        exact not_canonical_dots hcanonical
  · rintro ⟨hplain, hdots⟩
    obtain ⟨w, hfind, -⟩ := fat32Find_eq op.name hv' hchain hended hp hlive
      (by rwa [hstored]) (by
        intro q hq hqlive hmatch
        by_contra hqp
        have hq' : q ∈ v.image.slotsOf l := hedit.slotsOf_eq ▸ hq
        have hsame := hkept q hq' hqp
        have hqlive' : (v.image.entry q).Live := by rwa [← hsame]
        rw [hsame] at hmatch
        rcases (matches_stored_iff (hcanon.names l hl q hq' hqlive')).mp hmatch with
          ⟨hqname, -⟩ | ⟨-, hone⟩ | ⟨hqname, htwo⟩
        · exact hqp (hunique q hq hqlive (by rw [hsame, hqname, hstored]))
        · rw [hone] at hplain
          exact not_plain_dot hplain
        · exact hdots ⟨htwo, hqname ▸ Holds.of_mem hl hq' hqlive'⟩)
    exact ⟨p, w, ⟨l, hchain, hp, hlive, hstored⟩, hfind⟩

/-- Two names for one file have one short name. -/
theorem SameFile.shortName_eq (h : v.Sound) {a b : List UInt8} (hfile : SameFile v a b) :
    toShortName a = toShortName b := by
  obtain ⟨l, hl⟩ := h.wf.dir_chain h.cwd
  obtain ⟨look, w, w', ha, hb⟩ := hfile
  have hentry : ∀ {target w}, searchDir v v.cwdCluster target = .done (some look, w) →
      look.entry.name = target := by
    intro target w hsearch
    obtain ⟨r, u, hsearch', -, -, hres⟩ := searchDir_spec h.ready hl (h.ended hl) target
    rw [hsearch] at hsearch'
    cases hsearch'
    rcases hres with ⟨hr, -⟩ | ⟨p, -, hr, -, hname⟩
    · cases hr
    · cases hr
      exact hname
  rw [← hentry ha, ← hentry hb]

/-- When the read path and the write path agree on a name: what each of them finds, what the
read path finds after the write path has stored it, and which other names lead there. -/
theorem name_resolution_iff (h : v.Sound) (hcanon : v.image.CanonicalDir v.cwdCluster)
    (hname : Ascii name) :
    (SameLookup v name ↔ (Plain name ∨ ¬Holds v (toShortName name)) ∧
      (name = [chDot] → ¬Holds v dotName) ∧ (name = [chDot, chDot] → ¬Holds v dotdotName)) ∧
    (∀ (op : Op) (v' : Vol), op.Valid → ¬op.Takes → op.name = name → op.run v = .done (0, v') →
      (FindsStored v' name ↔ Plain name ∧ ¬(name = [chDot, chDot] ∧ Holds v dotdotName))) ∧
    ∀ other, SameFile v name other → Plain name → (strEqCi name other = true ↔ Plain other) := by
  refine ⟨sameLookup_iff h hcanon hname, ?_, fun other hfile hplain ↦ ?_⟩
  · rintro op v' hop hstores rfl hrun
    exact findsStored_iff h hcanon hop hstores hrun
  · exact (plain_iff_of_shortName_eq hplain (hfile.shortName_eq h)).symm

theorem longVol_canonicalDir : longVol.image.CanonicalDir longVol.cwdCluster where
  names := by
    intro l hl p hp hlive
    by_cases hdot : (longVol.image.entry p).IsDot
    · exact Or.inl hdot
    · exact Or.inr (longVol_canonical p (.of_mem .root hl hp hlive hdot))
  dots_first := by
    intro l pre q post hl hsplit hlive hdot
    obtain rfl := hl.unique longVol_sound.wf.small longVol_fits.root_chain
    have hnone : ∀ q ∈ longVol.image.slotsOf [2], (longVol.image.entry q).Live →
        ¬(longVol.image.entry q).IsDot := by decide +kernel
    exact absurd hdot (hnone q (by rw [hsplit]; simp) hlive)

/-- Names with the short name `LONGFILE` lead the write path to that file. -/
theorem longVol_sameFile {a b : List UInt8}
    (ha : toShortName a = [0x4C, 0x4F, 0x4E, 0x47, 0x46, 0x49, 0x4C, 0x45, 0x20, 0x20, 0x20])
    (hb : toShortName b = toShortName a) : SameFile longVol a b := by
  have hsearch : (searchDir longVol longVol.cwdCluster
      [0x4C, 0x4F, 0x4E, 0x47, 0x46, 0x49, 0x4C, 0x45, 0x20, 0x20, 0x20]).value?.map
        (fun a ↦ a.1.isSome) = some true := by decide +kernel
  obtain ⟨⟨look, w⟩, hx, hsome⟩ := Option.map_eq_some_iff.mp hsearch
  obtain ⟨look, rfl⟩ := Option.isSome_iff_exists.mp hsome
  have hdone := Outcome.value?_eq_some.mp hx
  rw [← ha] at hdone
  exact ⟨look, w, w, hdone, by rw [hb, hdone]⟩

/-- The file `LONGFILE`, asked for as `longfile`: both paths find it, what is written to it is
found again, and `longfilename`, which is not the same name, leads the write path there too. -/
theorem name_resolution_iff_longfile :
    let name : List UInt8 := [0x6C, 0x6F, 0x6E, 0x67, 0x66, 0x69, 0x6C, 0x65]
    let longer : List UInt8 := name ++ [0x6E, 0x61, 0x6D, 0x65]
    Holds longVol (toShortName name) ∧ SameLookup longVol name ∧
      (∃ v', fat32WriteFile longVol name blank 1 = .done (0, v') ∧ FindsStored v' name) ∧
      SameFile longVol name longer ∧ strEqCi name longer = false := by
  intro name longer
  have hmem : (2, 0) ∈ longVol.image.slotsOf [2] ∧ (longVol.image.entry (2, 0)).Live ∧
      (longVol.image.entry (2, 0)).name = toShortName name := by decide +kernel
  obtain ⟨hp, hlive, hstored⟩ := hmem
  have hplain : Plain name := by decide
  obtain ⟨hlook, hwritten, hothers⟩ :=
    name_resolution_iff longVol_sound longVol_canonicalDir (show Ascii name by decide)
  have hsame : SameFile longVol name longer := longVol_sameFile (by decide) (by decide)
  obtain ⟨v', hrun⟩ := Outcome.exists_of_code (r := 0)
    (x := fat32WriteFile longVol name blank 1) (by decide +kernel)
  refine ⟨hstored ▸ Holds.of_mem longVol_fits.root_chain hp hlive,
    hlook.mpr ⟨Or.inl hplain, fun hone ↦ absurd hone (by decide),
      fun htwo ↦ absurd htwo (by decide)⟩, ⟨v', hrun, ?_⟩, hsame, ?_⟩
  · refine (hwritten (.writeFile name blank 1) v' (by decide) id rfl hrun).mpr ⟨hplain, ?_⟩
    rintro ⟨hdots, -⟩
    exact absurd hdots (by decide)
  · have hnot : ¬Plain longer := by decide
    exact Bool.eq_false_iff.mpr (mt (hothers longer hsame hplain).mp hnot)

/-- `LONGFILENAME` is not found by the read path, but the write path takes it for `LONGFILE`:
it writes to that file, and the read path still does not find it. -/
theorem longfilename_lookup :
    let name : List UInt8 :=
      [0x4C, 0x4F, 0x4E, 0x47, 0x46, 0x49, 0x4C, 0x45, 0x4E, 0x41, 0x4D, 0x45]
    ¬SameLookup longVol name ∧ strEqCi (name.take 8) name = false ∧
      SameFile longVol (name.take 8) name ∧
      ∃ v', fat32WriteFile longVol name blank 1 = .done (0, v') ∧ ¬FindsStored v' name := by
  intro name
  have hfind : (fat32Find longVol name).value?.map (fun a ↦ a.1.isSome) = some false := by
    decide +kernel
  have hsame : SameFile longVol (name.take 8) name := longVol_sameFile (by decide) (by decide)
  refine ⟨?_, by decide, hsame, ?_⟩
  · obtain ⟨look, -, w', -, hsearch⟩ := hsame
    rintro ⟨found, look', w, w'', hf, hs, rfl⟩
    rw [hf] at hfind
    rw [hsearch] at hs
    cases hs
    cases hfind
  · obtain ⟨v', hrun⟩ := Outcome.exists_of_code (r := 0)
      (x := fat32WriteFile longVol name blank 1) (by decide +kernel)
    refine ⟨v', hrun, fun hfound ↦ ?_⟩
    have hplain := (findsStored_iff longVol_sound longVol_canonicalDir
      (show (Op.writeFile name blank 1).Valid by decide) id hrun).mp hfound
    exact absurd hplain.1 (by decide)

end MyOS.Fat32
