import MyOS.Fat32.Mirror
import MyOS.Fat32.Mount
import MyOS.Fat32.Service

/-!
# Mounting again

Nothing that the driver has in memory is needed to find the files again.  On a sound volume every
call follows clusters of the volume only, so what it writes lies behind the reserved sectors, and
the boot sector stays as it is.  Mounting the disk after any run of requests, with whatever the
memory holds then, gives the same geometry and with it the same files.  That holds for a run that
ends with a `fat32_write_file` without room as well, although the volume is not sound after it.
-/

namespace MyOS.Fat32

open Bytes Image

variable {u v v' v₀ w w₁ : Vol} {g : Geometry} {I : Image} {W : Prop} {l N old : List ℕ} {p : Pos}
  {c s size : ℕ} {data : Bytes} {name target : List UInt8} {op : Op}

/-! ## Calls on a sound volume stay in it -/

def Geometry.InRange (g : Geometry) (c : ℕ) : Prop := 2 ≤ c ∧ c < g.totalClusters + 2

/-- A round that goes on along the links, and changes at most the link it has followed. -/
def Passes (body : ℕ → Vol → Option (ℕ × Vol)) : Prop :=
  ∀ (c : ℕ) (v : Vol), v.Ready → v.geo.InRange c → ∀ x ∈ body c v,
    x.1 = v.image.fat c ∧ x.2.Ready ∧ x.2.geo = v.geo ∧
      ∀ y, y ≠ c → x.2.image.fat y = v.image.fat y

/-- A loop of such rounds along a chain arrives at clusters of the volume only. -/
theorem Passes.follows {body : ℕ → Vol → Option (ℕ × Vol)} (hbody : Passes body) (fuel : ℕ)
    (hv : v.Ready) (hgeo : v.geo = g) (hl : v.image.Trail s l) (hnodup : l.Nodup) :
    Follows g.InRange body fuel s v := by
  induction fuel generalizing s v l with
  | zero => trivial
  | succ fuel ih =>
      intro hgoes
      cases l with
      | nil => exact absurd hl hgoes.1
      | cons c l =>
          obtain ⟨rfl, hlo, hhi, -, hrest⟩ := hl
          obtain ⟨hnotMem, hnodup⟩ := List.nodup_cons.mp hnodup
          subst hgeo
          refine ⟨⟨hlo, hhi⟩, fun x hx ↦ ?_⟩
          obtain ⟨hnext, hready, hgeo, hfat⟩ := hbody c v hv ⟨hlo, hhi⟩ x hx
          have htotal : x.2.image.total = v.image.total := congrArg Geometry.totalClusters hgeo
          rw [hnext]
          refine ih hready hgeo (hrest.congr htotal fun y hy ↦ hfat y ?_) hnodup
          rintro rfl
          exact hnotMem hy

theorem Passes.follows_chain {body : ℕ → Vol → Option (ℕ × Vol)} (hbody : Passes body) (fuel : ℕ)
    (hv : v.Ready) (hgeo : v.geo = g) (hl : v.image.Chain s l) : Follows g.InRange body fuel s v :=
  hbody.follows fuel hv hgeo (hl.trail hv.geo.total_small) hl.nodup

theorem passes_scan {ρ : Type} (visit : DirLookup → Option ρ) (onFail : ρ) :
    Passes (scanBody visit onFail) := by
  intro c v hv hc x hx
  obtain ⟨r, v₁, hscan, hquiet₁, -, hv₁, -⟩ := scanSectors_any visit onFail links_ready hc.1
    v.geo.sectorsPerCluster hv hc.2 (s := 0) (Nat.zero_add _)
  obtain ⟨v₂, hnext, hquiet₂, hv₂⟩ := nextCluster_spec (c := c) hv₁
    (by rw [hquiet₁.geo]; exact hc.2)
  have hquiet := hquiet₁.trans hquiet₂
  rw [scanBody, hscan] at hx
  cases r with
  | some r => cases hx
  | none =>
      simp only [hnext] at hx
      cases hx
      rw [hquiet₁.image]
      exact ⟨rfl, hv₂, hquiet.geo, fun y _ ↦ by rw [hquiet.image]⟩

theorem passes_free : Passes freeBody := by
  intro c v hv hc x hx
  obtain ⟨v₁, hnext, hquiet, hv₁⟩ := nextCluster_spec hv hc.2
  obtain ⟨v₂, hset, hv₂, hkeep, -, himage⟩ := setFatEntry_spec hv₁ (c := c) (x := 0)
    (by rw [hquiet.geo]; exact hc.2) (by norm_num)
  rw [freeBody, hnext, hset] at hx
  cases hx
  refine ⟨rfl, hv₂, hkeep.geo.trans hquiet.geo, fun y hy ↦ ?_⟩
  rw [himage, hquiet.image]
  exact Function.update_of_ne hy _ _

/-- The chain that is cleared when the disk is full. -/
theorem freeFollows_of_chain (hv : v.Ready) (hgeo : v.geo = g) (hl : v.image.Chain s l) :
    FreeFollows g.InRange v s := passes_free.follows_chain walkFuel hv hgeo hl

theorem writeFollows_of_filled (fuel written : ℕ) (hv : v.Ready) (hgeo : v.geo = g)
    (h : Filled I v.image N data size) (hwritten : written = min size (N.length * (32 * I.slots))) :
    WriteFollows g.InRange data size fuel (N.headD 0) (N.getLastD 0) written v := by
  induction fuel generalizing N v written with
  | zero => trivial
  | succ fuel ih =>
      intro hmore
      subst hgeo
      obtain ⟨c, v₁, halloc, hv₁, hkeep, hres⟩ := allocCluster_spec hv
      simp only [halloc]
      rcases hres with ⟨rfl, himage, -⟩ | ⟨hlo, hhi, hfree, himage⟩
      · rw [if_pos rfl]
        intro hfirst
        have hchain := h.chain ((headD_ne_zero h).mp hfirst)
        rw [← himage] at hchain
        exact freeFollows_of_chain hv₁ hkeep.geo hchain
      · obtain ⟨v₂, hextend, hv₂, hkeep₂, hfilled⟩ := extendChain_spec hv₁ h hkeep hlo hhi hfree
          himage (show written = N.length * (32 * I.slots) by omega)
        have hrest := ih _ hv₂ hkeep₂.geo hfilled (add_roundSize h.bytes hwritten c)
        have hlastD : (N ++ [c]).getLastD 0 = c := by simp
        rw [hlastD] at hrest
        rw [if_neg (by omega), hextend, if_pos rfl, headD_concat (headD_ne_zero h)]
        exact hrest

section Sound

variable (h : v.Sound) (hl : v.image.Chain v.cwdCluster l)

include h hl

theorem searchFollows_cwd (target : List UInt8) :
    SearchFollows v.geo.InRange v v.cwdCluster target :=
  (passes_scan (searchVisit target) none).follows_chain walkFuel h.ready rfl hl

/-- What a search has found. -/
theorem search_found {look : DirLookup} {v₁ : Vol}
    (hsearch : searchDir v v.cwdCluster (toShortName name) = .done (some look, v₁)) :
    Quiet v v₁ ∧ v₁.Ready ∧ ∃ p old, look = v.lookAt p ∧ v₁.image.EntryChain p old := by
  obtain ⟨found, v₁', hrun, hquiet, hv₁, hfound⟩ := searchDir_spec h.ready hl (h.ended hl)
    (toShortName name)
  rw [hsearch] at hrun
  cases hrun
  rcases hfound with ⟨hnone, -⟩ | ⟨p, hp, hlook, hlive, htarget⟩
  · cases hnone
  · obtain ⟨old, hold, -⟩ := Site.of_entry h.wf h.cwd hl hp hlive (not_dot_of_shortName htarget)
    rw [← hquiet.image] at hold
    exact ⟨hquiet, hv₁, p, old, Option.some.inj hlook, hold⟩

theorem newFollows_of_sound : NewFollows v.geo.InRange v (toShortName name) := by
  refine ⟨searchFollows_cwd h hl _, fun v₁ hsearch ↦ ?_⟩
  obtain ⟨found, v₁', hrun, hquiet, hv₁, -⟩ := searchDir_spec h.ready hl (h.ended hl)
    (toShortName name)
  rw [hsearch] at hrun
  cases hrun
  have hl₁ : v₁.image.Chain v₁.cwdCluster l := by rwa [hquiet.image, hquiet.cwd]
  exact (passes_scan freeVisit none).follows_chain walkFuel hv₁ hquiet.geo hl₁

theorem dropFollows_of_sound : DropFollows v.geo.InRange v (toShortName name) := by
  intro look v₁ hsearch _ hstart
  obtain ⟨hquiet, hv₁, p, old, rfl, hold⟩ := search_found h hl hsearch
  have hentry : (v.lookAt p).entry = v₁.image.entry p := by rw [Vol.lookAt, hquiet.image]
  rw [hentry] at hstart ⊢
  rcases hold.cases with ⟨-, hchain⟩ | ⟨hlow, -⟩
  · exact freeFollows_of_chain hv₁ hquiet.geo hchain
  · omega

/-- Nothing is cleared by a `fat32_mkdir` on a drive that does not fail. -/
theorem makeFollows_of_sound {v₁ v₂ : Vol} {look : DirLookup}
    (hsearch : searchDir v v.cwdCluster (toShortName name) = .done (none, v₁))
    (hslot : findFreeDirentIn v₁ v₁.cwdCluster = .done (some look, v₂)) :
    MakeFollows v.geo.InRange v₂ look (toShortName name) := by
  obtain ⟨found, v₁', hrun, hq₁, hv₁, -⟩ := searchDir_spec h.ready hl (h.ended hl)
    (toShortName name)
  rw [hsearch] at hrun
  cases hrun
  obtain ⟨slot, v₂', hfree, hq, hv₂, hfound⟩ := findFreeDirentIn_spec hq₁ hv₁ hl
  rw [hslot] at hfree
  cases hfree
  rcases hfound with ⟨hnone, -⟩ | ⟨pre, p, post, hlook, hsplit, -, -⟩
  · cases hnone
  cases hlook
  intro c v₃ ok v₄ halloc hc hwrite
  obtain ⟨c', v₃', halloc', hv₃, hkeep₃, hres⟩ := allocCluster_spec hv₂
  rw [halloc] at halloc'
  cases halloc'
  rcases hres with ⟨hzero, -⟩ | ⟨hlo, hhi, -⟩
  · exact absurd hzero hc
  rw [← hkeep₃.geo] at hhi
  obtain ⟨v₄', hwrite', hv₄, hkeep₄, -⟩ := writeCluster_spec hv₃ hlo hhi
    (newDirectory c (if v₃.cwdCluster = v₃.geo.rootCluster then 0 else v₃.cwdCluster))
  rw [hwrite] at hwrite'
  cases hwrite'
  refine ⟨fun hfalse ↦ absurd hfalse (by decide), fun v₅ _ hdirent ↦ ?_⟩
  have hp : p ∈ v.image.slotsOf l := by simp [hsplit]
  obtain ⟨v₅', hdirent', -⟩ := writeDirent_later hv₄ ((hq.toKeeps.trans hkeep₃).trans hkeep₄)
    (hasSlot_of_mem hl hp) (newDirent (toShortName name) fatAttrDirectory c 0)
  rw [hdirent] at hdirent'
  cases hdirent'

/-- Every call on a sound volume follows clusters of the volume only. -/
theorem Op.follows_of_sound (hop : op.Valid) : op.Follows v.geo.InRange v := by
  cases op with
  | create name => exact newFollows_of_sound h hl
  | writeFile name data size =>
      refine ⟨newFollows_of_sound h hl, dropFollows_of_sound h hl, fun look v₁ htarget ↦ ?_⟩
      have hname : Ascii name := hop.1
      obtain ⟨r, v₁', hrun, hv₁, hkeep, -⟩ := writeTarget_spec h hl name
      rw [htarget] at hrun
      cases hrun
      exact writeFollows_of_filled walkFuel 0 hv₁ hkeep.geo (.empty v₁.image data size) (by simp)
  | remove name => exact ⟨searchFollows_cwd h hl _, dropFollows_of_sound h hl⟩
  | mkdir name =>
      exact ⟨newFollows_of_sound h hl, fun v₁ look v₂ hsearch hslot ↦
        makeFollows_of_sound h hl hsearch hslot⟩
  | rmdir name =>
      refine ⟨searchFollows_cwd h hl _, fun look v₁ hsearch hdir _ ↦ ?_⟩
      obtain ⟨hquiet, hv₁, p, old, rfl, hold⟩ := search_found h hl hsearch
      have hentry : (v.lookAt p).entry = v₁.image.entry p := by rw [Vol.lookAt, hquiet.image]
      rw [hentry] at hdir ⊢
      have hchain := hold.of_directory hdir
      refine ⟨(passes_scan emptyVisit false).follows_chain walkFuel hv₁ hquiet.geo hchain,
        fun v₂ hempty ↦ ?_⟩
      obtain ⟨v₂', hrun, hquiet₂, hv₂⟩ := scanDir_spec emptyVisit false true hv₁ hchain
      rw [dirIsEmpty, hrun] at hempty
      obtain ⟨-, rfl⟩ := Prod.ext_iff.mp (Outcome.done.inj hempty)
      refine freeFollows_of_chain hv₂ (hquiet₂.geo.trans hquiet.geo) (l := old) ?_
      rwa [hquiet₂.image]

end Sound

/-! ## The boot sector -/

/-- Acts on clusters of the volume change nothing before the first FAT. -/
theorem Acts.reserved_kept (hg : g.Consistent) (hgeo : v.geo = g) (hv : v.ata.Reliable)
    (h : Acts W hg.bounds v v') :
    ∀ i < 512 * g.fatStartLba, v'.ata.disk i = v.ata.disk i := by
  refine h.disk_rule (R := fun disk disk' ↦ ∀ i < 512 * g.fatStartLba, disk' i = disk i) hg
    (fun hfirst hsecond i hi ↦ (hsecond i hi).trans (hfirst i hi)) (fun c x disk _ i hi ↦ ?_)
    (fun hdata i hi ↦ hdata i ?_) hgeo hv
  · refine putLinks_apply g.numFats 0 disk fun f _ _ ↦ Or.inl ?_
    rw [fatAddr]
    omega
  · rw [hg.data_start]
    omega

/-- A call that may not write leaves the disk alone. -/
theorem Acts.disk_kept {B : Bounds g} (h : Acts False B v v') : v'.ata.disk = v.ata.disk := by
  induction h with
  | refl => rfl
  | tail _ hact ih =>
      refine Eq.trans ?_ ih
      cases hact with
      | read lba n buf => exact (Ata.ataRead_frame lba n buf _).1
      | @next c _ => exact (nextCluster_quiet _ c).disk
      | link _ hW _ => exact hW.elim
      | write _ hW _ _ => exact hW.elim
      | hint hW _ => exact hW.elim
      | cwd _ => rfl

/-- The geometry and the reserved sectors are as before. -/
def SameBoot (v w : Vol) : Prop :=
  w.geo = v.geo ∧ ∀ i < 512 * v.geo.fatStartLba, w.ata.disk i = v.ata.disk i

theorem SameBoot.trans (h : SameBoot v v') (h' : SameBoot v' w) : SameBoot v w := by
  obtain ⟨hgeo, hsame⟩ := h
  obtain ⟨hgeo', hsame'⟩ := h'
  rw [hgeo] at hgeo' hsame'
  exact ⟨hgeo', fun i hi ↦ (hsame' i hi).trans (hsame i hi)⟩

/-- Requests on a sound volume leave its geometry and its reserved sectors alone. -/
theorem Answers.sameBoot {x : FileCall × Reply} (h : v.Shelf) (hans : Answers v x w) :
    SameBoot v w := by
  obtain ⟨req, reply⟩ := x
  obtain ⟨hvalid, hrun⟩ := hans
  cases req with
  | op op =>
      obtain ⟨⟨r, v'⟩, hop, hdone⟩ := Outcome.bind_eq_done_iff.mp hrun
      cases hdone
      obtain ⟨l, hl⟩ := h.wf.dir_chain h.cwd
      have hg := h.ready.geo
      have hacts : Acts True hg.bounds v v' := Op.acts trivial rfl h.ready.hint
        (op.follows_of_sound h.toSound hl (FileCall.Valid.valid hvalid)) hop
      exact ⟨hacts.later.geo, hacts.reserved_kept hg rfl h.ready.reliable⟩
  | chdir name =>
      obtain ⟨⟨r, v'⟩, hchdir, hdone⟩ := Outcome.bind_eq_done_iff.mp hrun
      cases hdone
      have hacts : Acts False (Bounds.all v.geo) v v' :=
        fat32Chdir_acts rfl (Request.follows_all (.chdir name) v) hchdir
      exact ⟨hacts.later.geo, fun i _ ↦ by rw [hacts.disk_kept]⟩
  | read name mem dst max =>
      obtain ⟨⟨found, v'⟩, hread, hdone⟩ := Outcome.bind_eq_done_iff.mp hrun
      cases hdone
      obtain ⟨reply, w', hread', hquiet, -⟩ := read_step h hvalid.1 mem dst hvalid.2
      rw [hread] at hread'
      cases hread'
      exact ⟨hquiet.geo, fun i _ ↦ by rw [hquiet.disk]⟩

/-! ## Mounting -/

/-- The volume just after `fat32_mount` has found the geometry `g`. -/
def Vol.fresh (v : Vol) (g : Geometry) : Vol :=
  { v with
    geo := g
    cwdCluster := g.rootCluster
    allocHint := 2
    mounted := true
    fatSectorCachedLba := noLba
    ata := { v.ata with polls := v.ata.polls + 1 } }

theorem fat32Mount_disk (hmount : fat32Mount v = (0, v₀)) : v₀.ata.disk = v.ata.disk := by
  rw [fat32Mount] at hmount
  have hquiet := ataRead_quiet v 0 1 blank
  rcases hread : v.ataRead 0 1 blank with ⟨_ | _, boot, v₁⟩
  · rw [hread] at hmount
    cases hmount
  · rw [hread] at hmount hquiet
    simp only at hmount
    split_ifs at hmount
    all_goals cases hmount
    all_goals exact hquiet.disk

/-- What a mount makes of a drive depends on the first sector only. -/
theorem fat32Mount_congr (hmount : fat32Mount v = (0, v₀)) (hu : u.ata.Reliable)
    (hsector : ∀ i < 512, u.ata.disk i = v₀.ata.disk i) :
    fat32Mount u = (0, u.fresh v₀.geo) := by
  have hdisk : v₀.ata.disk = v.ata.disk := fat32Mount_disk hmount
  have hboot : (blank.blit 0 512 fun i ↦ u.ata.disk (512 * 0 + i))
      = blank.blit 0 512 fun i ↦ v.ata.disk (512 * 0 + i) := by
    apply blit_congr
    intro i hi
    rw [Nat.mul_zero, Nat.zero_add, hsector i hi, hdisk]
  rw [fat32Mount, Vol.ataRead, Ata.ataRead_one _ _ (by norm_num)] at hmount ⊢
  rw [hboot, if_pos (hu _)]
  split_ifs at hmount with hready
  · simp only at hmount ⊢
    split_ifs at hmount ⊢
    all_goals cases hmount
    · rfl
    · rfl
  · cases hmount

/-- A drive that holds the same volume, mounted anew, holds the same files. -/
theorem Vol.fresh_files (himage : imageOf w.geo u.ata.disk = w.image) :
    (u.fresh w.geo).files = { w.files with cwd := w.files.root } := by
  have hfresh : (u.fresh w.geo).image = w.image := himage
  have hcwd : (u.fresh w.geo).cwdCluster = w.image.root := rfl
  rw [Vol.files, Vol.files, hfresh, hcwd]

theorem Vol.Shelf.fresh (h : w.Shelf) (hu : u.ata.Reliable)
    (himage : imageOf w.geo u.ata.disk = w.image) : (u.fresh w.geo).Shelf := by
  have hfresh : (u.fresh w.geo).image = w.image := himage
  have hcwd : (u.fresh w.geo).cwdCluster = w.image.root := rfl
  refine ⟨⟨⟨?_, ?_, ?_⟩, ?_⟩, ?_⟩
  · exact ⟨rfl, h.ready.geo, hu, Nat.le_add_left 2 _, Or.inl rfl⟩
  · rw [hfresh]
    exact h.wf
  · rw [hfresh, hcwd]
    exact .root
  · rw [hfresh]
    exact h.linked
  · rw [hfresh]
    exact h.canonical

/-- After any run of requests on a mounted volume, with whatever is left in memory and wherever the
working directory was, mounting the disk again succeeds and finds all the files that the run has
left, with the root as the working directory.  The last request may be one that has run out of
room; otherwise the volume is as sound as before. -/
theorem remount_finds_files {log : List (FileCall × Reply)} (hmount : fat32Mount v = (0, v₀))
    (h : v₀.Shelf) (hboot : 1 ≤ v₀.geo.fatStartLba) (hrun : Trace Serves v₀ log w₁)
    (hlast : w = w₁ ∨ ∃ x, Answers w₁ x w) (hdisk : u.ata.disk = w.ata.disk)
    (hu : u.ata.Reliable) :
    Trace Files.Step v₀.files log w₁.files ∧ ∃ u', fat32Mount u = (0, u') ∧
      u'.files = { w.files with cwd := w.files.root } ∧ (w = w₁ → u'.Shelf) := by
  have hkept : w₁.Shelf ∧ SameBoot v₀ w₁ := by
    refine hrun.invariant (P := fun w ↦ w.Shelf ∧ SameBoot v₀ w) ?_ ⟨h, rfl, fun _ _ ↦ rfl⟩
    rintro w x w' ⟨hw, hsame⟩ hserves
    exact ⟨(hserves.step hw).1, hsame.trans (hserves.1.sameBoot hw)⟩
  obtain ⟨hshelf, hsame₁⟩ := hkept
  have hsame : SameBoot v₀ w := by
    rcases hlast with rfl | ⟨x, hans⟩
    · exact hsame₁
    · exact hsame₁.trans (hans.sameBoot hshelf)
  obtain ⟨hgeo, hsame⟩ := hsame
  have hsector : ∀ i < 512, u.ata.disk i = v₀.ata.disk i := by
    intro i hi
    rw [hdisk]
    exact hsame i (by omega)
  have himage : imageOf w.geo u.ata.disk = w.image := by rw [hdisk, Vol.image]
  refine ⟨hrun.map Vol.files (fun v x w hv hserves ↦ hserves.step hv) h, u.fresh w.geo, ?_,
    Vol.fresh_files himage, ?_⟩
  · rw [hgeo]
    exact fat32Mount_congr hmount hu hsector
  · rintro rfl
    exact hshelf.fresh hu himage

/-- The image of a disk does not depend on the reserved sectors. -/
theorem imageOf_reserved {g : Geometry} (hg : g.Consistent) {disk disk' : Bytes}
    (hsame : ∀ i, 512 * g.fatStartLba ≤ i → disk' i = disk i) :
    imageOf g disk' = imageOf g disk := by
  have hfat : ∀ c, disk'.read32 (fatAddr g 0 c) = disk.read32 (fatAddr g 0 c) := by
    intro c
    apply readLE_congr
    intro i hi _
    apply hsame
    rw [fatAddr] at hi
    omega
  have hdata : ∀ c i, disk' (clusterAddr g c + i) = disk (clusterAddr g c + i) := by
    intro c i
    apply hsame
    have hle := Geometry.Consistent.data_le_cluster (g := g) (c := c)
    rw [hg.data_start] at hle
    omega
  simp only [imageOf, hfat, hdata]

/-- The disk of `treeVol` with a boot sector that describes it. -/
def bootVol : Vol :=
  { treeVol with
    mounted := false
    ata := { treeVol.ata with
      disk := ((((treeVol.ata.disk.write32 0x0B 0x01010200).write32 0x0F 0x0100).write32 0x13
        4).write32 0x24 1).write32 0x2C 2 } }

deriving instance DecidableEq for Geometry

theorem fat32Mount_bootVol : fat32Mount bootVol = (0, bootVol.fresh treeVol.geo) := by
  have hcode : (fat32Mount bootVol).1 = 0 := by decide +kernel
  have hgeo : (fat32Mount bootVol).2.geo = treeVol.geo := by decide +kernel
  rw [← hgeo, ← fat32Mount_congr (Prod.ext hcode rfl) (fun _ ↦ rfl) fun i _ ↦ ?_]
  exact congrFun (fat32Mount_disk (Prod.ext hcode rfl)).symm i

theorem bootVol_shelf : (bootVol.fresh treeVol.geo).Shelf := by
  refine treeVol_shelf.fresh (fun _ ↦ rfl) (imageOf_reserved treeVol_shelf.ready.geo ?_)
  intro i hi
  have hbehind : 512 ≤ i := hi
  simp only [bootVol]
  iterate 5 rw [write32_apply_of_notMem (by omega)]

/-- A file is created next to `D`, `D` is entered, and the disk is mounted again. -/
theorem remount_finds_files_tree : ∃ v w u, fat32Mount bootVol = (0, v) ∧
    serveAll [.op (.create [0x61]), .chdir [0x44]] v = .done ([.code 0, .code 0], w) ∧
    w.cwdCluster = 3 ∧ fat32Mount w = (0, u) ∧ u.files = { w.files with cwd := w.files.root } := by
  have hcodes : (serveAll [.op (.create [0x61]), .chdir [0x44]]
      (bootVol.fresh treeVol.geo)).value?.map (fun x ↦ (x.1, x.2.cwdCluster)) =
        some ([.code 0, .code 0], 3) := by decide +kernel
  obtain ⟨⟨replies, w⟩, hx, hcodes⟩ := Option.map_eq_some_iff.mp hcodes
  obtain ⟨rfl, hcwd⟩ := Prod.ext_iff.mp hcodes
  have hrun := Outcome.value?_eq_some.mp hx
  have hvalid : ∀ req ∈ [FileCall.op (.create [0x61]), .chdir [0x44]], req.Valid := by
    have hname : Valid83 [0x61] := IsPart.valid83 (by decide) (by decide)
    have hascii : Ascii [0x44] := by decide
    simp only [List.forall_mem_cons, List.not_mem_nil, false_implies, implies_true, and_true]
    exact ⟨⟨hname, by decide⟩, hascii⟩
  have hserves : Trace Serves (bootVol.fresh treeVol.geo)
      [(.op (.create [0x61]), .code 0), (.chdir [0x44], .code 0)] w := by
    cases answers_of_serveAll hvalid hrun with
    | cons hcreate hrest =>
        cases hrest with
        | cons hchdir hrest =>
            cases hrest with
            | nil =>
                refine .cons ⟨hcreate, ?_⟩ (.cons ⟨hchdir, id⟩ (.nil w))
                rintro ⟨name, data, size, p, old, hop, -⟩
                cases hop
  have hreliable : w.ata.Reliable :=
    (hserves.invariant (fun v x w hv hserves ↦ (hserves.step hv).1) bootVol_shelf).ready.reliable
  obtain ⟨-, u, hu, hfiles, -⟩ := remount_finds_files fat32Mount_bootVol bootVol_shelf (le_refl 1)
    hserves (Or.inl rfl) rfl hreliable
  exact ⟨_, w, u, fat32Mount_bootVol, hrun, hcwd, hu, hfiles⟩

end MyOS.Fat32
