import MyOS.Fat32.Integrity
import MyOS.Fat32.Read

/-!
# Calls that fail

A call that returns -1 has left every entry and every file as it was, with one exception.
`fat32_write_file` releases the old chain of a file before it knows whether the new contents
fit.  When they do not, it returns -1 and the entry still names the clusters it has released.
-/

namespace MyOS.Fat32

open Image

variable {v v' : Vol} {I J : Image} {op : Op} {l m old new N : List ℕ} {p q : Pos} {d c : ℕ} {r : ℤ}

/-! ## Images that differ in free clusters only -/

theorem Scratched.agree (h : Scratched I J N) : Agree I.Owned I J where
  total := h.total
  slots := h.slots
  root := h.root
  fat := fun c _ ↦ congrFun h.fat c
  data := fun c hc ↦ h.data_other c fun hN ↦ fat_ne_zero_of_owned hc (h.free c hN).2.2

theorem scratched_refl (I : Image) : Scratched I I [] :=
  ⟨rfl, rfl, rfl, rfl, nofun, fun _ _ ↦ rfl⟩

/-! ## Unharmed volumes -/

/-- The call is a `fat32_write_file` on a file with a chain, for whose new contents the free
clusters and the chain together have no room. -/
def Op.RunsOut (op : Op) (v : Vol) : Prop :=
  ∃ name data size p old, op = .writeFile name data size ∧
    v.image.Named v.cwdCluster (toShortName name) p ∧ (v.image.entry p).isDirectory = false ∧
    v.image.EntryChain p old ∧ old ≠ [] ∧
    (v.image.release old).freeClusters.length * (32 * v.image.slots) < size

/-- Unless it runs out of room for an old file, a call scratches free clusters at most, or it
succeeds. -/
theorem Op.Ends.effect (hends : op.Ends v v' l r) (hl : v.image.Chain v.cwdCluster l)
    (hnot : ¬op.RunsOut v) : r = -1 ∧ (∃ N, Scratched v.image v'.image N) ∨
      r = 0 ∧ ∃ p old new, op.Edits v v' l p old new := by
  rcases hends with ⟨hr, himage⟩ | ⟨hr, p, old, new, hfull⟩ | hedit
  · refine Or.inl ⟨hr, [], ?_⟩
    rw [himage]
    exact scratched_refl v.image
  · have hscratch := hfull.scratched
    have hold : old = [] := by
      by_contra hne
      obtain ⟨name, data, size, rfl, hroom⟩ := hfull.full
      rcases hfull.site.owned with ⟨hentry, hold⟩ | ⟨-, hnil⟩
      · obtain ⟨-, -, -, -, -, hlive, -⟩ := hentry
        exact hnot ⟨name, data, size, p, old, rfl, ⟨l, hl, hfull.site.mem, hlive,
          (hfull.file hlive).2.1⟩, (hfull.file hlive).1, hold, hne, hroom⟩
      · exact hne hnil
    have hsame : v.image.release [] = v.image := by simp [release]
    rw [hold, hsame] at hscratch
    exact Or.inl ⟨hr, new, hscratch⟩
  · exact Or.inr hedit

/-- So the volume is sound afterwards. -/
theorem Op.Ends.sound (hends : op.Ends v v' l r) (h : v.Sound)
    (hl : v.image.Chain v.cwdCluster l) (hnot : ¬op.RunsOut v) (hv' : v'.Ready)
    (hkeep : Keeps v v') : v'.Sound := by
  rcases hends.effect hl hnot with ⟨-, N, hscratch⟩ | ⟨-, p, old, new, hedit⟩
  · refine ⟨hv', hscratch.agree.intact h.wf, ?_⟩
    rw [hkeep.cwd]
    exact (hscratch.agree.isDir_iff h.wf).mpr h.cwd
  · refine ⟨hv', hedit.intact, ?_⟩
    rw [hkeep.cwd]
    exact hedit.isDir_dir

theorem Op.effect_of_run (h : v.Sound) (hl : v.image.Chain v.cwdCluster l) (hop : op.Valid)
    (hnot : ¬op.RunsOut v) (hrun : op.run v = .done (r, v')) :
    v'.Ready ∧ Keeps v v' ∧ (r = -1 ∧ (∃ N, Scratched v.image v'.image N) ∨
      r = 0 ∧ ∃ p old new, op.Edits v v' l p old new) := by
  obtain ⟨hv', hkeep, hends⟩ := Op.ends_of_run h hl hop hrun
  exact ⟨hv', hkeep, hends.effect hl hnot⟩

/-- A volume of two clusters; the second one is that of the one-byte file `A`. -/
def fullVol : Vol :=
  smallVol 2 [(2, 0x0FFFFFFF), (3, 0x0FFFFFFF)] [((2, 0), newDirent (padTo 11 [0x41]) 0x20 3 1)]

theorem fullVol_fits : fullVol.image.Fits ⟨[2], [((2, 0), [3])]⟩ := by
  decide +kernel

theorem fullVol_sound : fullVol.Sound :=
  ⟨smallVol_ready (by norm_num) _ _, fullVol_fits.wellFormed.toIntact, .root⟩

end MyOS.Fat32
