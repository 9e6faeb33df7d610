import MyOS.Fat32.Image
import Mathlib.Data.List.TakeWhile

/-!
# The fields of a directory entry

What the setters of a directory entry do to its fields, and what the short name of a file
looks like.
-/

namespace MyOS.Fat32

open Bytes

namespace Dirent

variable {e : Dirent} {target : List UInt8} {a : UInt8} {c n off k : ℕ} {src : Bytes}

/-- Nothing stands behind the 32 bytes. -/
def Canonical (e : Dirent) : Prop := ∀ k, 32 ≤ k → e k = 0

theorem canonical_direntAt (sec : Bytes) (off : ℕ) : Canonical (Fat32.direntAt sec off) := by
  intro k hk
  rw [Fat32.direntAt, if_neg (by omega)]

theorem canonical_blank : Canonical blank := fun _ _ ↦ rfl

theorem Canonical.blit (h : Canonical e) (hoff : off + n ≤ 32) : Canonical (e.blit off n src) := by
  intro k hk
  rw [blit_apply_of_notMem (by omega), h k hk]

theorem Canonical.setCluster (h : Canonical e) : Canonical (setCluster e c) :=
  (h.blit (by norm_num)).blit (by norm_num)

theorem Canonical.setSize (h : Canonical e) : Canonical (setSize e n) := h.blit (by norm_num)

theorem Canonical.setName (h : Canonical e) : Canonical (setName e target) := h.blit (by norm_num)

theorem Canonical.setAttr (h : Canonical e) : Canonical (setAttr e a) := h.blit (by norm_num)

/-! ## Fields after a setter -/

theorem name_blit (hoff : 11 ≤ off) : name (e.blit off n src) = name e := by
  apply List.map_congr_left
  intro i hi
  have := List.mem_range.mp hi
  exact blit_apply_of_notMem (by omega)

@[simp] theorem name_setAttr : name (setAttr e a) = name e := name_blit (le_refl 11)

@[simp] theorem name_setCluster : name (setCluster e c) = name e :=
  (name_blit (by norm_num)).trans (name_blit (by norm_num))

@[simp] theorem name_setSize : name (setSize e n) = name e := name_blit (by norm_num)

theorem name_setName (ht : target.length = 11) : name (setName e target) = target := by
  apply List.ext_getElem
  · simp [name, ht]
  · intro i hi hi'
    have hlt : i < 11 := ht ▸ hi'
    simp [name, setName, Bytes.blit, hlt, List.getElem?_eq_getElem hi']

theorem attr_blit (hoff : off + n ≤ 11 ∨ 12 ≤ off) : attr (e.blit off n src) = attr e :=
  blit_apply_of_notMem (by omega)

@[simp] theorem attr_setAttr : attr (setAttr e a) = a := by
  rw [attr, setAttr, blit_apply (le_refl 11) (by norm_num)]

@[simp] theorem attr_setCluster : attr (setCluster e c) = attr e :=
  (attr_blit (by norm_num)).trans (attr_blit (by norm_num))

@[simp] theorem attr_setSize : attr (setSize e n) = attr e := attr_blit (by norm_num)

@[simp] theorem size_setSize (hn : n < 2 ^ 32) : size (setSize e n) = n :=
  read32_write32 hn

theorem start_eq (e : Dirent) : start e = clusterHi e * 2 ^ 16 + clusterLo e := by
  have hlo : clusterLo e < 2 ^ 16 := readLE_lt e 26 2
  rw [start, ← Nat.shiftLeft_add_eq_or_of_lt hlo, Nat.shiftLeft_eq]

theorem start_setCluster (hc : c < 2 ^ 32) : start (setCluster e c) = c := by
  have hlow : c &&& 0xFFFF = c % 2 ^ 16 := Nat.and_two_pow_sub_one_eq_mod c 16
  have hhigh : c >>> 16 &&& 0xFFFF = c / 2 ^ 16 % 2 ^ 16 := by
    rw [Nat.shiftRight_eq_div_pow]
    exact Nat.and_two_pow_sub_one_eq_mod _ 16
  have hhi : clusterHi (setCluster e c) = c / 2 ^ 16 := by
    rw [clusterHi, setCluster, read16, readLE_writeLE, hhigh]
    omega
  have hlo : clusterLo (setCluster e c) = c % 2 ^ 16 := by
    rw [clusterLo, setCluster, read16, readLE_writeLE_of_disjoint (by norm_num), readLE_writeLE,
      hlow]
    omega
  rw [start_eq, hhi, hlo]
  omega

@[simp] theorem start_setSize : start (setSize e n) = start e := by
  rw [start_eq, start_eq, clusterHi, clusterLo, setSize, read16, read16,
    readLE_writeLE_of_disjoint (by norm_num), readLE_writeLE_of_disjoint (by norm_num)]
  rfl

theorem first_eq_head (e : Dirent) : (name e).head? = some (first e) := by
  rfl

theorem isDirectory_congr {e' : Dirent} (h : attr e' = attr e) :
    isDirectory e' = isDirectory e := by
  rw [isDirectory, isDirectory, h]

theorem isDot_congr {e' : Dirent} (h : name e' = name e) : IsDot e' ↔ IsDot e := by
  rw [IsDot, IsDot, h]

theorem first_congr {e' : Dirent} (h : name e' = name e) : first e' = first e := by
  have hhead := congrArg List.head? h
  rw [first_eq_head, first_eq_head] at hhead
  exact Option.some.inj hhead

/-- Whether an entry is live depends on its name and attributes alone. -/
theorem live_congr {e' : Dirent} (hname : name e' = name e) (hattr : attr e' = attr e) :
    Live e' ↔ Live e := by
  rw [Live, Live, Used, Used, first_congr hname, hattr]

theorem first_of_dot (h : IsDot e) : first e = chDot := by
  have hhead := first_eq_head e
  rcases h with h | h
  · rw [h] at hhead
    exact (Option.some.inj hhead).symm
  · rw [h] at hhead
    exact (Option.some.inj hhead).symm

end Dirent

/-! ## New entries -/

section NewDirent

variable {target : List UInt8} {attr : UInt8} {cluster size : ℕ}

theorem canonical_newDirent : Dirent.Canonical (newDirent target attr cluster size) :=
  (((Dirent.canonical_blank.setName).setAttr).setCluster).setSize

theorem name_newDirent (ht : target.length = 11) :
    Dirent.name (newDirent target attr cluster size) = target := by
  rw [newDirent, Dirent.name_setSize, Dirent.name_setCluster, Dirent.name_setAttr,
    Dirent.name_setName ht]

theorem attr_newDirent : Dirent.attr (newDirent target attr cluster size) = attr := by
  rw [newDirent, Dirent.attr_setSize, Dirent.attr_setCluster, Dirent.attr_setAttr]

theorem start_newDirent (hc : cluster < 2 ^ 32) :
    Dirent.start (newDirent target attr cluster size) = cluster := by
  rw [newDirent, Dirent.start_setSize, Dirent.start_setCluster hc]

theorem size_newDirent (hn : size < 2 ^ 32) :
    Dirent.size (newDirent target attr cluster size) = size := by
  rw [newDirent, Dirent.size_setSize hn]

end NewDirent

/-! ## Short names -/

/-- A string of seven-bit characters. -/
def Ascii (name : List UInt8) : Prop := ∀ b ∈ name, b ≠ 0 ∧ b < 0x80

instance (name : List UInt8) : Decidable (Ascii name) :=
  inferInstanceAs (Decidable (∀ b ∈ name, b ≠ 0 ∧ b < 0x80))

theorem padTo_length {n : ℕ} {l : List UInt8} (h : l.length ≤ n) : (padTo n l).length = n := by
  rw [padTo, List.length_append, List.length_replicate]
  omega

theorem toShortName_length (name : List UInt8) : (toShortName name).length = 11 := by
  rw [toShortName, List.length_append, padTo_length (by simp), padTo_length (by simp)]

theorem toUpper_eq_zero : ∀ b : UInt8, toUpper b = 0 ↔ b = 0 := by
  apply forall_byte
  decide +kernel

theorem toUpper_eq_deleted : ∀ b : UInt8, toUpper b = 0xE5 ↔ b = 0xE5 := by
  apply forall_byte
  decide +kernel

theorem toUpper_eq_dot : ∀ c : UInt8, toUpper c = chDot ↔ c = chDot := by
  apply forall_byte
  decide +kernel

/-- A short name that the driver makes is no dot name.  It is not free, and it is deleted only if
the name starts that way. -/
theorem toShortName_head (name : List UInt8) :
    ∃ b, (toShortName name).head? = some b ∧ b ≠ chDot ∧ (0 ∉ name → b ≠ 0) ∧
      (0xE5 ∉ name → b ≠ 0xE5) := by
  rw [toShortName]
  cases hbase : name.takeWhile (· ≠ chDot) with
  | nil =>
      exact ⟨chSpace, by simp [padTo, List.replicate], by decide, fun _ ↦ by decide,
        fun _ ↦ by decide⟩
  | cons b rest =>
      have hmem : b ∈ name.takeWhile (· ≠ chDot) := hbase ▸ List.mem_cons_self
      have hdot : b ≠ chDot := by simpa using List.mem_takeWhile_imp hmem
      have hname : b ∈ name := List.takeWhile_subset _ hmem
      refine ⟨toUpper b, by simp [padTo], fun h ↦ hdot ((toUpper_eq_dot b).mp h),
        fun hnul h ↦ hnul ?_, fun hdel h ↦ hdel ?_⟩
      · rwa [← (toUpper_eq_zero b).mp h]
      · rwa [← (toUpper_eq_deleted b).mp h]

theorem not_dot_of_shortName {e : Dirent} {name : List UInt8}
    (hname : e.name = toShortName name) : ¬e.IsDot := by
  obtain ⟨b, hhead, hdot, -⟩ := toShortName_head name
  intro hisDot
  rw [← hname, Dirent.first_eq_head, Dirent.first_of_dot hisDot] at hhead
  exact hdot (Option.some.inj hhead).symm

/-- An entry with a name that the driver has made is live or looks like a deleted one. -/
theorem live_or_deleted {e : Dirent} {name : List UInt8} (hnul : 0 ∉ name)
    (hname : e.name = toShortName name) (hattr : e.attr = 0x20 ∨ e.attr = fatAttrDirectory) :
    e.Live ∨ e.first = 0xE5 ∧ 0xE5 ∈ name := by
  obtain ⟨b, hhead, -, hzero, hdeleted⟩ := toShortName_head name
  have hfirst : e.first = b := by
    rw [← hname, Dirent.first_eq_head] at hhead
    exact Option.some.inj hhead
  by_cases hdel : e.first = 0xE5
  · refine Or.inr ⟨hdel, ?_⟩
    by_contra hmem
    exact hdeleted hmem (hfirst ▸ hdel)
  · refine Or.inl ⟨⟨hfirst ▸ hzero hnul, hdel⟩, ?_⟩
    rcases hattr with hattr | hattr <;> rw [hattr] <;> decide

theorem live_of_shortName {e : Dirent} {name : List UInt8} (h : Ascii name)
    (hname : e.name = toShortName name) (hattr : e.attr = 0x20 ∨ e.attr = fatAttrDirectory) :
    e.Live ∧ ¬e.IsDot := by
  have hnul : 0 ∉ name := fun hmem ↦ (h 0 hmem).1 rfl
  refine ⟨?_, not_dot_of_shortName hname⟩
  rcases live_or_deleted hnul hname hattr with hlive | ⟨-, hmem⟩
  · exact hlive
  · exact absurd (h _ hmem).2 (by decide)

section Stored

variable {name target : List UInt8} {attr : UInt8} {cluster size : ℕ}

theorem shortName_newDirent :
    Dirent.name (newDirent (toShortName name) attr cluster size) = toShortName name :=
  name_newDirent (toShortName_length name)

/-- The entry of a new file or directory is live. -/
theorem live_newDirent (h : Ascii name) (hattr : attr = 0x20 ∨ attr = fatAttrDirectory) :
    (newDirent (toShortName name) attr cluster size).Live :=
  (live_of_shortName h shortName_newDirent (attr_newDirent ▸ hattr)).1

theorem file_newDirent : Dirent.isDirectory (newDirent target 0x20 cluster size) = false := by
  rw [Dirent.isDirectory, attr_newDirent]
  decide

theorem directory_newDirent :
    Dirent.isDirectory (newDirent target fatAttrDirectory cluster size) = true := by
  rw [Dirent.isDirectory, attr_newDirent]
  decide

end Stored

end MyOS.Fat32
