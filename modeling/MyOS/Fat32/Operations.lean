import MyOS.Fat32.Dirent
import MyOS.Fat32.Scan

/-!
# What each operation does to the image

A call of `fat32_create`, `fat32_write_file`, `fat32_remove`, `fat32_mkdir` or `fat32_rmdir`
on a drive without failures always returns.  It leaves the image alone, or it makes one
edit of the working directory.
-/

namespace MyOS.Fat32

open Bytes Image

inductive Op where
  | create (name : List UInt8)
  | writeFile (name : List UInt8) (data : Bytes) (size : ℕ)
  | remove (name : List UInt8)
  | mkdir (name : List UInt8)
  | rmdir (name : List UInt8)

namespace Op

def name : Op → List UInt8
  | create name => name
  | writeFile name _ _ => name
  | remove name => name
  | mkdir name => name
  | rmdir name => name

def run : Op → Vol → Outcome (ℤ × Vol)
  | create name, v => fat32Create v name
  | writeFile name data size, v => fat32WriteFile v name data size
  | remove name, v => fat32Remove v name
  | mkdir name, v => fat32Mkdir v name
  | rmdir name, v => fat32Rmdir v name

def size : Op → ℕ
  | writeFile _ _ size => size
  | _ => 0

/-- The calls that take an entry away. -/
def Takes : Op → Prop
  | remove _ => True
  | rmdir _ => True
  | _ => False

/-- The name is an ASCII string, and the size is a 32-bit word. -/
def Valid (op : Op) : Prop := Ascii op.name ∧ op.size < 2 ^ 32

instance (op : Op) : Decidable op.Valid := inferInstanceAs (Decidable (_ ∧ _))

end Op

/-- Slot `p` of directory `d` holds a live entry with the short name `target`. -/
def Image.Named (I : Image) (d : ℕ) (target : List UInt8) (p : Pos) : Prop :=
  ∃ l, I.Chain d l ∧ p ∈ I.slotsOf l ∧ (I.entry p).Live ∧ (I.entry p).name = target

/-- No live entry of the working directory has this short name. -/
def Vol.Lacks (v : Vol) (target : List UInt8) : Prop :=
  ∀ p, ¬v.image.Named v.cwdCluster target p

/-- The working directory has a slot for a new entry. -/
def Vol.HasRoom (v : Vol) : Prop :=
  ∃ l p, v.image.Chain v.cwdCluster l ∧ p ∈ v.image.slotsOf l ∧ ¬(v.image.entry p).Used

/-- What a call needs to succeed. -/
def Op.Possible (v : Vol) : Op → Prop
  | .create name => v.Lacks (toShortName name) ∧ v.HasRoom
  | .writeFile name _ size =>
      ∃ old, size ≤ (v.image.release old).freeClusters.length * (32 * v.image.slots) ∧
        ((∃ p, v.image.Named v.cwdCluster (toShortName name) p ∧
            (v.image.entry p).isDirectory = false ∧ v.image.EntryChain p old) ∨
          v.Lacks (toShortName name) ∧ v.HasRoom ∧ old = [])
  | .remove name =>
      ∃ p, v.image.Named v.cwdCluster (toShortName name) p ∧ (v.image.entry p).isDirectory = false
  | .mkdir name => v.Lacks (toShortName name) ∧ v.HasRoom ∧ v.image.freeClusters ≠ []
  | .rmdir name =>
      name ≠ [chDot] ∧ name ≠ [chDot, chDot] ∧
        ∃ p m, v.image.Named v.cwdCluster (toShortName name) p ∧
          (v.image.entry p).isDirectory = true ∧ v.image.EntryChain p m ∧
          ∀ q ∈ v.image.slotsOf m, (v.image.entry q).Live → (v.image.entry q).DotLike

/-- An intact volume, ready for use, with a live working directory. -/
structure Vol.Sound (v : Vol) : Prop where
  ready : v.Ready
  wf : v.image.Intact
  cwd : v.image.IsDir v.cwdCluster

variable {v v' : Vol} {I I' J : Image} {l old new N : List ℕ} {p q : Pos} {d : ℕ}
  {name target : List UInt8}

/-- Two entries of the working directory with one name are the same. -/
theorem Vol.Sound.named_unique (h : v.Sound) {q : Pos}
    (hp : v.image.Named v.cwdCluster target p) (hq : v.image.Named v.cwdCluster target q) :
    p = q := by
  obtain ⟨l, hl, hpl, hplive, hpname⟩ := hp
  obtain ⟨l', hl', hql, hqlive, hqname⟩ := hq
  obtain rfl := hl'.unique h.wf.small hl
  exact h.wf.names _ _ p q h.cwd hl hpl hql hplive hqlive (hpname.trans hqname.symm)

theorem Vol.Sound.lacks (h : v.Sound) (hl : v.image.Chain v.cwdCluster l)
    (hnew : ∀ p ∈ v.image.slotsOf l, (v.image.entry p).Live → (v.image.entry p).name ≠ target) :
    v.Lacks target := by
  rintro p ⟨l', hl', hp, hlive, hname⟩
  obtain rfl := hl'.unique h.wf.small hl
  exact hnew p hp hlive hname

/-- No slot is left once a search has found every one of them in use. -/
theorem Vol.Sound.not_hasRoom (h : v.Sound) (hl : v.image.Chain v.cwdCluster l)
    (hfull : ∀ p ∈ v.image.slotsOf l, (v.image.entry p).Used) : ¬v.HasRoom := by
  rintro ⟨l', p, hl', hp, hunused⟩
  obtain rfl := hl'.unique h.wf.small hl
  exact hunused (hfull p hp)

theorem hasSlot_of_mem {s : ℕ} (hl : v.image.Chain s l) (hp : p ∈ v.image.slotsOf l) :
    v.HasSlot p := by
  obtain ⟨hmem, hslot⟩ := mem_slotsOf.mp hp
  exact ⟨(hl.range _ hmem).1, (hl.range _ hmem).2, hslot⟩

/-! ## Slots of a patched image -/

namespace Image

theorem patch_data_other {n : ℕ} (src : Bytes) (hn : n ≤ 32) {c i : ℕ} (h : (c, i / 32) ≠ p) :
    (I.patch p.1 (32 * p.2) n src).data c i = I.data c i := by
  simp only [patch]
  by_cases hc : c = p.1
  · subst hc
    have hslot : i / 32 ≠ p.2 := fun hslot ↦ h (Prod.ext rfl hslot)
    rw [Function.update_self]
    apply blit_apply_of_notMem
    omega
  · rw [Function.update_of_ne hc]

theorem patch_entry {n : ℕ} (I : Image) (p : Pos) (src : Bytes) (hn : n ≤ 32) :
    (I.patch p.1 (32 * p.2) n src).entry p = (I.entry p).blit 0 n src := by
  funext k
  have hdata : (I.patch p.1 (32 * p.2) n src).data p.1 = (I.data p.1).blit (32 * p.2) n src :=
    Function.update_self _ _ _
  rw [entry, entry, hdata]
  by_cases hkn : k < n
  · rw [blit_apply (Nat.zero_le k) (by omega), direntAt, if_pos (by omega),
      blit_apply (by omega) (by omega)]
    congr 1
    omega
  · rw [blit_apply_of_notMem (i := k) (by omega), direntAt, direntAt]
    by_cases hk : k < 32
    · rw [if_pos hk, if_pos hk, blit_apply_of_notMem (by omega)]
    · rw [if_neg hk, if_neg hk]

/-- A slot that is overwritten holds the new entry. -/
theorem patch_entry_dirent (I : Image) (p : Pos) {e : Dirent} (he : e.Canonical) :
    (I.patch p.1 (32 * p.2) 32 e).entry p = e := by
  rw [patch_entry I p e (le_refl 32)]
  funext k
  by_cases hk : k < 32
  · rw [blit_apply (Nat.zero_le k) (by omega), Nat.sub_zero]
  · rw [blit_apply_of_notMem (by omega), he k (by omega)]
    exact Dirent.canonical_direntAt _ _ k (by omega)

theorem patch_entry_deleted (I : Image) (p : Pos) :
    ((I.patch p.1 (32 * p.2) 1 fun _ ↦ 0xE5).entry p).first = 0xE5 := by
  rw [patch_entry I p _ (by norm_num), Dirent.first, blit_apply (le_refl 0) (by norm_num)]

/-- `J` is `I` with the chain `old` released and the clusters `new` filled. -/
structure Rechained (I J : Image) (old new : List ℕ) : Prop where
  total : J.total = I.total
  slots : J.slots = I.slots
  root : J.root = I.root
  fat_other : ∀ c, c ∉ old → c ∉ new → J.fat c = I.fat c
  fat_freed : ∀ c ∈ old, c ∉ new → J.fat c = 0
  fresh : ∀ c ∈ new, c ∈ old ∨ I.fat c = 0
  data_other : ∀ c, c ∉ new → J.data c = I.data c

theorem rechained_refl (I : Image) : Rechained I I [] [] :=
  ⟨rfl, rfl, rfl, fun _ _ _ ↦ rfl, nofun, nofun, fun _ _ ↦ rfl⟩

theorem rechained_release (I : Image) (old : List ℕ) : Rechained I (I.release old) old [] where
  total := rfl
  slots := rfl
  root := rfl
  fat_other := fun _ hold _ ↦ if_neg hold
  fat_freed := fun _ hold _ ↦ if_pos hold
  fresh := nofun
  data_other := fun _ _ ↦ rfl

theorem release_fat_eq_zero {c : ℕ} (h : (I.release old).fat c = 0) : c ∈ old ∨ I.fat c = 0 := by
  by_cases hc : c ∈ old
  · exact Or.inl hc
  · exact Or.inr (by simpa [release, hc] using h)

theorem Rechained.filled {data : Bytes} {size : ℕ} (h : Filled (I.release old) J N data size) :
    Rechained I J old N where
  total := h.total
  slots := h.slots
  root := h.root
  fat_other := fun c hold hnew ↦ (h.fat_other c hnew).trans (if_neg hold)
  fat_freed := fun c hold hnew ↦ (h.fat_other c hnew).trans (if_pos hold)
  fresh := fun c hc ↦ release_fat_eq_zero (h.free c hc).2.2
  data_other := h.data_other

theorem Rechained.scratched (h : Scratched (I.release old) J N) : Rechained I J old N where
  total := h.total
  slots := h.slots
  root := h.root
  fat_other := fun c hold _ ↦ by
    rw [h.fat]
    exact if_neg hold
  fat_freed := fun c hold _ ↦ by
    rw [h.fat]
    exact if_pos hold
  fresh := fun c hc ↦ release_fat_eq_zero (h.free c hc).2.2
  data_other := h.data_other

/-- Where an edit takes place: slot `p` of directory `d`, whose entry has the chain `old`. -/
structure Site (I : Image) (d : ℕ) (l : List ℕ) (p : Pos) (old : List ℕ) : Prop where
  wf : I.Intact
  dir : I.IsDir d
  chain : I.Chain d l
  mem : p ∈ I.slotsOf l
  owned : I.Owns (some p) old ∨ ¬(I.entry p).Live ∧ old = []

theorem Site.edit (h : Site I d l p old) (hre : Rechained I J old new)
    (hfile : (I.entry p).Live → (I.entry p).isDirectory = true → new = []) {n : ℕ} (src : Bytes)
    (hn : n ≤ 32) : Edit I (J.patch p.1 (32 * p.2) n src) d l p old new :=
  ⟨h.wf, h.dir, h.chain, h.mem, h.owned, hfile, hre.total, hre.slots, hre.root, hre.fat_other,
    hre.fat_freed, hre.fresh, fun c i hc hslot ↦ by
      rw [patch_data_other src hn hslot, hre.data_other c hc]⟩

/-- Releasing the chain of the entry and marking it deleted. -/
theorem Site.tidy_deleted (h : Site I d l p old) :
    Tidy I ((I.release old).patch p.1 (32 * p.2) 1 fun _ ↦ 0xE5) d l p old [] :=
  ⟨h.edit (rechained_release _ _) (fun _ _ ↦ rfl) _ (by norm_num),
    Or.inl ⟨patch_entry_deleted _ _, rfl⟩⟩

/-- The clusters of the edited directory keep their links and their other slots. -/
theorem Site.dir_disjoint (h : Site I d l p old) (hre : Rechained I J old new) :
    p.1 ∉ old ∧ p.1 ∉ new := by
  have hpl : p.1 ∈ l := (mem_slotsOf.mp h.mem).1
  have hold : p.1 ∉ old := by
    rcases h.owned with hown | ⟨-, rfl⟩
    · exact h.wf.entry_notMem_chain h.dir h.chain hpl hown hpl
    · simp
  refine ⟨hold, fun hnew ↦ ?_⟩
  rcases hre.fresh _ hnew with hmem | hfree
  · exact hold hmem
  · exact h.chain.fat_ne_zero hpl hfree

/-- A free slot, found as the first one. -/
theorem Site.of_free {pre post : List Pos} (hwf : I.Intact) (hd : I.IsDir d)
    (hl : I.Chain d l) (hsplit : I.slotsOf l = pre ++ p :: post) (hfree : ¬(I.entry p).Used) :
    Site I d l p [] :=
  ⟨hwf, hd, hl, by simp [hsplit], Or.inr ⟨fun hlive ↦ hfree hlive.1, rfl⟩⟩

/-- The slot of a live entry. -/
theorem Site.of_entry (hwf : I.Intact) (hd : I.IsDir d) (hl : I.Chain d l)
    (hp : p ∈ I.slotsOf l) (hlive : (I.entry p).Live) (hdot : ¬(I.entry p).IsDot) :
    ∃ old, I.EntryChain p old ∧ Site I d l p old := by
  have hentry : I.IsEntry p := .of_mem hd hl hp hlive hdot
  obtain ⟨old, hold⟩ := hwf.entry_chain p hentry
  exact ⟨old, hold, hwf, hd, hl, hp, Or.inl ⟨hentry, hold⟩⟩

/-- The slots before a used one hold no end mark. -/
theorem before_used (hends : I.Ended l) (hp : p ∈ I.slotsOf l) (hused : (I.entry p).Used) :
    ∃ pre post, I.slotsOf l = pre ++ p :: post ∧ ∀ q ∈ pre, (I.entry q).first ≠ 0 := by
  obtain ⟨pre, post, hsplit⟩ := List.append_of_mem hp
  refine ⟨pre, post, hsplit, fun q hq hzero ↦ ?_⟩
  rw [Ended, hsplit] at hends
  exact (List.pairwise_append.mp hends).2.2 q hq p List.mem_cons_self hzero hused

end Image

/-! ## The effect of a call -/

/-- The first two entries of directory `c` are `.`, which names `c` itself, and `..`, which
names its parent `d`; the root is named by 0. -/
structure Image.LinkedAt (I : Image) (d c : ℕ) : Prop where
  dot_live : (I.entry (c, 0)).Live
  dot_name : (I.entry (c, 0)).name = dotName
  dot_start : (I.entry (c, 0)).start = c
  dotdot_live : (I.entry (c, 1)).Live
  dotdot_name : (I.entry (c, 1)).name = dotdotName
  dotdot_start : (I.entry (c, 1)).start = if d = I.root then 0 else d

/-- What a successful call does: it edits the slot of its name, and only `fat32_rmdir` takes a
directory away. -/
structure Op.Edits (op : Op) (v v' : Vol) (l : List ℕ) (p : Pos) (old new : List ℕ) : Prop
    extends Tidy v.image v'.image v.cwdCluster l p old new where
  name_before : (v.image.entry p).Live → (v.image.entry p).name = toShortName op.name
  name_after : (v'.image.entry p).Live → (v'.image.entry p).name = toShortName op.name
  live : (v.image.entry p).Live ∨ (v'.image.entry p).Live
  unused : (v.image.entry p).Live ∨ ¬(v.image.entry p).Used
  stored : op.Takes ∨ (v'.image.entry p).Live
  linked : (v'.image.entry p).Live → (v'.image.entry p).isDirectory = true →
    v'.image.LinkedAt v.cwdCluster (v'.image.entry p).start
  gone : ((v.image.entry p).Live → (v.image.entry p).isDirectory = false) ∨
    op = .rmdir op.name ∧ v.image.IsEntry p ∧ (v.image.entry p).isDirectory = true ∧
      v.image.EntryChain p old

section Edits

variable {op : Op} (htidy : Tidy v.image v'.image v.cwdCluster l p old new)

include htidy

/-- A name has been stored. -/
theorem Op.Edits.of_stored (hfile : (v.image.entry p).Live →
      (v.image.entry p).isDirectory = false ∧ (v.image.entry p).name = toShortName op.name)
    (hunused : (v.image.entry p).Live ∨ ¬(v.image.entry p).Used)
    (hname : (v'.image.entry p).name = toShortName op.name) (hlive : (v'.image.entry p).Live)
    (hlinked : (v'.image.entry p).isDirectory = true →
      v'.image.LinkedAt v.cwdCluster (v'.image.entry p).start) : op.Edits v v' l p old new :=
  ⟨htidy, fun h ↦ (hfile h).2, fun _ ↦ hname, Or.inr hlive, hunused, Or.inr hlive,
    fun _ ↦ hlinked, Or.inl fun h ↦ (hfile h).1⟩

/-- A name has been taken away. -/
theorem Op.Edits.of_deleted (htakes : op.Takes) (hlive : (v.image.entry p).Live)
    (hname : (v.image.entry p).name = toShortName op.name)
    (hdeleted : (v'.image.entry p).first = 0xE5)
    (hgone : (v.image.entry p).isDirectory = false ∨ op = .rmdir op.name ∧ v.image.IsEntry p ∧
      (v.image.entry p).isDirectory = true ∧ v.image.EntryChain p old) :
    op.Edits v v' l p old new :=
  ⟨htidy, fun _ ↦ hname, fun h ↦ absurd hdeleted h.1.2, Or.inl hlive, Or.inl hlive,
    Or.inl htakes, fun h ↦ absurd hdeleted h.1.2, hgone.imp_left fun h _ ↦ h⟩

end Edits

theorem onlyDots_of_file (h : (v.image.entry p).Live → (v.image.entry p).isDirectory = false) :
    OnlyDots v.image p old := by
  intro hlive hdir
  rw [h hlive] at hdir
  cases hdir

/-! ## Files -/

theorem Vol.Sound.ended (h : v.Sound) (hl : v.image.Chain v.cwdCluster l) : v.image.Ended l :=
  h.wf.ends _ l h.cwd hl

/-- The edit that puts a file entry into a slot. -/
theorem tidy_file {e : Dirent} (hsite : Site I d l p old) (hre : Rechained I J old new)
    (hfile : (I.entry p).Live → (I.entry p).isDirectory = false) (he : e.Canonical)
    (hlive : e.Live) (hdot : ¬e.IsDot) (hattr : e.isDirectory = false)
    (hchain : J.Chain e.start new ∨ new = [] ∧ e.start = 0 ∧ e.size = 0)
    (hsize : e.size ≤ new.length * (32 * I.slots))
    (hname : ∀ q ∈ I.slotsOf l, q ≠ p → (I.entry q).Live → (I.entry q).name ≠ e.name)
    (hbefore : ∃ pre post, I.slotsOf l = pre ++ p :: post ∧ ∀ q ∈ pre, (I.entry q).first ≠ 0) :
    Tidy I (J.patch p.1 (32 * p.2) 32 e) d l p old new := by
  have hentry := patch_entry_dirent J p he
  have hnodir : (I.entry p).Live → (I.entry p).isDirectory = true → new = [] := by
    intro hl hd
    rw [hfile hl] at hd
    cases hd
  have hisDir : ((J.patch p.1 (32 * p.2) 32 e).entry p).isDirectory = true → False := by
    rw [hentry, hattr]
    nofun
  refine ⟨hsite.edit hre hnodir e (le_refl 32), Or.inr ⟨by rwa [hentry], by rwa [hentry], ?_, ?_,
    ?_, hbefore, fun hd ↦ (hisDir hd).elim, fun hd ↦ (hisDir hd).elim,
    fun hd ↦ (hisDir hd).elim⟩⟩
  · rw [EntryChain, hentry]
    rcases hchain with hchain | ⟨rfl, hstart, hempty⟩
    · exact Or.inl (hchain.congr rfl fun _ _ ↦ rfl)
    · exact Or.inr ⟨rfl, hattr, hstart, hempty⟩
  · intro _
    rw [hentry]
    exact hsize.trans_eq (by rw [← hre.slots]; rfl)
  · rw [hentry]
    exact hname

/-- An entry whose start is below 2 has no chain. -/
theorem Image.EntryChain.cases (h : I.EntryChain p l) :
    2 ≤ (I.entry p).start ∧ I.Chain (I.entry p).start l ∨
      (I.entry p).start < 2 ∧ l = [] := by
  rcases h with h | ⟨rfl, -, hstart, -⟩
  · exact Or.inl ⟨(h.range _ h.start_mem).1, h⟩
  · exact Or.inr ⟨by omega, rfl⟩

/-- Releasing the chain of an entry, if it has one, and going on. -/
theorem freeEntry_spec (hv : v.Ready) (hold : v.image.EntryChain p old) :
    ∃ v', (∀ {β : Type} (k : Vol → Outcome β), (if 2 ≤ (v.image.entry p).start then
        freeChain v (v.image.entry p).start >>= k else pure v >>= k) = k v') ∧
      v'.Ready ∧ Keeps v v' ∧ v'.image = v.image.release old := by
  rcases hold.cases with ⟨hstart, hchain⟩ | ⟨hstart, rfl⟩
  · obtain ⟨v', hfree, hv', hkeep, -, himage⟩ := freeChain_spec hv hchain
    refine ⟨v', fun k ↦ ?_, hv', hkeep, himage⟩
    rw [if_pos hstart, hfree, Outcome.done_bind]
  · refine ⟨v, fun k ↦ ?_, hv, .refl v, ?_⟩
    · rw [if_neg (by omega), Outcome.pure_eq_done, Outcome.done_bind]
    · simp [release]

section Later

variable (hv' : v'.Ready) (hkeep : Keeps v v') (hslot : v.HasSlot p)

include hkeep

theorem lookAt_later : (v'.lookAt p).lba = (v.lookAt p).lba ∧
    (v'.lookAt p).offset = (v.lookAt p).offset := by
  refine ⟨?_, rfl⟩
  rw [Vol.lookAt, Vol.lookAt, hkeep.geo]

include hslot

theorem hasSlot_later : v'.HasSlot p :=
  ⟨hslot.lo, by rw [hkeep.geo]; exact hslot.hi, by rw [hkeep.geo]; exact hslot.slot⟩

include hv'

/-- The place a scan has found can still be marked after the volume has changed. -/
theorem markDeleted_later :
    ∃ v'', markDeleted v' (v.lookAt p).lba (v.lookAt p).offset = (true, v'') ∧ v''.Ready ∧
      Keeps v v'' ∧ v''.image = v'.image.patch p.1 (32 * p.2) 1 fun _ ↦ 0xE5 := by
  obtain ⟨v'', hmark, hv'', hkeep', -, himage⟩ := markDeleted_spec hv'
    (hasSlot_later hkeep hslot)
  rw [(lookAt_later hkeep).1, (lookAt_later hkeep).2] at hmark
  exact ⟨v'', hmark, hv'', hkeep.trans hkeep', himage⟩

theorem writeDirent_later (e : Dirent) :
    ∃ v'', writeDirent v' (v.lookAt p).lba (v.lookAt p).offset e = (true, v'') ∧ v''.Ready ∧
      Keeps v v'' ∧ v''.image = v'.image.patch p.1 (32 * p.2) 32 e := by
  obtain ⟨v'', hwrite, hv'', hkeep', -, himage⟩ := writeDirent_spec hv'
    (hasSlot_later hkeep hslot) e
  rw [(lookAt_later hkeep).1, (lookAt_later hkeep).2] at hwrite
  exact ⟨v'', hwrite, hv'', hkeep.trans hkeep', himage⟩

end Later

/-- What `fat32_create` does: nothing, or it puts an empty file into the first free slot. -/
theorem fat32Create_spec (h : v.Sound) (hl : v.image.Chain v.cwdCluster l) (name : List UInt8) :
    ∃ r v', fat32Create v name = .done (r, v') ∧ v'.Ready ∧ Keeps v v' ∧
      (r = -1 ∧ ¬(Op.create name).Possible v ∧ v'.image = v.image ∨
        r = 0 ∧ (Op.create name).Possible v ∧ ∃ p, ¬(v.image.entry p).Used ∧
          v'.image.entry p = newDirent (toShortName name) 0x20 0 0 ∧
          (Ascii name → (Op.create name).Edits v v' l p [] [])) := by
  obtain ⟨found, v₁, hsearch, hq₁, hv₁, hfound⟩ := searchDir_spec h.ready hl (h.ended hl)
    (toShortName name)
  rw [fat32Create, if_pos h.ready.mounted]
  simp only [hsearch, Outcome.done_bind]
  rcases hfound with ⟨rfl, hnew⟩ | ⟨p, hp, rfl, hlive, htarget⟩
  · obtain ⟨slot, v₂, hfree, hq, hv₂, hslot⟩ := findFreeDirentIn_spec hq₁ hv₁ hl
    simp only [hfree, Outcome.done_bind]
    rcases hslot with ⟨rfl, hfull⟩ | ⟨pre, p, post, rfl, hsplit, hunused, hpre⟩
    · exact ⟨-1, v₂, rfl, hv₂, hq.toKeeps, Or.inl ⟨rfl,
        fun hposs ↦ h.not_hasRoom hl hfull hposs.2, hq.image⟩⟩
    · have hp : p ∈ v.image.slotsOf l := by simp [hsplit]
      obtain ⟨v₃, hwrite, hv₃, hkeep, himage⟩ := writeDirent_later hv₂ hq.toKeeps
        (hasSlot_of_mem hl hp) (newDirent (toShortName name) 0x20 0 0)
      rw [hq.image] at himage
      simp only [hwrite, Outcome.pure_eq_done]
      have hentry : v₃.image.entry p = newDirent (toShortName name) 0x20 0 0 := by
        rw [himage, patch_entry_dirent _ _ canonical_newDirent]
      refine ⟨_, v₃, rfl, hv₃, hkeep, Or.inr ⟨rfl, ⟨h.lacks hl hnew, l, p, hl, hp, hunused⟩, p,
        hunused, hentry, fun hname ↦ .of_stored ?_ (fun hlive ↦ absurd hlive.1 hunused)
          (Or.inr hunused) ?_ ?_ fun hdir ↦ ?_⟩⟩
      · rw [himage]
        refine tidy_file (.of_free h.wf h.cwd hl hsplit hunused) (rechained_refl _)
          (fun hlive ↦ absurd hlive.1 hunused) canonical_newDirent
          (live_newDirent hname (Or.inl rfl)) (not_dot_of_shortName shortName_newDirent)
          file_newDirent
          (Or.inr ⟨rfl, start_newDirent (by norm_num), size_newDirent (by norm_num)⟩) ?_ ?_
          ⟨pre, post, hsplit, fun q hq ↦ (hpre q hq).1⟩
        · rw [size_newDirent (by norm_num)]
          exact Nat.zero_le _
        · intro q hq _ hlive
          rw [shortName_newDirent]
          exact hnew q hq hlive
      · rw [hentry, shortName_newDirent, Op.name]
      · exact hentry ▸ live_newDirent hname (Or.inl rfl)
      · rw [hentry, file_newDirent] at hdir
        cases hdir
  · exact ⟨-1, v₁, rfl, hv₁, hq₁.toKeeps, Or.inl ⟨rfl,
      fun hposs ↦ hposs.1 p ⟨l, hl, hp, hlive, htarget⟩, hq₁.image⟩⟩

/-- What `fat32_remove` does: nothing, or it takes a file and its chain away. -/
theorem fat32Remove_spec (h : v.Sound) (hl : v.image.Chain v.cwdCluster l) (name : List UInt8) :
    ∃ r v', fat32Remove v name = .done (r, v') ∧ v'.Ready ∧ Keeps v v' ∧
      (r = -1 ∧ ¬(Op.remove name).Possible v ∧ v'.image = v.image ∨
        r = 0 ∧ (Op.remove name).Possible v ∧ ∃ p old, (v.image.entry p).isDirectory = false ∧
          (v'.image.entry p).first = 0xE5 ∧ (Op.remove name).Edits v v' l p old []) := by
  obtain ⟨found, v₁, hsearch, hq₁, hv₁, hfound⟩ := searchDir_spec h.ready hl (h.ended hl)
    (toShortName name)
  rw [fat32Remove, if_pos h.ready.mounted]
  simp only [hsearch, Outcome.done_bind]
  rcases hfound with ⟨rfl, hnew⟩ | ⟨p, hp, rfl, hlive, htarget⟩
  · refine ⟨-1, v₁, rfl, hv₁, hq₁.toKeeps, Or.inl ⟨rfl, ?_, hq₁.image⟩⟩
    rintro ⟨p, hnamed, -⟩
    exact h.lacks hl hnew p hnamed
  · have hnamed : v.image.Named v.cwdCluster (toShortName name) p := ⟨l, hl, hp, hlive, htarget⟩
    have hlook : (v.lookAt p).entry = v₁.image.entry p := by rw [Vol.lookAt, hq₁.image]
    simp only [hlook]
    by_cases hdir : (v₁.image.entry p).isDirectory = true
    · rw [if_pos hdir]
      rw [hq₁.image] at hdir
      refine ⟨-1, v₁, rfl, hv₁, hq₁.toKeeps, Or.inl ⟨rfl, ?_, hq₁.image⟩⟩
      rintro ⟨q, hq, hfile⟩
      rw [h.named_unique hq hnamed, hdir] at hfile
      cases hfile
    · rw [if_neg hdir]
      rw [hq₁.image] at hdir
      have hdot := not_dot_of_shortName htarget
      obtain ⟨old, hold, hsite⟩ := Site.of_entry h.wf h.cwd hl hp hlive hdot
      rw [← hq₁.image] at hold
      obtain ⟨v₂, hfree, hv₂, hkeep₂, himage₂⟩ := freeEntry_spec hv₁ hold
      obtain ⟨v₃, hmark, hv₃, hkeep₃, himage₃⟩ := markDeleted_later hv₂ (hq₁.toKeeps.trans hkeep₂)
        (hasSlot_of_mem hl hp)
      rw [himage₂, hq₁.image] at himage₃
      rw [hfree]
      simp only [hmark, Outcome.pure_eq_done]
      have hfile := Bool.eq_false_iff.mpr hdir
      have hdeleted : (v₃.image.entry p).first = 0xE5 := by rw [himage₃, patch_entry_deleted]
      refine ⟨_, v₃, rfl, hv₃, hkeep₃, Or.inr ⟨rfl, ⟨p, hnamed, hfile⟩, p, old, hfile, hdeleted,
        .of_deleted ?_ trivial hlive htarget hdeleted (Or.inl hfile)⟩⟩
      rw [himage₃]
      exact hsite.tidy_deleted

/-! ## Directories -/

/-- What `fat32_rmdir` does: nothing, or it takes a directory away that `dir_is_empty` accepts. -/
theorem fat32Rmdir_spec (h : v.Sound) (hl : v.image.Chain v.cwdCluster l) (name : List UInt8) :
    ∃ r v', fat32Rmdir v name = .done (r, v') ∧ v'.Ready ∧ Keeps v v' ∧
      (r = -1 ∧ ¬(Op.rmdir name).Possible v ∧ v'.image = v.image ∨
        r = 0 ∧ (Op.rmdir name).Possible v ∧ ∃ p old, v.image.IsEntry p ∧
          (v.image.entry p).isDirectory = true ∧ v.image.EntryChain p old ∧
          (∀ q ∈ v.image.slotsOf old, (v.image.entry q).Live → (v.image.entry q).DotLike) ∧
          (v'.image.entry p).first = 0xE5 ∧ (Op.rmdir name).Edits v v' l p old []) := by
  rw [fat32Rmdir, if_pos h.ready.mounted]
  by_cases hdots : name = [chDot] ∨ name = [chDot, chDot]
  · rw [if_pos hdots]
    exact ⟨-1, v, rfl, h.ready, .refl v, Or.inl ⟨rfl,
      fun hposs ↦ hdots.elim hposs.1 hposs.2.1, rfl⟩⟩
  rw [if_neg hdots]
  obtain ⟨hnodot, hnodots⟩ := not_or.mp hdots
  obtain ⟨found, v₁, hsearch, hq₁, hv₁, hfound⟩ := searchDir_spec h.ready hl (h.ended hl)
    (toShortName name)
  simp only [hsearch, Outcome.done_bind]
  rcases hfound with ⟨rfl, hnew⟩ | ⟨p, hp, rfl, hlive, htarget⟩
  · refine ⟨-1, v₁, rfl, hv₁, hq₁.toKeeps, Or.inl ⟨rfl, ?_, hq₁.image⟩⟩
    rintro ⟨-, -, p, -, hnamed, -⟩
    exact h.lacks hl hnew p hnamed
  have hnamed : v.image.Named v.cwdCluster (toShortName name) p := ⟨l, hl, hp, hlive, htarget⟩
  have hlook : (v.lookAt p).entry = v.image.entry p := rfl
  simp only [hlook]
  by_cases hdir : (v.image.entry p).isDirectory = true
  swap
  · rw [if_pos hdir]
    refine ⟨-1, v₁, rfl, hv₁, hq₁.toKeeps, Or.inl ⟨rfl, ?_, hq₁.image⟩⟩
    rintro ⟨-, -, q, -, hq, hqdir, -⟩
    rw [h.named_unique hq hnamed] at hqdir
    exact hdir hqdir
  have hdot := not_dot_of_shortName htarget
  obtain ⟨old, hold, hsite⟩ := Site.of_entry h.wf h.cwd hl hp hlive hdot
  have hchain := hold.of_directory hdir
  have hstart : ¬(v.image.entry p).start < 2 := by
    have := (hchain.range _ hchain.start_mem).1
    omega
  have hends : v.image.Ended old :=
    h.wf.ends _ _ (.sub h.cwd hl hp hlive hdot hdir) hchain
  have hchain₁ : v₁.image.Chain (v.image.entry p).start old := by rwa [hq₁.image]
  have hends₁ : v₁.image.Ended old := by rwa [hq₁.image]
  obtain ⟨empty, v₂, hempty, hq₂, hv₂, hall⟩ := dirIsEmpty_spec hv₁ hchain₁ hends₁
  have hq := hq₁.trans hq₂
  rw [hq₁.image] at hall
  rw [if_neg (not_not_intro hdir), if_neg hstart]
  simp only [hempty, Outcome.done_bind]
  cases empty with
  | false =>
      refine ⟨-1, v₂, rfl, hv₂, hq.toKeeps, Or.inl ⟨rfl, ?_, hq.image⟩⟩
      rintro ⟨-, -, q, m, hqnamed, -, hm, hdots⟩
      obtain rfl := h.named_unique hqnamed hnamed
      obtain rfl := hm.unique h.wf.small hold
      exact absurd (hall.mpr hdots) (by decide)
  | true =>
      have hchain₂ : v₂.image.Chain (v.image.entry p).start old := by rwa [hq.image]
      obtain ⟨v₃, hfree, hv₃, hkeep₃, -, himage₃⟩ := freeChain_spec hv₂ hchain₂
      obtain ⟨v₄, hmark, hv₄, hkeep₄, himage₄⟩ := markDeleted_later hv₃ (hq.toKeeps.trans hkeep₃)
        (hasSlot_of_mem hl hp)
      rw [himage₃, hq.image] at himage₄
      simp only [not_true, if_false, hfree, Outcome.done_bind, hmark, Outcome.pure_eq_done]
      have hall := hall.mp rfl
      have hentry : v.image.IsEntry p := .of_mem h.cwd hl hp hlive hdot
      have hdeleted : (v₄.image.entry p).first = 0xE5 := by rw [himage₄, patch_entry_deleted]
      refine ⟨_, v₄, rfl, hv₄, hkeep₄, Or.inr ⟨rfl,
        ⟨hnodot, hnodots, p, old, hnamed, hdir, hold, hall⟩, p, old, hentry, hdir, hold, hall,
        hdeleted, .of_deleted ?_ trivial hlive htarget hdeleted
          (Or.inr ⟨rfl, hentry, hdir, hold⟩)⟩⟩
      rw [himage₄]
      exact hsite.tidy_deleted

/-- The slots of a new directory: `.`, `..` and end marks. -/
theorem newDirectory_slot (self parent j : ℕ) :
    direntAt (newDirectory self parent) (32 * j) =
      if j = 0 then newDirent dotName fatAttrDirectory self 0
      else if j = 1 then newDirent dotdotName fatAttrDirectory parent 0 else blank := by
  funext k
  rw [direntAt]
  by_cases hk : k < 32
  · rw [if_pos hk, newDirectory]
    by_cases h0 : j = 0
    · rw [if_pos h0, blit_apply_of_notMem (by omega), blit_apply (by omega) (by omega)]
      congr 1
      omega
    · rw [if_neg h0]
      by_cases h1 : j = 1
      · rw [if_pos h1, blit_apply (by omega) (by omega)]
        congr 1
        omega
      · rw [if_neg h1, blit_apply_of_notMem (by omega), blit_apply_of_notMem (by omega)]
        rfl
  · rw [if_neg hk]
    split
    · exact (canonical_newDirent k (by omega)).symm
    · split
      · exact (canonical_newDirent k (by omega)).symm
      · rfl

theorem newDirectory_live {self parent j : ℕ}
    (h : (direntAt (newDirectory self parent) (32 * j)).Live) :
    j = 0 ∧ (direntAt (newDirectory self parent) (32 * j)).name = dotName ∨
      j = 1 ∧ (direntAt (newDirectory self parent) (32 * j)).name = dotdotName := by
  rw [newDirectory_slot] at h ⊢
  by_cases h0 : j = 0
  · rw [if_pos h0]
    exact Or.inl ⟨h0, name_newDirent (by decide)⟩
  · rw [if_neg h0] at h ⊢
    by_cases h1 : j = 1
    · rw [if_pos h1]
      exact Or.inr ⟨h1, name_newDirent (by decide)⟩
    · rw [if_neg h1] at h
      exact absurd rfl h.1.1

theorem newDirectory_first {self parent j : ℕ} :
    (direntAt (newDirectory self parent) (32 * j)).first = if j < 2 then chDot else 0 := by
  have hfirst : ∀ {e : Dirent} {t : List UInt8}, e.name = chDot :: t → e.first = chDot := by
    intro e t hname
    have hhead := Dirent.first_eq_head e
    rw [hname] at hhead
    exact (Option.some.inj hhead).symm
  rw [newDirectory_slot]
  by_cases h0 : j = 0
  · rw [if_pos h0, if_pos (by omega)]
    exact hfirst (name_newDirent (by decide))
  · rw [if_neg h0]
    by_cases h1 : j = 1
    · rw [if_pos h1, if_pos (by omega)]
      exact hfirst (name_newDirent (by decide))
    · rw [if_neg h1, if_neg (by omega)]
      rfl

theorem newDirectory_mark {self parent j : ℕ} :
    (direntAt (newDirectory self parent) (32 * j)).first = 0 ↔ 2 ≤ j := by
  rw [newDirectory_first]
  by_cases hj : j < 2
  · rw [if_pos hj]
    exact iff_of_false (by decide) (by omega)
  · rw [if_neg hj]
    exact iff_of_true rfl (by omega)

theorem newDirectory_unused {self parent j : ℕ} :
    ¬(direntAt (newDirectory self parent) (32 * j)).Used ↔ 2 ≤ j := by
  rw [Dirent.Used, newDirectory_first]
  by_cases hj : j < 2
  · rw [if_pos hj]
    exact iff_of_false (by decide) (by omega)
  · rw [if_neg hj]
    exact iff_of_true (by decide) (by omega)

/-- The image after `mkdir` has allocated and written the new cluster. -/
def Image.withDirectory (I : Image) (c parent : ℕ) : Image :=
  (I.setFat c 0x0FFFFFFF).patch c 0 (32 * I.slots) (newDirectory c parent)

section NewDirectory

variable {c parent : ℕ}

theorem withDirectory_entry (hq : q.1 = c) (hslot : q.2 < I.slots) :
    (I.withDirectory c parent).entry q = direntAt (newDirectory c parent) (32 * q.2) := by
  have hdata : (I.withDirectory c parent).data q.1 =
      (I.data c).blit 0 (32 * I.slots) (newDirectory c parent) := by
    rw [hq]
    exact Function.update_self _ _ _
  refine direntAt_congr fun k hk ↦ ?_
  rw [hdata, blit_apply (Nat.zero_le _) (by omega), Nat.sub_zero]

theorem rechained_withDirectory (parent : ℕ) (hfree : I.fat c = 0) :
    Rechained I (I.withDirectory c parent) [] [c] where
  total := rfl
  slots := rfl
  root := rfl
  fat_other := fun x _ hx ↦ Function.update_of_ne (by simpa using hx) _ _
  fat_freed := nofun
  fresh := by simp [hfree]
  data_other := fun x hx ↦ Function.update_of_ne (by simpa using hx) _ _

/-- The slots of the new cluster are those of the new directory. -/
theorem newDirectory_entry (parent : ℕ) (e : Dirent) (hpc : p.1 ≠ c) (hq : q.1 = c)
    (hslot : q.2 < I.slots) :
    ((I.withDirectory c parent).patch p.1 (32 * p.2) 32 e).entry q =
      direntAt (newDirectory c parent) (32 * q.2) := by
  have hdata : ((I.withDirectory c parent).patch p.1 (32 * p.2) 32 e).data q.1 =
      (I.withDirectory c parent).data q.1 :=
    Function.update_of_ne (by rw [hq]; exact hpc.symm) _ _
  rw [← withDirectory_entry (I := I) hq hslot, entry, entry, hdata]

/-- The edit that puts a new directory into a slot. -/
theorem tidy_mkdir {e : Dirent} (hsite : Site I d l p []) (hunused : ¬(I.entry p).Used)
    (hlo : 2 ≤ c) (hhi : c < I.total + 2) (hfree : I.fat c = 0) (he : e.Canonical)
    (hlive : e.Live) (hdot : ¬e.IsDot) (hattr : e.isDirectory = true) (hstart : e.start = c)
    (hname : ∀ q ∈ I.slotsOf l, q ≠ p → (I.entry q).Live → (I.entry q).name ≠ e.name)
    (hbefore : ∃ pre post, I.slotsOf l = pre ++ p :: post ∧ ∀ q ∈ pre, (I.entry q).first ≠ 0) :
    Tidy I ((I.withDirectory c parent).patch p.1 (32 * p.2) 32 e) d l p [] [c] := by
  have hre := rechained_withDirectory parent hfree
  have hentry := patch_entry_dirent (I.withDirectory c parent) p he
  have hpc : p.1 ≠ c := by simpa using (hsite.dir_disjoint hre).2
  have hedit := hsite.edit hre (fun hl ↦ absurd hl.1 hunused) e (le_refl 32)
  have hinner : ∀ q ∈ ((I.withDirectory c parent).patch p.1 (32 * p.2) 32 e).slotsOf [c],
      q.1 = c ∧ ((I.withDirectory c parent).patch p.1 (32 * p.2) 32 e).entry q =
        direntAt (newDirectory c parent) (32 * q.2) := by
    intro q hq
    obtain ⟨hqc, hslot⟩ := mem_slotsOf.mp hq
    have hqc : q.1 = c := by simpa using hqc
    exact ⟨hqc, newDirectory_entry parent e hpc hqc hslot⟩
  refine ⟨hedit, Or.inr ⟨by rwa [hentry], by rwa [hentry], ?_, ?_,
    by rwa [hentry], hbefore, ?_, ?_, ?_⟩⟩
  · rw [EntryChain, hentry, hstart]
    have hlink : ((I.withDirectory c parent).patch p.1 (32 * p.2) 32 e).fat c = 0x0FFFFFFF :=
      Function.update_self _ _ _
    refine Or.inl ⟨⟨0x0FFFFFFF, ?_, by decide⟩, by simp, by simp, ?_⟩
    · simpa using hlink
    · simpa using ⟨hlo, hhi⟩
  · rw [hentry, hattr]
    intro hfile
    cases hfile
  · intro _ q hq hqlive
    obtain ⟨-, hqe⟩ := hinner q hq
    rw [hqe] at hqlive ⊢
    exact (newDirectory_live hqlive).imp And.right And.right
  · intro _ q hq r hr hqlive hrlive hsame
    obtain ⟨hqc, hqe⟩ := hinner q hq
    obtain ⟨hrc, hre⟩ := hinner r hr
    rw [hqe] at hqlive hsame
    rw [hre] at hrlive hsame
    have hdiff : dotName ≠ dotdotName := by decide
    refine Prod.ext (hqc.trans hrc.symm) ?_
    rcases newDirectory_live hqlive with ⟨hq2, hqn⟩ | ⟨hq2, hqn⟩
    · rcases newDirectory_live hrlive with ⟨hr2, hrn⟩ | ⟨hr2, hrn⟩
      · rw [hq2, hr2]
      · exact absurd (hqn.symm.trans (hsame.trans hrn)) hdiff
    · rcases newDirectory_live hrlive with ⟨hr2, hrn⟩ | ⟨hr2, hrn⟩
      · exact absurd (hrn.symm.trans (hsame.symm.trans hqn)) hdiff
      · rw [hq2, hr2]
  · intro _
    have hslots : (((I.withDirectory c parent).patch p.1 (32 * p.2) 32 e).slotsOf [c]).Pairwise
        fun q r ↦ q.2 < r.2 := by
      rw [slotsOf, List.flatMap_singleton, List.pairwise_map]
      exact List.pairwise_lt_range
    refine List.Pairwise.imp_of_mem (fun {q r} hq hr hlt hzero hused ↦ ?_) hslots
    rw [(hinner q hq).2, newDirectory_mark] at hzero
    rw [(hinner r hr).2] at hused
    exact hused.1 (newDirectory_mark.mpr (by omega))

end NewDirectory

theorem Vol.Ready.one_lt_slots (h : v.Ready) : 1 < v.image.slots := by
  have hspc := h.geo.spc_pos
  have hslots : v.image.slots = 16 * v.geo.sectorsPerCluster := rfl
  omega

/-- `mkdir` links the new directory. -/
theorem linkedAt_newDirectory {I : Image} {d c parent : ℕ} (e : Dirent) (hpc : p.1 ≠ c)
    (hslots : 1 < I.slots) (hparent : parent = if d = I.root then 0 else d) (hc : c < 2 ^ 32)
    (hd : d < 2 ^ 32) :
    ((I.withDirectory c parent).patch p.1 (32 * p.2) 32 e).LinkedAt d c := by
  have hzero := newDirectory_entry (I := I) (q := (c, 0)) parent e hpc rfl
    (Nat.zero_lt_of_lt hslots)
  have hone := newDirectory_entry (I := I) (q := (c, 1)) parent e hpc rfl hslots
  rw [newDirectory_slot, if_pos rfl] at hzero
  rw [newDirectory_slot, if_neg one_ne_zero, if_pos rfl] at hone
  have hparent' : parent < 2 ^ 32 := by
    rw [hparent]
    split <;> omega
  have hlive : ∀ {target : List UInt8} {x : ℕ}, target.length = 11 → target.head? = some chDot →
      (newDirent target fatAttrDirectory x 0).Live := by
    intro target x hlen hhead
    have hfirst : (newDirent target fatAttrDirectory x 0).first = chDot := by
      have := Dirent.first_eq_head (newDirent target fatAttrDirectory x 0)
      rw [name_newDirent hlen, hhead] at this
      exact (Option.some.inj this).symm
    rw [Dirent.Live, Dirent.Used, hfirst, attr_newDirent]
    decide
  refine ⟨?_, ?_, ?_, ?_, ?_, ?_⟩
  · rw [hzero]
    exact hlive (by decide) (by decide)
  · rw [hzero, name_newDirent (by decide)]
  · rw [hzero, start_newDirent hc]
  · rw [hone]
    exact hlive (by decide) (by decide)
  · rw [hone, name_newDirent (by decide)]
  · rw [hone, start_newDirent hparent', hparent]
    rfl

/-- What `fat32_mkdir` does: nothing, or it puts a directory with `.` and `..` into the first
free slot. -/
theorem fat32Mkdir_spec (h : v.Sound) (hl : v.image.Chain v.cwdCluster l) (name : List UInt8) :
    ∃ r v', fat32Mkdir v name = .done (r, v') ∧ v'.Ready ∧ Keeps v v' ∧
      (r = -1 ∧ ¬(Op.mkdir name).Possible v ∧ v'.image = v.image ∨
        r = 0 ∧ (Op.mkdir name).Possible v ∧ ∃ p c parent, ¬(v.image.entry p).Used ∧
          parent = (if v.cwdCluster = v.geo.rootCluster then 0 else v.cwdCluster) ∧
          v'.image = (v.image.withDirectory c parent).patch p.1 (32 * p.2) 32
            (newDirent (toShortName name) fatAttrDirectory c 0) ∧
          (Ascii name → (Op.mkdir name).Edits v v' l p [] [c])) := by
  obtain ⟨found, v₁, hsearch, hq₁, hv₁, hfound⟩ := searchDir_spec h.ready hl (h.ended hl)
    (toShortName name)
  rw [fat32Mkdir, if_pos h.ready.mounted]
  simp only [hsearch, Outcome.done_bind]
  rcases hfound with ⟨rfl, hnew⟩ | ⟨p, hp, rfl, hlive, htarget⟩
  swap
  · exact ⟨-1, v₁, rfl, hv₁, hq₁.toKeeps, Or.inl ⟨rfl,
      fun hposs ↦ hposs.1 p ⟨l, hl, hp, hlive, htarget⟩, hq₁.image⟩⟩
  obtain ⟨slot, v₂, hfree, hq, hv₂, hslot⟩ := findFreeDirentIn_spec hq₁ hv₁ hl
  simp only [hfree, Outcome.done_bind]
  rcases hslot with ⟨rfl, hfull⟩ | ⟨pre, p, post, rfl, hsplit, hunused, hpre⟩
  · exact ⟨-1, v₂, rfl, hv₂, hq.toKeeps, Or.inl ⟨rfl,
      fun hposs ↦ h.not_hasRoom hl hfull hposs.2.1, hq.image⟩⟩
  obtain ⟨c, v₃, halloc, hv₃, hkeep₃, hres⟩ := allocCluster_spec hv₂
  simp only [halloc]
  rcases hres with ⟨rfl, himage₃, hnone⟩ | ⟨hlo, hhi, hcfree, himage₃⟩
  · refine ⟨-1, v₃, rfl, hv₃, hq.toKeeps.trans hkeep₃, Or.inl ⟨rfl, fun hposs ↦ ?_,
      himage₃.trans hq.image⟩⟩
    obtain ⟨c, hc⟩ := List.exists_mem_of_ne_nil _ hposs.2.2
    obtain ⟨hlo, hhi, hcfree⟩ := Image.mem_freeClusters.mp hc
    rw [hq.geo, hq.image] at hnone
    exact hnone c hlo hhi hcfree
  have hc0 : c ≠ 0 := by omega
  have hgeo₃ : v₃.geo = v.geo := hkeep₃.geo.trans hq.geo
  have hcwd₃ : v₃.cwdCluster = v.cwdCluster := hkeep₃.cwd.trans hq.cwd
  rw [hq.geo] at hhi
  rw [hq.image] at hcfree himage₃
  obtain ⟨v₄, hwrite, hv₄, hkeep₄, -, himage₄⟩ := writeCluster_spec hv₃ hlo
    (by rwa [hgeo₃]) (newDirectory c (if v₃.cwdCluster = v₃.geo.rootCluster then 0
      else v₃.cwdCluster))
  have hp : p ∈ v.image.slotsOf l := by simp [hsplit]
  obtain ⟨v₅, hdirent, hv₅, hkeep₅, himage₅⟩ := writeDirent_later hv₄
    ((hq.toKeeps.trans hkeep₃).trans hkeep₄) (hasSlot_of_mem hl hp)
    (newDirent (toShortName name) fatAttrDirectory c 0)
  have hlink : linkDirectory v₄ (v.lookAt p) (toShortName name) c = .done (0, v₅) := by
    rw [linkDirectory, hdirent]
    rfl
  simp only [if_neg hc0, hwrite, hlink]
  have hbytes : clusterBytes v₃.geo = 32 * v.image.slots := by rw [hgeo₃, clusterBytes_eq]
  rw [himage₄, himage₃, hbytes, hcwd₃, hgeo₃] at himage₅
  have hmem := Image.mem_freeClusters.mpr ⟨hlo, hhi, hcfree⟩
  have hsmall := h.wf.small
  rw [badCluster] at hsmall
  have hc : c < 2 ^ 32 := by
    have hhi' : c < v.image.total + 2 := hhi
    omega
  have hcwd : v.cwdCluster < 2 ^ 32 := by
    have hrange := (hl.range _ hl.start_mem).2
    omega
  have hentry : v₅.image.entry p = newDirent (toShortName name) fatAttrDirectory c 0 := by
    rw [himage₅, patch_entry_dirent _ _ canonical_newDirent]
  refine ⟨_, v₅, rfl, hv₅, hkeep₅, Or.inr ⟨rfl, ⟨h.lacks hl hnew, ⟨l, p, hl, hp, hunused⟩,
    List.ne_nil_of_mem hmem⟩, p, c, _, hunused, rfl, himage₅, fun hname ↦ .of_stored ?_
      (fun hlive ↦ absurd hlive.1 hunused) (Or.inr hunused) ?_ ?_ fun _ ↦ ?_⟩⟩
  · rw [himage₅]
    refine tidy_mkdir (.of_free h.wf h.cwd hl hsplit hunused) hunused hlo hhi hcfree
      canonical_newDirent (live_newDirent hname (Or.inr rfl))
      (not_dot_of_shortName shortName_newDirent) directory_newDirent (start_newDirent hc) ?_
      ⟨pre, post, hsplit, fun q hq ↦ (hpre q hq).1⟩
    intro q hq _ hlive
    rw [shortName_newDirent]
    exact hnew q hq hlive
  · rw [hentry, shortName_newDirent, Op.name]
  · exact hentry ▸ live_newDirent hname (Or.inr rfl)
  · have hpc : p.1 ≠ c := by
      rintro rfl
      exact hl.fat_ne_zero (mem_slotsOf.mp hp).1 hcfree
    rw [hentry, start_newDirent hc, himage₅]
    exact linkedAt_newDirectory _ hpc h.ready.one_lt_slots rfl hc hcwd

/-! ## Writing a file -/

/-- `fat32_write_file` goes to slot `p` with the entry `e`, and the chain `old` is to go. -/
structure WritePlace (I : Image) (d : ℕ) (l : List ℕ) (p : Pos) (old : List ℕ)
    (target : List UInt8) (e : Dirent) : Prop extends Site I d l p old where
  canonical : e.Canonical
  not_dot : ¬e.IsDot
  name_eq : e.name = target
  file : e.isDirectory = false
  was_file : (I.entry p).Live →
    (I.entry p).isDirectory = false ∧ (I.entry p).name = target ∧ ¬(I.entry p).IsDot
  was_unused : (I.entry p).Live ∨ ¬(I.entry p).Used
  name_new : ∀ q ∈ I.slotsOf l, q ≠ p → (I.entry q).Live → (I.entry q).name ≠ target
  before : ∃ pre post, I.slotsOf l = pre ++ p :: post ∧ ∀ q ∈ pre, (I.entry q).first ≠ 0

/-- The entry that goes to the slot does not look like a deleted one. -/
structure WriteSite (I : Image) (d : ℕ) (l : List ℕ) (p : Pos) (old : List ℕ)
    (target : List UInt8) (e : Dirent) : Prop extends WritePlace I d l p old target e where
  live : e.Live

/-- The slot for a new file. -/
theorem WritePlace.of_free {pre post : List Pos} (hwf : I.Intact) (hd : I.IsDir d)
    (hl : I.Chain d l) (hsplit : I.slotsOf l = pre ++ p :: post) (hunused : ¬(I.entry p).Used)
    (hpre : ∀ q ∈ pre, (I.entry q).Used)
    (hnew : ∀ q ∈ I.slotsOf l, (I.entry q).Live → (I.entry q).name ≠ toShortName name) :
    WritePlace I d l p [] (toShortName name)
      ((Dirent.setName blank (toShortName name)).setAttr 0x20) := by
  have hattr : ((Dirent.setName blank (toShortName name)).setAttr 0x20).attr = 0x20 :=
    Dirent.attr_setAttr
  have htarget : ((Dirent.setName blank (toShortName name)).setAttr 0x20).name =
      toShortName name := by rw [Dirent.name_setAttr, Dirent.name_setName (toShortName_length name)]
  refine ⟨.of_free hwf hd hl hsplit hunused, Dirent.canonical_blank.setName.setAttr,
    not_dot_of_shortName htarget, htarget, ?_, fun hlive ↦ absurd hlive.1 hunused, Or.inr hunused,
    fun q hq _ ↦ hnew q hq, pre, post, hsplit, fun q hq ↦ (hpre q hq).1⟩
  rw [Dirent.isDirectory, hattr]
  decide

/-- The slot of a file that is there. -/
theorem WriteSite.of_file (hwf : I.Intact) (hd : I.IsDir d) (hl : I.Chain d l)
    (hp : p ∈ I.slotsOf l) (hlive : (I.entry p).Live)
    (htarget : (I.entry p).name = toShortName name)
    (hfile : (I.entry p).isDirectory = false) : ∃ old, I.EntryChain p old ∧
      WriteSite I d l p old (toShortName name) (((I.entry p).setCluster 0).setSize 0) := by
  have hdot := not_dot_of_shortName htarget
  obtain ⟨old, hold, hsite⟩ := Site.of_entry hwf hd hl hp hlive hdot
  have hname' : (((I.entry p).setCluster 0).setSize 0).name = (I.entry p).name := by
    rw [Dirent.name_setSize, Dirent.name_setCluster]
  have hattr' : (((I.entry p).setCluster 0).setSize 0).attr = (I.entry p).attr := by
    rw [Dirent.attr_setSize, Dirent.attr_setCluster]
  refine ⟨old, hold, ⟨hsite, (Dirent.canonical_direntAt _ _).setCluster.setSize, ?_, ?_, ?_,
    fun _ ↦ ⟨hfile, htarget, hdot⟩, Or.inl hlive, ?_,
    before_used (hwf.ends d l hd hl) hp hlive.1⟩, ?_⟩
  · rwa [Dirent.isDot_congr hname']
  · rw [hname', htarget]
  · rw [Dirent.isDirectory_congr hattr', hfile]
  · intro q hq hqp hqlive hsame
    exact hqp (hwf.names d l q p hd hl hq hp hqlive hlive (hsame.trans htarget.symm))
  · rw [Dirent.live_congr hname' hattr']
    exact hlive

/-- A place for a name that is there already is that of the entry with the name. -/
theorem WritePlace.live_of_mem {e : Dirent} {q : Pos} (h : WritePlace I d l p old target e)
    (hq : q ∈ I.slotsOf l) (hlive : (I.entry q).Live) (hname : (I.entry q).name = target) :
    (I.entry p).Live := by
  by_cases hqp : q = p
  · exact hqp ▸ hlive
  · exact absurd hname (h.name_new q hq hqp hlive)

theorem writeTarget_spec (h : v.Sound) (hl : v.image.Chain v.cwdCluster l) (name : List UInt8) :
    ∃ r v', writeTarget v (toShortName name) = .done (r, v') ∧ v'.Ready ∧ Keeps v v' ∧
      (r = none ∧ v'.image = v.image ∧
          (∀ p ∈ v.image.slotsOf l, (v.image.entry p).Live →
            (v.image.entry p).name = toShortName name → (v.image.entry p).isDirectory = true) ∧
          (v.Lacks (toShortName name) → ¬v.HasRoom) ∨
        ∃ p old e, r = some { v.lookAt p with entry := e } ∧
          v'.image = v.image.release old ∧
          WritePlace v.image v.cwdCluster l p old (toShortName name) e ∧
          (Ascii name ∨ (v.image.entry p).Live → e.Live)) := by
  obtain ⟨found, v₁, hsearch, hq₁, hv₁, hfound⟩ := searchDir_spec h.ready hl (h.ended hl)
    (toShortName name)
  rw [writeTarget]
  simp only [hsearch, Outcome.done_bind]
  rcases hfound with ⟨rfl, hnew⟩ | ⟨p, hp, rfl, hlive, htarget⟩
  · obtain ⟨slot, v₂, hfree, hq, hv₂, hslot⟩ := findFreeDirentIn_spec hq₁ hv₁ hl
    simp only [hfree, Outcome.done_bind]
    rcases hslot with ⟨rfl, hfull⟩ | ⟨pre, p, post, rfl, hsplit, hunused, hpre⟩
    · exact ⟨none, v₂, rfl, hv₂, hq.toKeeps, Or.inl ⟨rfl, hq.image,
        fun p hp hlive hsame ↦ absurd hsame (hnew p hp hlive), fun _ ↦ h.not_hasRoom hl hfull⟩⟩
    · refine ⟨_, v₂, rfl, hv₂, hq.toKeeps, Or.inr ⟨p, [], _, rfl, ?_,
        .of_free h.wf h.cwd hl hsplit hunused hpre hnew, ?_⟩⟩
      · rw [hq.image]
        simp [release]
      · rintro (hname | hlive)
        · refine (live_of_shortName hname ?_ (Or.inl Dirent.attr_setAttr)).1
          rw [Dirent.name_setAttr, Dirent.name_setName (toShortName_length name)]
        · exact absurd hlive.1 hunused
  · have hlook : (v.lookAt p).entry = v₁.image.entry p := by rw [Vol.lookAt, hq₁.image]
    simp only [hlook]
    by_cases hdir : (v₁.image.entry p).isDirectory = true
    · rw [if_pos hdir]
      rw [hq₁.image] at hdir
      refine ⟨none, v₁, rfl, hv₁, hq₁.toKeeps, Or.inl ⟨rfl, hq₁.image, fun q hq hqlive hsame ↦ ?_,
        fun hlacks ↦ absurd ⟨l, hl, hp, hlive, htarget⟩ (hlacks p)⟩⟩
      rwa [h.wf.names _ l q p h.cwd hl hq hp hqlive hlive (hsame.trans htarget.symm)]
    · rw [if_neg hdir]
      have hfile : (v.image.entry p).isDirectory = false := by
        rw [hq₁.image] at hdir
        exact Bool.eq_false_iff.mpr hdir
      obtain ⟨old, hold, hsite⟩ := WriteSite.of_file h.wf h.cwd hl hp hlive htarget hfile
      rw [← hq₁.image] at hold
      obtain ⟨v₂, hfree, hv₂, hkeep₂, himage₂⟩ := freeEntry_spec hv₁ hold
      rw [hq₁.image] at himage₂
      rw [hfree]
      rw [← hq₁.image] at hsite
      refine ⟨_, v₂, rfl, hv₂, hq₁.toKeeps.trans hkeep₂, Or.inr ⟨p, old, _, rfl, himage₂, ?_⟩⟩
      rw [hq₁.image] at hsite ⊢
      exact ⟨hsite.toWritePlace, fun _ ↦ hsite.live⟩

/-- The entry of the written file. -/
def writtenEntry (e : Dirent) (N : List ℕ) (size : ℕ) : Dirent :=
  (e.setCluster (N.headD 0)).setSize size

section Written

variable {data : Bytes} {size : ℕ} {e : Dirent}

theorem writtenEntry_start (hrange : ∀ c ∈ N, 2 ≤ c ∧ c < I.total + 2)
    (hsmall : I.total + 2 ≤ badCluster) : (writtenEntry e N size).start = N.headD 0 := by
  have hlt : N.headD 0 < 2 ^ 32 := by
    cases N with
    | nil => norm_num
    | cons c N =>
        have := (hrange c List.mem_cons_self).2
        rw [badCluster] at hsmall
        simp only [List.headD_cons]
        omega
  rw [writtenEntry, Dirent.start_setSize, Dirent.start_setCluster hlt]

theorem writtenEntry_size (hsize : size < 2 ^ 32) : (writtenEntry e N size).size = size :=
  Dirent.size_setSize hsize

theorem writtenEntry_name : (writtenEntry e N size).name = e.name := by
  rw [writtenEntry, Dirent.name_setSize, Dirent.name_setCluster]

theorem writtenEntry_attr : (writtenEntry e N size).attr = e.attr := by
  rw [writtenEntry, Dirent.attr_setSize, Dirent.attr_setCluster]

theorem WriteSite.tidy_rechained (h : WriteSite I d l p old target e) (hre : Rechained I J old N)
    (hchain : N ≠ [] → J.Chain (N.headD 0) N) (hsize : size < 2 ^ 32)
    (hfits : size ≤ N.length * (32 * I.slots)) :
    Tidy I (J.patch p.1 (32 * p.2) 32 (writtenEntry e N size)) d l p old N := by
  have hrange : ∀ c ∈ N, 2 ≤ c ∧ c < I.total + 2 := by
    intro c hc
    rw [← hre.total]
    exact (hchain (List.ne_nil_of_mem hc)).range c hc
  have hstart : (writtenEntry e N size).start = N.headD 0 := writtenEntry_start hrange h.wf.small
  refine tidy_file h.toSite hre (fun hlive ↦ (h.was_file hlive).1)
    h.canonical.setCluster.setSize ?_ ?_ ?_ ?_ ?_ ?_ h.before
  · rw [Dirent.live_congr writtenEntry_name writtenEntry_attr]
    exact h.live
  · rw [Dirent.isDot_congr writtenEntry_name]
    exact h.not_dot
  · rw [Dirent.isDirectory_congr writtenEntry_attr, h.file]
  · rw [hstart, writtenEntry_size hsize]
    by_cases hN : N = []
    · subst hN
      refine Or.inr ⟨rfl, rfl, ?_⟩
      simpa using hfits
    · exact Or.inl (hchain hN)
  · rw [writtenEntry_size hsize]
    exact hfits
  · rw [writtenEntry_name, h.name_eq]
    exact h.name_new

theorem WriteSite.tidy (h : WriteSite I d l p old target e)
    (hfill : Filled (I.release old) J N data size) (hsize : size < 2 ^ 32)
    (hfits : size ≤ N.length * (32 * I.slots)) :
    Tidy I (J.patch p.1 (32 * p.2) 32 (writtenEntry e N size)) d l p old N :=
  h.tidy_rechained (.filled hfill) hfill.chain hsize hfits

end Written

/-- The slot of a written file. -/
theorem WriteSite.stored {size : ℕ} {e : Dirent} (h : WriteSite I d l p old target e)
    (himage : I' = J.patch p.1 (32 * p.2) 32 (writtenEntry e N size)) :
    I'.entry p = writtenEntry e N size ∧ (I'.entry p).name = target ∧ (I'.entry p).Live ∧
      (I'.entry p).isDirectory = false := by
  have hentry : I'.entry p = writtenEntry e N size := by
    rw [himage]
    exact patch_entry_dirent _ _ h.canonical.setCluster.setSize
  refine ⟨hentry, ?_, ?_, ?_⟩
  · rw [hentry, writtenEntry_name, h.name_eq]
  · rw [hentry, Dirent.live_congr writtenEntry_name writtenEntry_attr]
    exact h.live
  · rw [hentry, Dirent.isDirectory_congr writtenEntry_attr, h.file]

theorem WriteSite.edits {data : Bytes} {size : ℕ} {e : Dirent}
    (h : WriteSite v.image v.cwdCluster l p old (toShortName name) e)
    (hfill : Filled (v.image.release old) J N data size) (hsize : size < 2 ^ 32)
    (hfits : size ≤ N.length * (32 * v.image.slots))
    (himage : v'.image = J.patch p.1 (32 * p.2) 32 (writtenEntry e N size)) :
    (Op.writeFile name data size).Edits v v' l p old N := by
  obtain ⟨-, hname, hlive, hfile⟩ := h.stored himage
  refine .of_stored ?_ (fun hlive ↦ ?_) h.was_unused hname hlive fun hdir ↦ ?_
  · rw [himage]
    exact h.tidy hfill hsize hfits
  · obtain ⟨hfile, hsame, -⟩ := h.was_file hlive
    exact ⟨hfile, hsame⟩
  · rw [hfile] at hdir
    cases hdir

/-- The place for a file leaves it to the size whether the file can be written. -/
theorem WritePlace.possible_iff {e : Dirent} (h : v.Sound)
    (hplace : WritePlace v.image v.cwdCluster l p old (toShortName name) e) (data : Bytes)
    (size : ℕ) : (Op.writeFile name data size).Possible v ↔
      size ≤ (v.image.release old).freeClusters.length * (32 * v.image.slots) := by
  have hl := hplace.chain
  rcases hplace.owned with ⟨⟨-, -, -, -, -, hlive, -⟩, hold⟩ | ⟨hdead, rfl⟩
  · obtain ⟨hfile, hsame, -⟩ := hplace.was_file hlive
    have hp : v.image.Named v.cwdCluster (toShortName name) p := ⟨l, hl, hplace.mem, hlive, hsame⟩
    refine ⟨?_, fun hfits ↦ ⟨old, hfits, Or.inl ⟨p, hp, hfile, hold⟩⟩⟩
    rintro ⟨old', hfits, ⟨q, hq, -, hold'⟩ | ⟨hlacks, -⟩⟩
    · obtain rfl := h.named_unique hq hp
      rwa [hold'.unique h.wf.small hold] at hfits
    · exact absurd hp (hlacks p)
  · have hlacks : v.Lacks (toShortName name) := by
      refine h.lacks hl fun q hq hqlive ↦ hplace.name_new q hq ?_ hqlive
      rintro rfl
      exact hdead hqlive
    refine ⟨?_, fun hfits ↦ ⟨[], hfits, Or.inr ⟨hlacks,
      ⟨l, p, hl, hplace.mem, hplace.was_unused.resolve_left hdead⟩, rfl⟩⟩⟩
    rintro ⟨old', hfits, ⟨q, hq, -⟩ | ⟨-, -, rfl⟩⟩
    · exact absurd hq (hlacks q)
    · exact hfits

/-- What `fat32_write_file` does: nothing; or it runs out of clusters, with the old chain of
the file gone and some free clusters overwritten; or it replaces the file, with no more clusters
than it needs. -/
theorem fat32WriteFile_spec (h : v.Sound) (hl : v.image.Chain v.cwdCluster l)
    (name : List UInt8) (data : Bytes) {size : ℕ} (hsize : size < 2 ^ 32) :
    ∃ r v', fat32WriteFile v name data size = .done (r, v') ∧ v'.Ready ∧ Keeps v v' ∧
      (r = -1 ∧ ¬(Op.writeFile name data size).Possible v ∧ v'.image = v.image ∧
          (∀ p ∈ v.image.slotsOf l, (v.image.entry p).Live →
            (v.image.entry p).name = toShortName name → (v.image.entry p).isDirectory = true) ∨
        ∃ p old e, WritePlace v.image v.cwdCluster l p old (toShortName name) e ∧
          (Ascii name ∨ (v.image.entry p).Live →
            WriteSite v.image v.cwdCluster l p old (toShortName name) e) ∧
          (r = -1 ∧ ¬(Op.writeFile name data size).Possible v ∧
              (v.image.release old).freeClusters.length * (32 * v.image.slots) < size ∧
              (∃ N, Scratched (v.image.release old) v'.image N) ∨
            r = 0 ∧ (Op.writeFile name data size).Possible v ∧
              ∃ N J, Filled (v.image.release old) J N data size ∧
              size ≤ N.length * (32 * v.image.slots) ∧
              (N = [] ∨ (N.length - 1) * (32 * v.image.slots) < size) ∧
              v'.image = J.patch p.1 (32 * p.2) 32 (writtenEntry e N size))) := by
  obtain ⟨slot, v₁, htarget, hv₁, hkeep₁, hslot⟩ := writeTarget_spec h hl name
  rw [fat32WriteFile, if_pos h.ready.mounted]
  simp only [htarget, Outcome.done_bind]
  rcases hslot with ⟨rfl, himage, hdirs, hfull⟩ | ⟨p, old, e, rfl, himage₁, hplace, hlive⟩
  · refine ⟨-1, v₁, rfl, hv₁, hkeep₁, Or.inl ⟨rfl, ?_, himage, hdirs⟩⟩
    rintro ⟨old, -, ⟨p, ⟨l', hl', hp, hlive, hsame⟩, hfile, -⟩ | ⟨hlacks, hroom, -⟩⟩
    · obtain rfl := hl'.unique h.wf.small hl
      rw [hdirs p hp hlive hsame] at hfile
      cases hfile
    · exact hfull hlacks hroom
  obtain ⟨r, v₂, hloop, hv₂, hkeep₂, hwritten⟩ := writeClusters_start hv₁ data hsize
  rw [himage₁] at hwritten
  simp only [hloop, Outcome.done_bind]
  have hnone := hwritten.none_iff
  have hposs := hplace.possible_iff h data size
  rcases hwritten with ⟨N, rfl, hfill, hfits, hlast⟩ | ⟨rfl, N, -, hscratch, -⟩
  · have hroom := not_lt.mp (mt hnone.mpr (Option.some_ne_none _))
    obtain ⟨v₃, hdirent, hv₃, hkeep₃, himage₃⟩ := writeDirent_later hv₂ (hkeep₁.trans hkeep₂)
      (hasSlot_of_mem hl hplace.mem) (writtenEntry e N size)
    rw [writtenEntry] at hdirent
    simp only [hdirent, Outcome.pure_eq_done]
    exact ⟨_, v₃, rfl, hv₃, hkeep₃, Or.inr ⟨p, old, e, hplace, fun hname ↦ ⟨hplace, hlive hname⟩,
      Or.inr ⟨rfl, hposs.mpr hroom, N, v₂.image, hfill, hfits, hlast, himage₃⟩⟩⟩
  · have hfull := hnone.mp rfl
    exact ⟨-1, v₂, rfl, hv₂, hkeep₁.trans hkeep₂, Or.inr ⟨p, old, e, hplace,
      fun hname ↦ ⟨hplace, hlive hname⟩,
      Or.inl ⟨rfl, fun h ↦ hfull.not_ge (hposs.mp h), hfull, N, hscratch⟩⟩⟩

end MyOS.Fat32
