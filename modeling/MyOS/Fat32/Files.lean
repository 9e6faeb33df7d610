import MyOS.Fat32.Failure
import MyOS.Fat32.Room

/-!
# Files and directories

`Files` is what the driver is for: names in directories that stand for files and directories,
blocks to store them in, and room for so many names in each directory.  Slots, chains and the FAT
do not occur in it.  The tree of an intact image is such a file system, and an edit of one slot
changes what one name stands for.
-/

namespace MyOS.Fat32

open Bytes Image

/-! ## Files and directories -/

/-- What a name stands for, and the number of blocks that it takes. -/
inductive Node where
  | file (bytes : List UInt8) (blocks : ℕ)
  | dir (d blocks : ℕ)

namespace Node

def blocks : Node → ℕ
  | .file _ k => k
  | .dir _ k => k

def blocksOf (n : Option Node) : ℕ := n.elim 0 blocks

/-- A name that stands for something takes a place in its directory. -/
def placesOf (n : Option Node) : ℕ := n.elim 0 fun _ ↦ 1

end Node

/-- What the names in each directory stand for, the directory one works in, and what there is
room for. -/
structure Files where
  root : ℕ
  cwd : ℕ
  nodes : ℕ → List UInt8 → Option Node
  /-- the bytes of a block -/
  block : ℕ
  /-- the number of free blocks -/
  free : ℕ
  /-- the number of names that each directory can still take -/
  room : ℕ → ℕ

/-- A request to the driver.  To read a file is to find it and to copy it into the memory at
`dst`. -/
inductive FileCall where
  | op (op : Op)
  | chdir (name : List UInt8)
  | read (name : List UInt8) (mem : Bytes) (dst max : ℕ)

inductive Reply where
  | code (r : ℤ)
  | contents (bytes : Option (List UInt8))
deriving DecidableEq

namespace Files

open Node

variable (F : Files)

/-- What a name in the working directory stands for. -/
def look (name : List UInt8) : Option Node := F.nodes F.cwd (toShortName name)

/-- From now on the name stands for `n`, or for nothing.  What it took before is given back. -/
def put (name : List UInt8) (n : Option Node) : Files :=
  { F with
    nodes := Function.update F.nodes F.cwd
      (Function.update (F.nodes F.cwd) (toShortName name) n)
    free := F.free + blocksOf (F.look name) - blocksOf n
    room := Function.update F.room F.cwd
      (F.room F.cwd + placesOf (F.look name) - placesOf n) }

/-- From now on the directory `d` can take `k` names. -/
def resize (d k : ℕ) : Files := { F with room := Function.update F.room d k }

def Empty (d : ℕ) : Prop := ∀ target, F.nodes d target = none

/-- No directory of the tree is `d`. -/
def Fresh (d : ℕ) : Prop :=
  d ≠ F.root ∧ F.Empty d ∧ ∀ e target k, F.nodes e target ≠ some (.dir d k)

/-- The name is free, and the working directory can take it. -/
def Vacant (name : List UInt8) : Prop := F.look name = none ∧ 0 < F.room F.cwd

def IsFile (name : List UInt8) : Prop := ∃ bytes k, F.look name = some (.file bytes k)

/-- There are blocks for `size` bytes once those that the name takes are given back. -/
def Fits (name : List UInt8) (size : ℕ) : Prop :=
  size ≤ (F.free + blocksOf (F.look name)) * F.block

/-- The requests that are to succeed. -/
def Allows : Op → Prop
  | .create name => F.Vacant name
  | .writeFile name _ size => (F.IsFile name ∨ F.Vacant name) ∧ F.Fits name size
  | .remove name => F.IsFile name
  | .mkdir name => F.Vacant name ∧ 0 < F.free
  | .rmdir name => ∃ d k, F.look name = some (.dir d k) ∧ F.Empty d

/-- The request is to replace the contents of a file that has blocks, and there is no room for the
new ones. -/
def Overflows : FileCall → Prop
  | .op (.writeFile name _ size) =>
      (∃ bytes k, F.look name = some (.file bytes k) ∧ k ≠ 0) ∧ ¬F.Fits name size
  | _ => False

/-- Where a `chdir` is to lead. -/
inductive Leads : List UInt8 → ℕ → Prop
  | root : Leads [chSlash] F.root
  | self : Leads [chDot] F.cwd
  | top (htop : F.cwd = F.root) : Leads [chDot, chDot] F.root
  | up {d k : ℕ} {target : List UInt8} (hup : F.nodes d target = some (.dir F.cwd k)) :
      Leads [chDot, chDot] d
  | down {d k : ℕ} {name : List UInt8}
      (hplain : name ≠ [chSlash] ∧ name ≠ [chDot] ∧ name ≠ [chDot, chDot])
      (hdown : F.look name = some (.dir d k)) : Leads name d

/-- The steps of a file system.  A file takes as many blocks as its bytes fill, a new directory one
block, which has room for a name in every 32 bytes but two. -/
inductive Step : Files → FileCall × Reply → Files → Prop
  | create {F : Files} {name : List UInt8} (hok : F.Allows (.create name)) :
      Step F (.op (.create name), .code 0) (F.put name (some (.file [] 0)))
  | write {F : Files} {name : List UInt8} {data : Bytes} {size : ℕ}
      (hok : F.Allows (.writeFile name data size)) :
      Step F (.op (.writeFile name data size), .code 0)
        (F.put name (some (.file ((List.range size).map data) ((size + F.block - 1) / F.block))))
  | remove {F : Files} {name : List UInt8} (hok : F.Allows (.remove name)) :
      Step F (.op (.remove name), .code 0) (F.put name none)
  | mkdir {F : Files} {name : List UInt8} {d : ℕ} (hok : F.Allows (.mkdir name)) (hd : F.Fresh d) :
      Step F (.op (.mkdir name), .code 0)
        ((F.put name (some (.dir d 1))).resize d (F.block / 32 - 2))
  | rmdir {F : Files} {name : List UInt8} {d k : ℕ} (hdir : F.look name = some (.dir d k))
      (hempty : F.Empty d) :
      Step F (.op (.rmdir name), .code 0) ((F.put name none).resize d 0)
  | refused {F : Files} {op : Op} (hno : ¬F.Allows op) : Step F (.op op, .code (-1)) F
  | chdir {F : Files} {name : List UInt8} {d : ℕ} (hleads : F.Leads name d) :
      Step F (.chdir name, .code 0) { F with cwd := d }
  | noChdir {F : Files} {name : List UInt8} (hno : ∀ d, ¬F.Leads name d) :
      Step F (.chdir name, .code (-1)) F
  | read {F : Files} {name bytes : List UInt8} {k : ℕ} (mem : Bytes) (dst max : ℕ)
      (hfile : F.look name = some (.file bytes k)) :
      Step F (.read name mem dst max, .contents (some (bytes.take max))) F
  | noRead {F : Files} {name : List UInt8} (mem : Bytes) (dst max : ℕ) (hno : ¬F.IsFile name) :
      Step F (.read name mem dst max, .contents none) F

end Files

/-! ## The tree of an image -/

variable {v w : Vol} {I J : Image} {l m old new N : List ℕ} {p q : Pos} {d : ℕ}
  {name target : List UInt8}

namespace Image

/-- Slot `p` of the reachable directory `d` has the entry for `target`. -/
def Lists (I : Image) (d : ℕ) (target : List UInt8) (p : Pos) : Prop :=
  I.IsDir d ∧ I.Named d target p ∧ ¬(I.entry p).IsDot

open Classical in
/-- The chain of the entry in slot `p`. -/
noncomputable def chainAt (I : Image) (p : Pos) : List ℕ :=
  if h : ∃ m, I.EntryChain p m then h.choose else []

/-- The bytes of the file in slot `p`. -/
noncomputable def bytesAt (I : Image) (p : Pos) : List UInt8 :=
  (List.range (I.entry p).size).map (I.content (I.chainAt p))

noncomputable def node (I : Image) (p : Pos) : Node :=
  if (I.entry p).isDirectory then .dir (I.entry p).start (I.chainAt p).length
  else .file (I.bytesAt p) (I.chainAt p).length

/-- What the name of the entry in slot `p` stands for, if there is one. -/
noncomputable def nodeAt (I : Image) (p : Pos) : Option Node :=
  if (I.entry p).Live then some (I.node p) else none

open Classical in
noncomputable def files (I : Image) (d : ℕ) (target : List UInt8) : Option Node :=
  if ∃ p, I.Lists d target p then some (I.node (Classical.epsilon (I.Lists d target))) else none

theorem Lists.isEntry (h : I.Lists d target p) : I.IsEntry p := by
  obtain ⟨hd, ⟨l, hl, hp, hlive, -⟩, hdot⟩ := h
  exact .of_mem hd hl hp hlive hdot

theorem Lists.unique (hI : I.Intact) (h : I.Lists d target p) (h' : I.Lists d target q) :
    p = q := by
  obtain ⟨hd, ⟨l, hl, hp, hplive, hpname⟩, -⟩ := h
  obtain ⟨-, ⟨l', hl', hq, hqlive, hqname⟩, -⟩ := h'
  obtain rfl := hl'.unique hI.small hl
  exact hI.names d _ p q hd hl hp hq hplive hqlive (hpname.trans hqname.symm)

theorem chainAt_eq (hI : I.total + 2 ≤ badCluster) (hm : I.EntryChain p m) :
    I.chainAt p = m := by
  have h : ∃ m, I.EntryChain p m := ⟨m, hm⟩
  rw [chainAt, dif_pos h]
  exact h.choose_spec.unique hI hm

theorem bytesAt_eq (hI : I.total + 2 ≤ badCluster) (hm : I.EntryChain p m) :
    I.bytesAt p = (List.range (I.entry p).size).map (I.content m) := by
  rw [bytesAt, chainAt_eq hI hm]

theorem files_of_lists (hI : I.Intact) (h : I.Lists d target p) :
    I.files d target = some (I.node p) := by
  rw [files, if_pos ⟨p, h⟩, (Classical.epsilon_spec ⟨p, h⟩ : I.Lists d target _).unique hI h]

theorem files_eq_none (h : ∀ p, ¬I.Lists d target p) : I.files d target = none :=
  if_neg (not_exists.mpr h)

theorem files_eq_some (hI : I.Intact) {n : Node} (h : I.files d target = some n) :
    ∃ p, I.Lists d target p ∧ I.node p = n := by
  by_cases hex : ∃ p, I.Lists d target p
  · obtain ⟨p, hp⟩ := hex
    rw [files_of_lists hI hp] at h
    exact ⟨p, hp, Option.some.inj h⟩
  · rw [files_eq_none (not_exists.mp hex)] at h
    cases h

/-- Where the same slots hold a name and mean the same, the name stands for the same. -/
theorem files_congr (hI : I.Intact) (hJ : J.Intact) (hfrom : ∀ p, J.Lists d target p →
    I.Lists d target p) (hto : ∀ p, I.Lists d target p → J.Lists d target p)
    (hnode : ∀ p, I.Lists d target p → J.node p = I.node p) :
    J.files d target = I.files d target := by
  by_cases hex : ∃ p, I.Lists d target p
  · obtain ⟨p, hp⟩ := hex
    rw [files_of_lists hI hp, files_of_lists hJ (hto p hp), hnode p hp]
  · rw [files_eq_none (not_exists.mp hex),
      files_eq_none fun p hp ↦ hex ⟨p, hfrom p hp⟩]

theorem node_file (hfile : (I.entry p).isDirectory = false) :
    I.node p = .file (I.bytesAt p) (I.chainAt p).length := by
  rw [node, hfile]
  rfl

theorem node_dir (hdir : (I.entry p).isDirectory = true) :
    I.node p = .dir (I.entry p).start (I.chainAt p).length := by
  rw [node, if_pos hdir]

theorem node_blocks (hI : I.total + 2 ≤ badCluster) (hm : I.EntryChain p m) :
    (I.node p).blocks = m.length := by
  rw [← chainAt_eq hI hm]
  cases hdir : (I.entry p).isDirectory with
  | false => rw [node_file hdir, Node.blocks]
  | true => rw [node_dir hdir, Node.blocks]

/-- An entry that is not skipped takes a place. -/
theorem placesOf_nodeAt (hunused : (I.entry p).Live ∨ ¬(I.entry p).Used) :
    Node.placesOf (I.nodeAt p) = if (I.entry p).Used then 1 else 0 := by
  rcases hunused with hlive | hunused
  · rw [nodeAt, if_pos hlive, if_pos hlive.1]
    rfl
  · rw [nodeAt, if_neg fun hlive ↦ hunused hlive.1, if_neg hunused]
    rfl

theorem node_eq_file {bytes : List UInt8} {k : ℕ} (h : I.node p = .file bytes k) :
    (I.entry p).isDirectory = false := by
  cases hdir : (I.entry p).isDirectory with
  | false => rfl
  | true =>
      rw [node_dir hdir] at h
      cases h

theorem node_eq_dir {k : ℕ} (h : I.node p = .dir d k) :
    (I.entry p).isDirectory = true ∧ (I.entry p).start = d := by
  cases hdir : (I.entry p).isDirectory with
  | false =>
      rw [node_file hdir] at h
      cases h
  | true =>
      rw [node_dir hdir] at h
      exact ⟨rfl, (Node.dir.inj h).1⟩

/-- An entry with the same 32 bytes, chain and contents means the same. -/
theorem node_congr (hI : I.total + 2 ≤ badCluster) (htotal : J.total = I.total)
    (hentry : J.entry p = I.entry p) (hm : I.EntryChain p m) (hm' : J.EntryChain p m)
    (hcontent : (I.entry p).isDirectory = false → J.content m = I.content m) :
    J.node p = I.node p := by
  have hchain : J.chainAt p = I.chainAt p := by
    rw [chainAt_eq hI hm, chainAt_eq (by rwa [htotal]) hm']
  cases hdir : (I.entry p).isDirectory with
  | false =>
      rw [node_file hdir, node_file (by rwa [hentry]), bytesAt_eq hI hm,
        bytesAt_eq (by rwa [htotal]) hm', hentry, hcontent hdir, hchain]
  | true => rw [node_dir hdir, node_dir (by rwa [hentry]), hentry, hchain]

theorem Agree.files (h : Agree I.Owned I J) (hI : I.Intact) : J.files = I.files := by
  funext d target
  have hlists : ∀ p, J.Lists d target p ↔ I.Lists d target p := by
    intro p
    constructor
    · rintro ⟨hd, ⟨l, hl, hp, hlive, hname⟩, hdot⟩
      rw [h.isDir_iff hI] at hd
      rw [h.chain_iff hI hd] at hl
      rw [h.slotsOf] at hp
      rw [h.entry_eq hI hd hl hp] at hlive hname hdot
      exact ⟨hd, ⟨l, hl, hp, hlive, hname⟩, hdot⟩
    · rintro ⟨hd, ⟨l, hl, hp, hlive, hname⟩, hdot⟩
      rw [← h.entry_eq hI hd hl hp] at hlive hname hdot
      exact ⟨(h.isDir_iff hI).mpr hd, ⟨l, (h.chain_iff hI hd).mpr hl, by rwa [h.slotsOf], hlive,
        hname⟩, hdot⟩
  refine files_congr hI (h.intact hI) (fun p hp ↦ (hlists p).mp hp)
    (fun p hp ↦ (hlists p).mpr hp) fun p hp ↦ ?_
  obtain ⟨m, hm⟩ := hI.entry_chain p hp.isEntry
  exact node_congr hI.small h.total (h.entry_of_isEntry hI hp.isEntry) hm
    ((h.entryChain_iff hI hp.isEntry).mpr hm) fun _ ↦
      h.content fun c hc ↦ ⟨some p, m, ⟨hp.isEntry, hm⟩, hc⟩

/-! ## Edits -/

namespace Tidy

open Edit

/-- The contents of the other files stay. -/
theorem content_kept (h : Tidy I J d l p old new) (hq : I.IsEntry q) (hqp : q ≠ p)
    (hm : I.EntryChain q m) (hfile : (I.entry q).isDirectory = false) :
    J.content m = I.content m := by
  have hown : I.Owns (some q) m := ⟨hq, hm⟩
  have hne : (some q : Option Pos) ≠ some p := fun hsame ↦ hqp (Option.some.inj hsame)
  obtain ⟨o, l', ho, hl', -, hself⟩ := h.wf.dir_owner h.dir
  obtain rfl := hl'.unique h.wf.small h.chain
  -- the clusters of a directory are not those of a file
  have hdisj : m.Disjoint l' := by
    refine h.wf.disjoint (some q) o m l' hown ho ?_
    rintro rfl
    rw [(hself q rfl).1] at hfile
    cases hfile
  have hagree : Agree {c | c ∈ m} I J := by
    refine ⟨h.total, h.slots, h.root, h.owns_fat hown hne, fun c hc ↦ ?_⟩
    funext i
    refine ((h.frame hq hqp).2 m hm).2 c hc i ?_
    rintro rfl
    exact hdisj hc (mem_slotsOf.mp h.mem).1
  exact hagree.content fun c hc ↦ hc

theorem node_kept (h : Tidy I J d l p old new) (hq : I.IsEntry q) (hqp : q ≠ p) :
    J.node q = I.node q := by
  obtain ⟨m, hm⟩ := h.wf.entry_chain q hq
  obtain ⟨hentry, hchain⟩ := h.frame hq hqp
  exact node_congr h.wf.small h.total hentry hm (hchain m hm).1 (h.content_kept hq hqp hm)

section Named

variable (h : Tidy I J d l p old new) (hempty : OnlyDots I p old)
  (hbefore : (I.entry p).Live → (I.entry p).name = target)
  (hafter : (J.entry p).Live → (J.entry p).name = target)

include h

theorem lists_slot (hlive : (J.entry p).Live) (hname : (J.entry p).name = target) :
    J.Lists d target p :=
  ⟨h.isDir_dir, ⟨l, h.chain_keep h.dir h.chain h.dir_not_removed, h.slotsOf_eq ▸ h.mem, hlive,
    hname⟩, (h.placed hlive).not_dot⟩

/-- A name that is held after the edit was held before, or it is the one in the slot. -/
theorem lists_cases {e : ℕ} {other : List UInt8} (hq : J.Lists e other q) :
    q = p ∧ e = d ∧ (J.entry p).Live ∧ (J.entry p).name = other ∨
      q ≠ p ∧ I.Lists e other q := by
  obtain ⟨he, ⟨m, hm, hqm, hlive, hname⟩, hdot⟩ := hq
  rcases h.isDir_cases he with ⟨he, hkept⟩ | hadded
  · rcases h.entry_of_kept he hkept hm hqm hlive hdot with rfl | ⟨hqp, hsame, hm', hqm', -⟩
    · have hm' := (h.kept_slots he hkept hm).1
      exact Or.inl ⟨rfl, h.dir_eq_of_mem he hm' (h.slotsOf_eq ▸ hqm), hlive, hname⟩
    · rw [hsame] at hlive hname hdot
      exact Or.inr ⟨hqp, he, ⟨m, hm', hqm', hlive, hname⟩, hdot⟩
  · exact absurd (h.added_only_dots hadded hm hqm hlive) hdot

include hempty

theorem lists_of_ne {e : ℕ} {other : List UInt8} (hq : I.Lists e other q) (hqp : q ≠ p) :
    J.Lists e other q := by
  have hsame := h.entry_other hqp (h.entry_notMem_new hq.isEntry)
  obtain ⟨he, ⟨m, hm, hqm, hlive, hname⟩, hdot⟩ := hq
  have hkept := h.not_removed_of_entry hempty hm hqm hlive hdot
  rw [← hsame] at hlive hname hdot
  exact ⟨h.isDir_of_kept hempty he hkept, ⟨m, h.chain_keep he hm hkept, h.slotsOf_eq ▸ hqm, hlive,
    hname⟩, hdot⟩

include hbefore hafter

/-- The edit changes what the name in its slot stands for, and nothing else. -/
theorem files_eq (hnamed : (I.entry p).Live ∨ (J.entry p).Live) :
    J.files = Function.update I.files d (Function.update (I.files d) target (J.nodeAt p)) := by
  funext e other
  by_cases hsame : e = d ∧ other = target
  · obtain ⟨rfl, rfl⟩ := hsame
    rw [Function.update_self, Function.update_self, nodeAt]
    split_ifs with hlive
    · exact files_of_lists h.intact (h.lists_slot hlive (hafter hlive))
    · refine files_eq_none fun q hq ↦ ?_
      rcases h.lists_cases hq with ⟨-, -, hlive', -⟩ | ⟨hqp, -, ⟨m, hm, hqm, hqlive, hqname⟩, -⟩
      · exact hlive hlive'
      · -- the slot held the name before
        have hplive := hnamed.resolve_right hlive
        obtain rfl := hm.unique h.wf.small h.chain
        exact hqp (h.wf.names _ _ q p h.dir hm hqm h.mem hqlive hplive
          (hqname.trans (hbefore hplive).symm))
  · have hupdate : Function.update I.files d (Function.update (I.files d) target (J.nodeAt p))
        e other = I.files e other := by
      by_cases he : e = d
      · subst he
        rw [Function.update_self, Function.update_of_ne fun ho ↦ hsame ⟨rfl, ho⟩]
      · rw [Function.update_of_ne he]
    rw [hupdate]
    have hne : ∀ q, I.Lists e other q → q ≠ p := by
      rintro q ⟨he, ⟨m, hm, hqm, hlive, hname⟩, -⟩ rfl
      exact hsame ⟨h.dir_eq_of_mem he hm hqm, hname.symm.trans (hbefore hlive)⟩
    refine files_congr h.wf h.intact (fun q hq ↦ ?_) (fun q hq ↦ h.lists_of_ne hempty hq (hne q hq))
      fun q hq ↦ h.node_kept hq.isEntry (hne q hq)
    rcases h.lists_cases hq with ⟨-, he, hlive, hname⟩ | ⟨-, hold⟩
    · exact absurd ⟨he, hname.symm.trans (hafter hlive)⟩ hsame
    · exact hold

/-- What the name stood for before. -/
theorem files_before (hnamed : (I.entry p).Live ∨ (J.entry p).Live) :
    I.files d target = I.nodeAt p := by
  rw [nodeAt]
  split_ifs with hlive
  · have hdot : ¬(I.entry p).IsDot := by
      rcases h.owned with ⟨⟨_, _, -, -, -, -, hdot⟩, -⟩ | ⟨hdead, -⟩
      · exact hdot
      · exact absurd hlive hdead
    exact files_of_lists h.wf ⟨h.dir, ⟨l, h.chain, h.mem, hlive, hbefore hlive⟩, hdot⟩
  · have hlive' := hnamed.resolve_left hlive
    refine files_eq_none fun q hq ↦ ?_
    have hqp : q ≠ p := by
      rintro rfl
      obtain ⟨-, ⟨-, -, -, hqlive, -⟩, -⟩ := hq
      exact hlive hqlive
    -- the slot holds the name after the edit, and so would `q`
    exact hqp ((h.lists_of_ne hempty hq hqp).unique h.intact
      (h.lists_slot hlive' (hafter hlive')))

end Named

theorem blocks_before (h : Tidy I J d l p old new) :
    Node.blocksOf (I.nodeAt p) = old.length := by
  rcases h.owned with ⟨⟨_, _, -, -, -, hlive, -⟩, hold⟩ | ⟨hdead, rfl⟩
  · rw [nodeAt, if_pos hlive]
    exact node_blocks h.wf.small hold
  · rw [nodeAt, if_neg hdead]
    rfl

theorem blocks_after (h : Tidy I J d l p old new) :
    Node.blocksOf (J.nodeAt p) = new.length := by
  rcases h.slot with ⟨hdeleted, rfl⟩ | hplaced
  · rw [nodeAt, if_neg fun hlive ↦ hlive.1.2 hdeleted]
    rfl
  · rw [nodeAt, if_pos hplaced.live]
    exact node_blocks h.intact.small hplaced.chain

/-- The room in the directory of the slot. -/
theorem room_places (h : Tidy I J d l p old new)
    (hunused : (I.entry p).Live ∨ ¬(I.entry p).Used) :
    J.room d = I.room d + Node.placesOf (I.nodeAt p) - Node.placesOf (J.nodeAt p) := by
  have hafter : (J.entry p).Live ∨ ¬(J.entry p).Used := by
    rcases h.slot with ⟨hdeleted, -⟩ | hplaced
    · exact Or.inr fun hused ↦ hused.2 hdeleted
    · exact Or.inl hplaced.live
  have hroom := h.room_dir
  rw [← placesOf_nodeAt hunused, ← placesOf_nodeAt hafter] at hroom
  omega

end Tidy

end Image

/-! ## The file system of a volume -/

noncomputable def Vol.files (v : Vol) : Files where
  root := v.image.root
  cwd := v.cwdCluster
  nodes := v.image.files
  block := 32 * v.image.slots
  free := v.image.freeClusters.length
  room := v.image.room

theorem Vol.look_named (h : v.Sound) (hp : v.image.Named v.cwdCluster (toShortName name) p) :
    v.files.look name = some (v.image.node p) := by
  have hdot := not_dot_of_shortName hp.choose_spec.2.2.2
  exact files_of_lists h.wf ⟨h.cwd, hp, hdot⟩

theorem Vol.look_eq_some (h : v.Sound) {n : Node} (hlook : v.files.look name = some n) :
    ∃ p, v.image.Lists v.cwdCluster (toShortName name) p ∧ v.image.node p = n :=
  files_eq_some h.wf hlook

theorem Vol.files_of_quiet (h : Quiet v w) : w.files = v.files := by
  rw [Vol.files, Vol.files, h.image, h.cwd]

/-- To overwrite free clusters changes nothing. -/
theorem Vol.files_of_scratched (h : v.Sound) (hkeep : Keeps v w)
    (hscratch : Scratched v.image w.image N) : w.files = v.files := by
  have hfree : w.image.freeClusters = v.image.freeClusters := by
    rw [freeClusters, freeClusters, hscratch.fat, hscratch.total]
  rw [Vol.files, hscratch.agree.files h.wf, hscratch.agree.room h.wf, hscratch.root,
    hscratch.slots, hfree, hkeep.cwd]
  rfl

section Edited

variable {op : Op} (h : op.Edits v w l p old new) (hkeep : Keeps v w)
  (hempty : OnlyDots v.image p old)

include h hempty

theorem Vol.look_edited : v.files.look op.name = v.image.nodeAt p :=
  h.files_before hempty h.name_before h.name_after h.live

include hkeep in
/-- The file system after an edit, but for the room in directories. -/
theorem Vol.files_edited : w.files =
    { v.files.put op.name (w.image.nodeAt p) with room := w.image.room } := by
  have hfree : w.image.freeClusters.length = v.image.freeClusters.length +
      Node.blocksOf (v.files.look op.name) - Node.blocksOf (w.image.nodeAt p) := by
    have hcount := h.free_length
    rw [Vol.look_edited h hempty, h.blocks_before, h.blocks_after]
    omega
  rw [Vol.files, h.files_eq hempty h.name_before h.name_after h.live, hkeep.cwd, h.root, h.slots,
    hfree]
  rfl

/-- The room in a directory that the edit neither adds nor takes away. -/
theorem Vol.room_edited {e : ℕ} (hkept : ¬Edit.Removed v.image p e)
    (hold : ¬Tidy.Added w.image p e) :
    w.image.room e = (v.files.put op.name (w.image.nodeAt p)).room e := by
  by_cases he : e = v.cwdCluster
  · have hroom : (v.files.put op.name (w.image.nodeAt p)).room v.cwdCluster =
        v.image.room v.cwdCluster + Node.placesOf (v.files.look op.name) -
          Node.placesOf (w.image.nodeAt p) := Function.update_self _ _ _
    rw [he, hroom, Vol.look_edited h hempty]
    exact h.room_places h.unused
  · have hroom : (v.files.put op.name (w.image.nodeAt p)).room e = v.image.room e :=
      Function.update_of_ne he _ _
    rw [hroom]
    exact h.room_other hempty he hkept hold

include hkeep

omit hempty in
/-- An edit of a file's slot changes what the name stands for. -/
theorem Vol.files_edited_file
    (hfile : (v.image.entry p).Live → (v.image.entry p).isDirectory = false)
    (hfile' : (w.image.entry p).Live → (w.image.entry p).isDirectory = false) :
    w.files = v.files.put op.name (w.image.nodeAt p) := by
  have hempty : OnlyDots v.image p old := onlyDots_of_file hfile
  have hroom : w.image.room = (v.files.put op.name (w.image.nodeAt p)).room := by
    funext e
    refine Vol.room_edited h hempty ?_ ?_
    · rintro ⟨⟨_, _, -, -, -, hlive, -⟩, hdir, -⟩
      rw [hfile hlive] at hdir
      cases hdir
    · rintro ⟨hlive, hdir, -⟩
      rw [hfile' hlive] at hdir
      cases hdir
  rw [Vol.files_edited h hkeep hempty, hroom]

/-- An edit that adds or removes the directory `d` changes the room in it, too. -/
theorem Vol.files_edited_dir
    (hdir : ∀ e, Edit.Removed v.image p e ∨ Tidy.Added w.image p e → e = d) :
    w.files = (v.files.put op.name (w.image.nodeAt p)).resize d (w.image.room d) := by
  have hroom : w.image.room =
      Function.update (v.files.put op.name (w.image.nodeAt p)).room d (w.image.room d) := by
    funext e
    by_cases he : e = d
    · rw [he, Function.update_self]
    · rw [Function.update_of_ne he]
      exact Vol.room_edited h hempty (fun hrem ↦ he (hdir e (Or.inl hrem)))
        fun hadd ↦ he (hdir e (Or.inr hadd))
  rw [Vol.files_edited h hkeep hempty, Files.resize, ← hroom]

end Edited

end MyOS.Fat32
