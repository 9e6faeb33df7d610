import MyOS.Fat32.Scan
import MyOS.Fat32.Spares

/-!
# Listing directories and reading files

`fat32_listdir` hands the live entries of a directory to its visitor, in the order of their
slots.  `fat32_read_file` copies the clusters of a chain one after the other, up to the size
in the entry.  On a drive without failures both are functions of the image.
-/

namespace MyOS.Fat32

open Bytes Image

variable {v v' : Vol} {c s : ℕ} {l : List ℕ} {p q : Pos}

theorem readCluster_spec (hv : v.Ready) (hlo : 2 ≤ c) (hhi : c < v.geo.totalClusters + 2) :
    ∃ buf v', readCluster v c = (true, buf, v') ∧ Quiet v v' ∧ v'.Ready ∧
      ∀ i < clusterBytes v.geo, buf i = v.image.data c i := by
  have hlba := hv.geo.clusterToLba_eq hlo hhi
  have hend := hv.geo.cluster_end hlo hhi
  have hspc := hv.geo.spc_pos
  have hlt : clusterToLba v.geo c < 2 ^ 28 := by omega
  have hread := Vol.ataRead_eq hv.reliable hlt v.geo.sectorsPerCluster blank
  refine ⟨_, _, hread, ⟨⟨rfl, rfl, rfl⟩, rfl, rfl⟩,
    ⟨hv.mounted, hv.geo, hv.reliable, hv.hint, hv.cache⟩, fun i hi ↦ ?_⟩
  have hi' : i < 512 * v.geo.sectorsPerCluster := hi
  rw [blit_apply (Nat.zero_le i) (by omega), image_data hlo hhi hi, hlba, clusterAddr, Nat.sub_zero]

/-! ## Listing -/

/-- The entries that a listing of the slots `ps` visits. -/
def Image.liveIn (I : Image) (ps : List Pos) : List Dirent :=
  (ps.filter fun p ↦ (I.entry p).Live).map I.entry

theorem Image.liveIn_append (I : Image) (ps qs : List Pos) :
    I.liveIn (ps ++ qs) = I.liveIn ps ++ I.liveIn qs := by
  rw [liveIn, List.filter_append, List.map_append]
  rfl

theorem Image.liveIn_eq_nil {I : Image} {ps : List Pos} (h : ∀ p ∈ ps, ¬(I.entry p).Used) :
    I.liveIn ps = [] := by
  have hnone : ps.filter (fun p ↦ decide (I.entry p).Live) = [] := by
    rw [List.filter_eq_nil_iff]
    intro p hp hlive
    exact h p hp (of_decide_eq_true hlive).1
  rw [liveIn, hnone, List.map_nil]

section Listing

variable {σ : Type} (visit : σ → Dirent → σ)

/-- One cluster: the live entries are visited, and a reported end mark is there. -/
theorem listEntries_spec {I : Image} (buf : Bytes) (n i : ℕ) (ctx : σ)
    (hbuf : ∀ j, i ≤ j → j < i + n → direntAt buf (32 * j) = I.entry (c, j))
    (hends : (slotRange c i n).Pairwise fun p q ↦ (I.entry p).first = 0 → ¬(I.entry q).Used) :
    ∃ b, listEntries visit buf n i ctx = (b, (I.liveIn (slotRange c i n)).foldl visit ctx) ∧
      (b = true → ∃ p ∈ slotRange c i n, (I.entry p).first = 0) := by
  induction n generalizing i ctx with
  | zero => exact ⟨false, rfl, nofun⟩
  | succ n ih =>
      have hcons : slotRange c i (n + 1) = (c, i) :: slotRange c (i + 1) n := by
        rw [slotRange, List.range'_succ, List.map_cons, slotRange]
      have hentry := hbuf i (le_refl i) (by omega)
      rw [hcons] at hends ⊢
      obtain ⟨hhead, htail⟩ := List.pairwise_cons.mp hends
      have hbuf' : ∀ j, i + 1 ≤ j → j < i + 1 + n → direntAt buf (32 * j) = I.entry (c, j) :=
        fun j hlo hhi ↦ hbuf j (by omega) (by omega)
      have hrest : ∀ ctx, ∃ b, listEntries visit buf n (i + 1) ctx =
          (b, (I.liveIn (slotRange c (i + 1) n)).foldl visit ctx) ∧
          (b = true → ∃ p ∈ (c, i) :: slotRange c (i + 1) n, (I.entry p).first = 0) := by
        intro ctx
        obtain ⟨b, hlist, hmark⟩ := ih (i + 1) ctx hbuf' htail
        refine ⟨b, hlist, fun hb ↦ ?_⟩
        obtain ⟨p, hp, hzero⟩ := hmark hb
        exact ⟨p, List.mem_cons_of_mem _ hp, hzero⟩
      have hdead : ¬(I.entry (c, i)).Live →
          I.liveIn ((c, i) :: slotRange c (i + 1) n) = I.liveIn (slotRange c (i + 1) n) := by
        intro hnot
        rw [liveIn, liveIn, List.filter_cons_of_neg (by simpa using hnot)]
      rw [listEntries]
      simp only [hentry]
      split_ifs with hzero hdeleted hlfn hvol
      · -- the end mark: nothing live is left
        refine ⟨true, ?_, fun _ ↦ ⟨(c, i), List.mem_cons_self, hzero⟩⟩
        rw [hdead fun hlive ↦ hlive.1.1 hzero, liveIn_eq_nil fun q hq ↦ hhead q hq hzero]
        rfl
      · rw [hdead fun hlive ↦ hlive.1.2 hdeleted]
        exact hrest ctx
      · rw [hdead fun hlive ↦ hlive.2.1 hlfn]
        exact hrest ctx
      · rw [hdead fun hlive ↦ hvol hlive.2.2]
        exact hrest ctx
      · have hlive : (I.entry (c, i)).Live := ⟨⟨hzero, hdeleted⟩, hlfn, not_not.mp hvol⟩
        rw [liveIn, List.filter_cons_of_pos (by simpa using hlive), List.map_cons, List.foldl_cons]
        exact hrest (visit ctx (I.entry (c, i)))

theorem listLoop_spec (l : List ℕ) {fuel : ℕ} (ctx : σ) (hv : v.Ready)
    (hl : v.image.Trail s l) (hends : v.image.Ended l) (hfuel : l.length < fuel) :
    ∃ v', listLoop visit fuel s v ctx =
        .done ((v.image.liveIn (v.image.slotsOf l)).foldl visit ctx, v') ∧
      Quiet v v' ∧ v'.Ready := by
  induction l generalizing s v fuel ctx with
  | nil =>
      have hz : isEoc s = true := hl
      obtain ⟨fuel, rfl⟩ : ∃ k, fuel = k + 1 := ⟨fuel - 1, by simp at hfuel; omega⟩
      refine ⟨v, ?_, .refl v, hv⟩
      rw [listLoop, if_neg (by simp [hz])]
      rfl
  | cons c l ih =>
      obtain ⟨rfl, hlo, hhi, heoc, hrest⟩ := hl
      obtain ⟨fuel, rfl⟩ : ∃ k, fuel = k + 1 := ⟨fuel - 1, by simp at hfuel; omega⟩
      obtain ⟨buf, v₁, hread, hquiet₁, hv₁, hbuf⟩ := readCluster_spec hv hlo hhi
      have hslots : v₁.geo.sectorsPerCluster * 512 / 32 = v.image.slots := by
        rw [hquiet₁.geo]
        simp only [Vol.image, imageOf]
        omega
      rw [Ended, slotsOf_cons] at hends
      obtain ⟨hhere, hthere, hcross⟩ := List.pairwise_append.mp hends
      obtain ⟨b, hlist, hmark⟩ := listEntries_spec (I := v.image) (c := c) visit buf
        v.image.slots 0 ctx (by
          intro j _ hj
          have hin : 32 * j + 32 ≤ clusterBytes v.geo := by
            rw [← clusterBytes_eq]
            omega
          exact direntAt_congr fun k hk ↦ hbuf _ (by omega)) hhere
      rw [listLoop, if_pos ⟨by simp [heoc], hlo⟩, slotsOf_cons, liveIn_append, List.foldl_append]
      simp only [hread, hslots, hlist]
      cases b with
      | true =>
          obtain ⟨p, hp, hzero⟩ := hmark rfl
          refine ⟨v₁, ?_, hquiet₁, hv₁⟩
          rw [liveIn_eq_nil fun q hq ↦ hcross p hp q hq hzero]
          rfl
      | false =>
          obtain ⟨v₂, hnext, hquiet₂, hv₂⟩ := nextCluster_spec (c := c) hv₁ (by rwa [hquiet₁.geo])
          have hquiet := hquiet₁.trans hquiet₂
          have hends₂ : v₂.image.Ended l := by
            rw [hquiet.image]
            exact hthere
          obtain ⟨v', hloop, hquiet', hv'⟩ := ih (s := v.image.fat c)
            ((v.image.liveIn (slotRange c 0 v.image.slots)).foldl visit ctx) hv₂
            (by rwa [hquiet.image]) hends₂ (Nat.lt_of_succ_lt_succ hfuel)
          refine ⟨v', ?_, hquiet.trans hquiet', hv'⟩
          rw [hquiet.image] at hloop
          simp only [hnext, hquiet₁.image, hloop]

theorem fat32Listdir_spec (hv : v.Ready) (hl : v.image.Chain s l) (hends : v.image.Ended l)
    (ctx : σ) :
    ∃ v', fat32Listdir visit v s ctx =
        .done ((v.image.liveIn (v.image.slotsOf l)).foldl visit ctx, v') ∧
      Quiet v v' ∧ v'.Ready := by
  have hsmall := hv.geo.total_small
  rw [fat32Listdir, if_pos hv.mounted]
  exact listLoop_spec visit l ctx hv (hl.trail hsmall) hends (hl.length_lt_walkFuel hsmall)

end Listing

theorem foldl_findVisitor (target : List UInt8) (es : List Dirent) :
    es.foldl (findVisitor target) none =
      es.find? fun e ↦ strEqCi (formatShortName e.name) target := by
  have hfound : ∀ (es : List Dirent) (e : Dirent),
      es.foldl (findVisitor target) (some e) = some e := by
    intro es e
    induction es with
    | nil => rfl
    | cons _ es ih => exact ih
  induction es with
  | nil => rfl
  | cons e es ih =>
      rw [List.foldl_cons, List.find?_cons, findVisitor]
      cases hname : strEqCi (formatShortName e.name) target with
      | true => simpa using hfound es e
      | false => simpa using ih

/-- `fat32_find` returns the first live entry whose name matches. -/
theorem fat32Find_spec (hv : v.Ready) (hl : v.image.Chain v.cwdCluster l)
    (hends : v.image.Ended l) (name : List UInt8) :
    ∃ v', fat32Find v name = .done ((v.image.liveIn (v.image.slotsOf l)).find? fun e ↦
        strEqCi (formatShortName e.name) name, v') ∧ Quiet v v' ∧ v'.Ready := by
  obtain ⟨v', hlist, hquiet, hv'⟩ := fat32Listdir_spec (findVisitor name) hv hl hends none
  refine ⟨v', ?_, hquiet, hv'⟩
  rw [fat32Find, if_pos hv.mounted, hlist, foldl_findVisitor]

/-! ## Reading -/

/-- The bytes of the clusters `l`, one after the other. -/
def Image.content (I : Image) : List ℕ → Bytes
  | [], _ => 0
  | c :: l, i => if i < 32 * I.slots then I.data c i else content I l (i - 32 * I.slots)

theorem content_cons_of_lt (I : Image) {c i : ℕ} (hi : i < 32 * I.slots) :
    I.content (c :: l) i = I.data c i := if_pos hi

theorem content_cons_add (I : Image) (c i : ℕ) :
    I.content (c :: l) (32 * I.slots + i) = I.content l i := by
  rw [Image.content, if_neg (by omega), Nat.add_sub_cancel_left]

theorem Image.Agree.content {I J : Image} {O : Set ℕ} (h : Agree O I J)
    (hl : ∀ c ∈ l, c ∈ O) : J.content l = I.content l := by
  induction l with
  | nil => rfl
  | cons c l ih =>
      funext i
      have htail := ih fun x hx ↦ hl x (List.mem_cons_of_mem c hx)
      rw [Image.content, Image.content, h.slots, htail, h.data c (hl c List.mem_cons_self)]

/-- What a round of the reading loop copies and what the others copy are adjacent. -/
theorem blit_round (I : Image) {c size copied dst csz : ℕ} {buf : Bytes} (mem : Bytes)
    (hcsz : 32 * I.slots = csz) (hbuf : ∀ i < csz, buf i = I.data c i) :
    (mem.blit (dst + copied) (if size - copied < csz then size - copied else csz) buf).blit
        (dst + (copied + if size - copied < csz then size - copied else csz))
        (min (size - (copied + if size - copied < csz then size - copied else csz))
          (l.length * csz)) (I.content l)
      = mem.blit (dst + copied) (min (size - copied) (csz + l.length * csz))
          (I.content (c :: l)) := by
  have hcontent : ∀ i < csz, buf i = I.content (c :: l) i := by
    intro i hi
    rw [content_cons_of_lt _ (by omega), hbuf i hi]
  have hshift : I.content l = fun i ↦ I.content (c :: l) (csz + i) := by
    funext i
    rw [← hcsz, content_cons_add]
  by_cases hlast : size - copied < csz
  · have hnone : size - (copied + (size - copied)) = 0 := by omega
    have hall : min (size - copied) (csz + l.length * csz) = size - copied := by omega
    simp only [if_pos hlast, hnone, hall, Nat.zero_min, blit_zero]
    exact blit_congr fun i hi ↦ hcontent i (by omega)
  · have hsum : min (size - copied) (csz + l.length * csz) =
        csz + min (size - (copied + csz)) (l.length * csz) := by omega
    simp only [if_neg hlast, hsum, ← Nat.add_assoc]
    rw [blit_congr hcontent, hshift]
    exact blit_blit_adjacent mem (dst + copied) csz _ (I.content (c :: l))

theorem readLoop_spec (dst size : ℕ) (l : List ℕ) (fuel copied : ℕ) (mem : Bytes)
    (hv : v.Ready) (hl : v.image.Trail s l) (hfuel : l.length < fuel) (hcopied : copied ≤ size) :
    ∃ v', readLoop dst size fuel s copied mem v =
        .done (toInt (min size (copied + l.length * (32 * v.image.slots))),
          mem.blit (dst + copied) (min (size - copied) (l.length * (32 * v.image.slots)))
            (v.image.content l), v') ∧
      Quiet v v' ∧ v'.Ready := by
  induction l generalizing s v fuel copied mem with
  | nil =>
      have hz : isEoc s = true := hl
      obtain ⟨fuel, rfl⟩ : ∃ k, fuel = k + 1 := ⟨fuel - 1, by simp at hfuel; omega⟩
      refine ⟨v, ?_, .refl v, hv⟩
      rw [readLoop, if_neg (by simp [hz])]
      simp [hcopied]
  | cons c l ih =>
      obtain ⟨rfl, hlo, hhi, heoc, hrest⟩ := hl
      obtain ⟨fuel, rfl⟩ : ∃ k, fuel = k + 1 := ⟨fuel - 1, by simp at hfuel; omega⟩
      by_cases hmore : copied < size
      · obtain ⟨buf, v₁, hread, hquiet₁, hv₁, hbuf⟩ := readCluster_spec hv hlo hhi
        obtain ⟨v₂, hnext, hquiet₂, hv₂⟩ := nextCluster_spec (c := c) hv₁ (by rwa [hquiet₁.geo])
        have hquiet := hquiet₁.trans hquiet₂
        have hbytes : v₁.geo.sectorsPerCluster * 512 = 32 * v.image.slots := by
          rw [hquiet₁.geo, clusterBytes_eq, clusterBytes, Nat.mul_comm]
        generalize hcsz : 32 * v.image.slots = csz at *
        obtain ⟨v', hloop, hquiet', hv'⟩ := ih (s := v.image.fat c) fuel
          (copied + if size - copied < csz then size - copied else csz)
          (mem.blit (dst + copied) (if size - copied < csz then size - copied else csz) buf) hv₂
          (by rwa [hquiet.image]) (Nat.lt_of_succ_lt_succ hfuel) (by split <;> omega)
        refine ⟨v', ?_, hquiet.trans hquiet', hv'⟩
        rw [hquiet.image, hcsz] at hloop
        rw [readLoop, if_pos ⟨by simp [heoc], hlo, hmore⟩]
        simp only [hread, hbytes, hnext, hquiet₁.image, hloop]
        have hlen : (c :: l).length * csz = csz + l.length * csz := by
          rw [List.length_cons, Nat.succ_mul, Nat.add_comm]
        rw [hlen]
        refine congrArg Outcome.done (Prod.ext ?_ (Prod.ext ?_ rfl))
        · refine congrArg toInt ?_
          split <;> omega
        · exact blit_round v.image mem hcsz fun i hi ↦
            hbuf i (by rw [← clusterBytes_eq]; omega)
      · obtain rfl : copied = size := by omega
        refine ⟨v, ?_, .refl v, hv⟩
        rw [readLoop, if_neg (by simp)]
        simp

/-- `fat32_read_file` of an entry with the chain `l`. -/
theorem fat32ReadFile_spec (hv : v.Ready) (hl : v.image.EntryChain p l) (mem : Bytes)
    (dst max : ℕ) :
    ∃ v', fat32ReadFile v (v.image.entry p) mem dst max =
        .done (toInt (min (min (v.image.entry p).size max) (l.length * (32 * v.image.slots))),
          mem.blit dst (min (min (v.image.entry p).size max) (l.length * (32 * v.image.slots)))
            (v.image.content l), v') ∧
      Quiet v v' ∧ v'.Ready := by
  have hmin : (if (v.image.entry p).size > max then max else (v.image.entry p).size) =
      min (v.image.entry p).size max := by
    split <;> omega
  rw [fat32ReadFile, if_pos hv.mounted]
  simp only [hmin]
  rcases hl with hchain | ⟨rfl, -, hstart, hsize⟩
  · have hsmall := hv.geo.total_small
    obtain ⟨v', hloop, hquiet, hv'⟩ := readLoop_spec dst (min (v.image.entry p).size max) l
      walkFuel 0 mem hv (hchain.trail hsmall) (hchain.length_lt_walkFuel hsmall) (Nat.zero_le _)
    refine ⟨v', ?_, hquiet, hv'⟩
    simpa using hloop
  · refine ⟨v, ?_, .refl v, hv⟩
    obtain ⟨fuel, hfuel⟩ : ∃ k, walkFuel = k + 1 := ⟨2 ^ 32 - 1, by norm_num [walkFuel]⟩
    rw [hstart, hsize, hfuel, readLoop, if_neg (by simp)]
    simp

end MyOS.Fat32
