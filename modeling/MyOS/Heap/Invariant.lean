import MyOS.Heap.Refine

/-!
# Every run of the heap keeps its representation

A run starts with `kheap_init` and continues with any calls of `kmalloc`, with `kfree`
of pointers that are allocated, and with stores of the clients that miss the headers.
-/

namespace MyOS.Heap

open Bytes Tiling

variable {A : Arena} {h h' : Kheap} {b c : Block} {l : List Block} {prev size p : ℕ}

/-- The blocks reached from `head` along `next`. -/
inductive OnList (h : Kheap) : ℕ → Prop where
  | head (hne : h.head ≠ 0) : OnList h h.head
  | next {b : ℕ} (hb : OnList h b) (hne : h.next b ≠ 0) : OnList h (h.next b)

/-- A heap in use, with the pointers that were handed out and not freed since. -/
structure Usage where
  heap : Kheap
  live : List ℕ

inductive Reachable (A : Arena) : Usage → Prop where
  | init (mem : Bytes) : Reachable A ⟨kheapInit A mem, []⟩
  | malloc {s : Usage} {h' : Kheap} {p size : ℕ} (hs : Reachable A s) (hsize : size < 2 ^ 32)
      (hcall : kmalloc s.heap size = .done (p, h')) :
      Reachable A ⟨h', if p = 0 then s.live else p :: s.live⟩
  | free {s : Usage} {h' : Kheap} {p : ℕ} (hs : Reachable A s) (hp : p ∈ s.live)
      (hcall : kfree s.heap p = .done h') : Reachable A ⟨h', s.live.erase p⟩
  | store {s : Usage} {a : ℕ} (v : UInt8) (hs : Reachable A s)
      (ha : ∀ b, OnList s.heap b → a < b ∨ b + hdrSize ≤ a) :
      Reachable A ⟨{ s.heap with mem := Function.update s.heap.mem a v }, s.live⟩

theorem onList_of_linked (hl : Linked h.mem prev l 0) (hpos : ∀ b ∈ l, 0 < b.start)
    (hstart : l = [] ∨ OnList h (headOr 0 l)) (hb : b ∈ l) : OnList h b.start := by
  induction l generalizing prev with
  | nil => cases hb
  | cons c l ih =>
      obtain ⟨hc, hl⟩ := hl
      have hon : OnList h c.start := by simpa [headOr] using hstart
      rcases List.mem_cons.mp hb with rfl | hb
      · exact hon
      · apply ih hl (fun d hd ↦ hpos d (List.mem_cons_of_mem c hd)) _ hb
        cases l with
        | nil => exact Or.inl rfl
        | cons d l =>
            have hnext : h.next c.start = d.start := hc.next
            have hne : h.next c.start ≠ 0 := by
              rw [hnext]
              exact (hpos d (by simp)).ne'
            have hon' := OnList.next hon hne
            rw [hnext] at hon'
            exact Or.inr hon'

/-- The blocks of the represented list are those reached from `head`. -/
theorem Represents.onList_iff (hr : Represents A h l) {a : ℕ} :
    OnList h a ↔ ∃ b ∈ l, b.start = a := by
  constructor
  · intro ha
    induction ha with
    | head hne =>
        rw [hr.head_eq_headOr] at hne ⊢
        cases l with
        | nil => exact (hne rfl).elim
        | cons b l => exact ⟨b, List.mem_cons_self, rfl⟩
    | next hb hne ih =>
        obtain ⟨b, hbl, rfl⟩ := ih
        obtain ⟨pre, post, rfl⟩ := List.append_of_mem hbl
        obtain ⟨-, hhead, -⟩ := linked_middle.mp hr.linked
        rw [show h.next b.start = headOr 0 post from hhead.next] at hne ⊢
        cases post with
        | nil => exact (hne rfl).elim
        | cons c post => exact ⟨c, by simp, rfl⟩
  · rintro ⟨b, hb, rfl⟩
    refine onList_of_linked hr.linked (fun c hc ↦ hr.start_pos hc) (Or.inr ?_) hb
    rw [← hr.head_eq_headOr]
    exact OnList.head (hr.head_eq ▸ A.base_pos.ne')

theorem kheapInit_mem (A : Arena) (mem : Bytes) : (kheapInit A mem).mem =
    writeHeader mem ⟨A.base, storageSize - hdrSize, false⟩ 0 0 := rfl

theorem represents_kheapInit (A : Arena) (mem : Bytes) :
    Represents A (kheapInit A mem) [⟨A.base, storageSize - hdrSize, false⟩] := by
  have hhead : HeaderAt (kheapInit A mem).mem ⟨A.base, storageSize - hdrSize, false⟩ 0 0 := by
    rw [kheapInit_mem]
    apply headerAt_writeHeader <;> norm_num [storageSize, hdrSize]
  have hsize : hdrSize + (storageSize - hdrSize) = storageSize := by norm_num [hdrSize, storageSize]
  refine ⟨rfl, ⟨hhead, trivial⟩, ⟨rfl, ?_⟩, List.IsChain.singleton _⟩
  rw [tiles_nil, Block.stop, Nat.add_assoc, hsize]

/-- Only the header bytes matter for the representation. -/
theorem Represents.congr {m : Bytes} (hr : Represents A h l)
    (hm : ∀ b ∈ l, ∀ i, b.start ≤ i → i < b.start + hdrSize → m i = h.mem i) :
    Represents A { h with mem := m } l :=
  ⟨hr.head_eq, hr.linked.congr hm, hr.tiles, hr.packed⟩

/-- What holds of every reachable heap: memory represents a block list whose used blocks are
the live allocations. -/
def HeapInv (A : Arena) (s : Usage) : Prop :=
  ∃ l, Represents A s.heap l ∧ s.live.Perm (held hdrSize l)

theorem kmalloc_inv {s : Usage} (hs : HeapInv A s) (size : ℕ) :
    ∃ p h', kmalloc s.heap size = .done (p, h') ∧
      HeapInv A ⟨h', if p = 0 then s.live else p :: s.live⟩ := by
  obtain ⟨l, hr, hlive⟩ := hs
  by_cases hsize : size = 0
  · exact ⟨0, s.heap, by simp [kmalloc, hsize], l, hr, hlive⟩
  · have hcall := kmalloc_of_represents hr hsize
    cases hfit : firstFit hdrSize kheapAlign (alignUp size kheapAlign) l with
    | none =>
        rw [hfit] at hcall
        exact ⟨0, s.heap, hcall, l, hr, hlive⟩
    | some r =>
        rw [hfit] at hcall
        obtain ⟨h', hcall, hr'⟩ := hcall
        refine ⟨r.1, h', hcall, r.2, hr', ?_⟩
        have hmem : r.1 ∈ held hdrSize r.2 := (held_firstFit hfit).mem_iff.mpr List.mem_cons_self
        obtain ⟨b, hb, -, hbp⟩ := mem_held.mp hmem
        have hne : r.1 ≠ 0 := by
          have hpos := hr'.start_pos hb
          unfold Block.payload at hbp
          omega
        rw [if_neg hne]
        exact (hlive.cons r.1).trans (held_firstFit hfit).symm

theorem kfree_inv {s : Usage} (hs : HeapInv A s) (hp : p ∈ s.live) :
    ∃ h', kfree s.heap p = .done h' ∧ HeapInv A ⟨h', s.live.erase p⟩ := by
  obtain ⟨l, hr, hlive⟩ := hs
  have hheld := hlive.mem_iff.mp hp
  obtain ⟨b, hb, hused, rfl⟩ := mem_held.mp hheld
  obtain ⟨h', hcall, hr'⟩ := kfree_of_represents hr hb hused
  refine ⟨h', hcall, _, hr', ?_⟩
  rw [hr.tiles.held_release (by norm_num [hdrSize]) hheld]
  exact hlive.erase _

/-- The block at the head of the live ones can be freed. -/
theorem HeapInv.free_head {live : List ℕ} (hs : HeapInv A ⟨h, p :: live⟩) :
    ∃ h', kfree h p = .done h' ∧ HeapInv A ⟨h', live⟩ := by
  obtain ⟨h', hcall, hinv⟩ := kfree_inv hs List.mem_cons_self
  simp only [List.erase_cons_head] at hinv
  exact ⟨h', hcall, hinv⟩

theorem HeapInv.perm {live live' : List ℕ} (hs : HeapInv A ⟨h, live⟩) (hperm : live'.Perm live) :
    HeapInv A ⟨h, live'⟩ := by
  obtain ⟨l, hr, hlive⟩ := hs
  exact ⟨l, hr, hperm.trans hlive⟩

theorem HeapInv.nodup {s : Usage} (hs : HeapInv A s) : s.live.Nodup := by
  obtain ⟨l, hr, hlive⟩ := hs
  exact hlive.nodup_iff.mpr (hr.tiles.held_nodup (by norm_num [hdrSize]))

theorem HeapInv.ne_zero {s : Usage} (hs : HeapInv A s) (hp : p ∈ s.live) : p ≠ 0 := by
  obtain ⟨l, hr, hlive⟩ := hs
  obtain ⟨b, hb, -, rfl⟩ := mem_held.mp (hlive.mem_iff.mp hp)
  have hpos := hr.start_pos hb
  unfold Block.payload
  omega

theorem HeapInv.length_lt {s : Usage} (hs : HeapInv A s) : s.live.length < walkFuel := by
  obtain ⟨l, hr, hlive⟩ := hs
  have hheld : (held hdrSize l).length ≤ l.length := by
    rw [held, List.length_map]
    exact List.length_filter_le Block.used l
  exact hlive.length_eq.trans_lt (hheld.trans_lt hr.length_lt)

theorem Reachable.inv {s : Usage} (hs : Reachable A s) : HeapInv A s := by
  induction hs with
  | init mem => exact ⟨_, represents_kheapInit A mem, by simp [held]⟩
  | @malloc s h' p size hs hsize hcall ih =>
      obtain ⟨p', h'', hcall', hinv⟩ := kmalloc_inv ih size
      rw [hcall, Outcome.done.injEq, Prod.mk.injEq] at hcall'
      obtain ⟨rfl, rfl⟩ := hcall'
      exact hinv
  | @free s h' p hs hp hcall ih =>
      obtain ⟨h'', hcall', hinv⟩ := kfree_inv ih hp
      rw [hcall, Outcome.done.injEq] at hcall'
      exact hcall' ▸ hinv
  | @store s a v hs ha ih =>
      obtain ⟨l, hr, hlive⟩ := ih
      refine ⟨l, hr.congr fun b hb i hlo hhi ↦ ?_, hlive⟩
      have hmiss := ha b.start (hr.onList_iff.mpr ⟨b, hb, rfl⟩)
      have hne : i ≠ a := by omega
      exact Function.update_of_ne hne v s.heap.mem

/-! ## The statistics -/

/-- One block entered into the statistics. -/
def KheapStats.enter (s : KheapStats) (b : Block) : KheapStats :=
  if b.used then
    { s with
      blocksTotal := s.blocksTotal + 1
      usedBytes := s.usedBytes + b.size
      blocksUsed := s.blocksUsed + 1 }
  else
    { s with
      blocksTotal := s.blocksTotal + 1
      freeBytes := s.freeBytes + b.size
      blocksFree := s.blocksFree + 1
      largestFree := max s.largestFree b.size }

theorem statsLoop_eq {fuel : ℕ} {s : KheapStats} (hl : Linked h.mem prev l 0)
    (hpos : ∀ b ∈ l, 0 < b.start) (hfuel : l.length < fuel)
    (hbytes : s.usedBytes + s.freeBytes + (l.map Block.size).sum < 2 ^ 32)
    (htotal : s.blocksTotal + l.length < 2 ^ 32)
    (hblocks : s.blocksUsed + s.blocksFree + l.length < 2 ^ 32) :
    statsLoop h fuel (headOr 0 l) s = .done (l.foldl KheapStats.enter s) := by
  induction l generalizing prev fuel s with
  | nil =>
      obtain ⟨k, rfl⟩ : ∃ k, fuel = k + 1 := ⟨fuel - 1, by simp at hfuel; omega⟩
      rw [headOr, statsLoop, if_pos rfl]
      rfl
  | cons b l ih =>
      obtain ⟨k, rfl⟩ : ∃ k, fuel = k + 1 := ⟨fuel - 1, by omega⟩
      obtain ⟨hb, hl⟩ := hl
      have hmagic : h.magic b.start = kheapMagic := hb.magic
      have hnext : h.next b.start = headOr 0 l := hb.next
      have hsize : h.size b.start = b.size := hb.size
      have hused : h.used b.start = b.used.toNat := hb.used
      have hpos' : ∀ c ∈ l, 0 < c.start := fun c hc ↦ hpos c (List.mem_cons_of_mem b hc)
      simp only [List.map_cons, List.sum_cons, List.length_cons] at hbytes htotal hblocks hfuel
      rw [List.foldl_cons, headOr, statsLoop, if_neg (hpos b List.mem_cons_self).ne',
        if_neg (not_not.mpr hmagic)]
      simp only [hnext, hsize, hused]
      cases hstate : b.used with
      | true =>
          rw [if_pos (by simp), Word.add_eq (by omega), Word.add_eq (by omega),
            Word.add_eq (by omega)]
          rw [ih hl hpos' (by omega) (by simp only; omega) (by simp only; omega)
            (by simp only; omega)]
          simp [KheapStats.enter, hstate]
      | false =>
          rw [if_neg (by simp), Word.add_eq (by omega), Word.add_eq (by omega),
            Word.add_eq (by omega)]
          rw [ih hl hpos' (by omega) (by simp only; omega) (by simp only; omega)
            (by simp only; omega)]
          simp only [KheapStats.enter, hstate, Bool.false_eq_true, if_false, max_def_lt]

theorem foldl_enter (l : List Block) (s : KheapStats) :
    let s' := l.foldl KheapStats.enter s
    s'.totalBytes = s.totalBytes ∧
      s'.usedBytes + s'.freeBytes = s.usedBytes + s.freeBytes + (l.map Block.size).sum ∧
      s'.blocksTotal = s.blocksTotal + l.length ∧
      s'.blocksUsed + s'.blocksFree = s.blocksUsed + s.blocksFree + l.length := by
  induction l generalizing s with
  | nil => simp
  | cons b l ih =>
      obtain ⟨htotal, hbytes, hblocks, hparts⟩ := ih (s.enter b)
      simp only [List.foldl_cons, List.map_cons, List.sum_cons, List.length_cons]
      rw [htotal, hbytes, hblocks, hparts]
      cases hb : b.used with
      | true =>
          simp only [KheapStats.enter, hb, if_true]
          exact ⟨trivial, by omega, by omega, by omega⟩
      | false =>
          simp only [KheapStats.enter, hb, Bool.false_eq_true, if_false]
          exact ⟨trivial, by omega, by omega, by omega⟩

theorem Represents.kheapGetStats (hr : Represents A h l) :
    Heap.kheapGetStats h = .done (l.foldl KheapStats.enter ⟨storageSize, 0, 0, 0, 0, 0, 0⟩) := by
  have hsum := hr.tiles.sum_eq
  have hfits := A.fits
  unfold hdrSize at hsum
  unfold storageSize at *
  rw [Heap.kheapGetStats, hr.head_eq_headOr]
  exact statsLoop_eq hr.linked (fun b hb ↦ hr.start_pos hb) hr.length_lt (by simp only; omega)
    (by simp only; omega) (by simp only; omega)

/-- After any run the heap memory represents a packed tiling of `heap_storage`, no call of the
heap panics, and the statistics add up. -/
theorem heap_representation {s : Usage} (hs : Reachable A s) :
    (∃ l, Represents A s.heap l ∧ (∀ a, OnList s.heap a ↔ ∃ b ∈ l, b.start = a) ∧
        s.live.Perm (held hdrSize l)) ∧
      (∀ size, size < 2 ^ 32 → ∃ p h', kmalloc s.heap size = .done (p, h')) ∧
      (∀ p ∈ s.live, ∃ h', kfree s.heap p = .done h') ∧
      ∃ st, Heap.kheapGetStats s.heap = .done st ∧
        st.usedBytes + st.freeBytes + hdrSize * st.blocksTotal = st.totalBytes ∧
        st.blocksUsed + st.blocksFree = st.blocksTotal := by
  have hinv := hs.inv
  refine ⟨?_, ?_, ?_, ?_⟩
  · obtain ⟨l, hr, hlive⟩ := hinv
    exact ⟨l, hr, fun a ↦ hr.onList_iff, hlive⟩
  · intro size _
    obtain ⟨p, h', hcall, -⟩ := kmalloc_inv hinv size
    exact ⟨p, h', hcall⟩
  · intro p hp
    obtain ⟨h', hcall, -⟩ := kfree_inv hinv hp
    exact ⟨h', hcall⟩
  · obtain ⟨l, hr, -⟩ := hinv
    obtain ⟨htotal, hbytes, hblocks, hparts⟩ :=
      foldl_enter l ⟨storageSize, 0, 0, 0, 0, 0, 0⟩
    have hsum := hr.tiles.sum_eq
    refine ⟨_, hr.kheapGetStats, ?_, ?_⟩
    · rw [htotal, hbytes, hblocks]
      simp only [Nat.zero_add]
      omega
    · rw [hparts, hblocks]
      simp only [Nat.zero_add]

/-- A heap at `0x20000`. -/
def lowArena : Arena where
  base := 0x20000
  base_pos := by norm_num
  aligned := by norm_num
  fits := by norm_num [storageSize]

/-- The heap after a call of `kmalloc` that returns. -/
def afterKmalloc (h : Kheap) (size : ℕ) : Kheap := ((kmalloc h size).value?.map Prod.snd).getD h

def afterKfree (h : Kheap) (p : ℕ) : Kheap := (kfree h p).value?.getD h

theorem kmalloc_eq_after {p : ℕ} (hp : (kmalloc h size).value?.map Prod.fst = some p) :
    kmalloc h size = .done (p, afterKmalloc h size) := by
  rw [afterKmalloc]
  cases hcall : kmalloc h size with
  | done r =>
      rw [hcall] at hp
      obtain rfl := Option.some.inj hp
      rfl
  | halt msg => simp [hcall, Outcome.value?] at hp
  | spin => simp [hcall, Outcome.value?] at hp

theorem kfree_eq_after {p : ℕ} (hp : (kfree h p).value?.isSome = true) :
    kfree h p = .done (afterKfree h p) := by
  rw [afterKfree]
  cases hcall : kfree h p with
  | done h' => rfl
  | halt msg => simp [hcall, Outcome.value?] at hp
  | spin => simp [hcall, Outcome.value?] at hp

/-- Three blocks of 16 bytes are allocated. -/
def threeBlocks : Kheap :=
  afterKmalloc (afterKmalloc (afterKmalloc (kheapInit lowArena fun _ ↦ 0) 16) 16) 16

/-- The second of three blocks is free. -/
def holedHeap : Kheap := afterKfree threeBlocks 0x20038

theorem holedHeap_reachable : Reachable lowArena ⟨holedHeap, [0x2005C, 0x20014]⟩ := by
  have hinit := Reachable.init (A := lowArena) fun _ ↦ 0
  have hone := hinit.malloc (p := 0x20014) (show 16 < 2 ^ 32 by norm_num)
    (kmalloc_eq_after (by decide +kernel))
  have htwo := hone.malloc (p := 0x20038) (show 16 < 2 ^ 32 by norm_num)
    (kmalloc_eq_after (by decide +kernel))
  have hthree := htwo.malloc (p := 0x2005C) (show 16 < 2 ^ 32 by norm_num)
    (kmalloc_eq_after (by decide +kernel))
  exact hthree.free (p := 0x20038) (by decide) (kfree_eq_after (by decide +kernel))

theorem heap_representation_holed :
    (∃ l, Represents lowArena holedHeap l ∧ (∀ a, OnList holedHeap a ↔ ∃ b ∈ l, b.start = a) ∧
        [0x2005C, 0x20014].Perm (held hdrSize l)) ∧
      (∀ size, size < 2 ^ 32 → ∃ p h', kmalloc holedHeap size = .done (p, h')) ∧
      (∀ p ∈ [0x2005C, 0x20014], ∃ h', kfree holedHeap p = .done h') ∧
      ∃ st, Heap.kheapGetStats holedHeap = .done st ∧
        st.usedBytes + st.freeBytes + hdrSize * st.blocksTotal = st.totalBytes ∧
        st.blocksUsed + st.blocksFree = st.blocksTotal :=
  heap_representation holedHeap_reachable

end MyOS.Heap
