import MyOS.Lib.Bytes
import MyOS.Lib.Outcome
import MyOS.Lib.Word

/-!
# The kernel heap

`kmalloc` and `kfree` keep a doubly linked list of all blocks, used and free, in
memory order.  The five header words of a block stand in the heap memory itself, so
the model works on the bytes of memory and on pointers into them.

A loop along `next` is given `2 ^ 32` steps.  Pointers have 32 bits and the loops
below do not change the list while they follow it, so a walk that is longer than that
has met a pointer twice and never ends.
-/

namespace MyOS.Heap

open Bytes

/-- `sizeof(heap_storage)`. -/
def storageSize : ℕ := 256 * 1024

def kheapMagic : ℕ := 0xC0FFEE42

def kheapAlign : ℕ := 8

/-- `sizeof(kheap_block_t)`: five words. -/
def hdrSize : ℕ := 20

def walkFuel : ℕ := 2 ^ 32

/-- The place of `heap_storage`, an 8-byte aligned symbol of the kernel's BSS. -/
structure Arena where
  base : ℕ
  base_pos : 0 < base
  aligned : 8 ∣ base
  fits : base + storageSize < 2 ^ 32

/-- Memory and the `head` pointer. -/
structure Kheap where
  mem : Bytes
  head : ℕ

namespace Kheap

variable (h : Kheap) (b v : ℕ)

def magic : ℕ := h.mem.read32 b
def size : ℕ := h.mem.read32 (b + 4)
def used : ℕ := h.mem.read32 (b + 8)
def prev : ℕ := h.mem.read32 (b + 12)
def next : ℕ := h.mem.read32 (b + 16)

def setMagic : Kheap := { h with mem := h.mem.write32 b v }
def setSize : Kheap := { h with mem := h.mem.write32 (b + 4) v }
def setUsed : Kheap := { h with mem := h.mem.write32 (b + 8) v }
def setPrev : Kheap := { h with mem := h.mem.write32 (b + 12) v }
def setNext : Kheap := { h with mem := h.mem.write32 (b + 16) v }

@[simp] theorem setMagic_head : (h.setMagic b v).head = h.head := rfl
@[simp] theorem setSize_head : (h.setSize b v).head = h.head := rfl
@[simp] theorem setUsed_head : (h.setUsed b v).head = h.head := rfl
@[simp] theorem setPrev_head : (h.setPrev b v).head = h.head := rfl
@[simp] theorem setNext_head : (h.setNext b v).head = h.head := rfl

end Kheap

def alignUp (v a : ℕ) : ℕ := Word.add v (a - 1) &&& (2 ^ 32 - a)

def kheapPanic {α : Type} (msg : String) : Outcome α :=
  .halt ("\nKHEAP PANIC: " ++ msg ++ "\n")

def kheapInit (A : Arena) (mem : Bytes) : Kheap :=
  let h : Kheap := { mem := mem, head := A.base }
  ((((h.setMagic A.base kheapMagic).setSize A.base (storageSize - hdrSize)).setUsed
    A.base 0).setPrev A.base 0).setNext A.base 0

/-- Cut the `leftover` bytes behind the first `size` payload bytes of `b` off as a free block. -/
def splitBlock (h : Kheap) (b size leftover : ℕ) : Kheap :=
  let n := Word.add (Word.add b hdrSize) size
  let h := h.setMagic n kheapMagic
  let h := h.setSize n (Word.sub leftover hdrSize)
  let h := h.setUsed n 0
  let h := h.setPrev n b
  let h := h.setNext n (h.next b)
  let h := if h.next b ≠ 0 then h.setPrev (h.next b) n else h
  let h := h.setNext b n
  h.setSize b size

def takeBlock (h : Kheap) (b size : ℕ) : Kheap :=
  let leftover := Word.sub (h.size b) size
  let h := if hdrSize + kheapAlign ≤ leftover then splitBlock h b size leftover else h
  h.setUsed b 1

def kmallocLoop (h : Kheap) (size : ℕ) : ℕ → ℕ → Outcome (ℕ × Kheap)
  | 0, _ => .spin
  | fuel + 1, b =>
      if b = 0 then .done (0, h)
      else if h.magic b ≠ kheapMagic then kheapPanic "corrupted block"
      else if h.used b ≠ 0 then kmallocLoop h size fuel (h.next b)
      else if h.size b < size then kmallocLoop h size fuel (h.next b)
      else .done (Word.add b hdrSize, takeBlock h b size)

/-- `kmalloc` returns the pointer, `0` for `NULL`, and the new heap. -/
def kmalloc (h : Kheap) (size : ℕ) : Outcome (ℕ × Kheap) :=
  if size = 0 then .done (0, h)
  else kmallocLoop h (alignUp size kheapAlign) walkFuel h.head

def kcalloc (h : Kheap) (n size : ℕ) : Outcome (ℕ × Kheap) := do
  let total := Word.mul n size
  let (p, h) ← kmalloc h total
  if p = 0 then .done (p, h)
  else .done (p, { h with mem := h.mem.blit p total fun _ ↦ 0 })

/-- Merge the block `n` into its predecessor `p` and invalidate its header. -/
def absorb (h : Kheap) (p n : ℕ) : Kheap :=
  let h := h.setSize p (Word.add (h.size p) (Word.add hdrSize (h.size n)))
  let h := h.setNext p (h.next n)
  let h := if h.next n ≠ 0 then h.setPrev (h.next n) p else h
  h.setMagic n 0

def mergeNext (h : Kheap) (b : ℕ) : Kheap :=
  if h.next b ≠ 0 ∧ h.used (h.next b) = 0 then absorb h b (h.next b) else h

def mergePrev (h : Kheap) (b : ℕ) : Kheap :=
  if h.prev b ≠ 0 ∧ h.used (h.prev b) = 0 then absorb h (h.prev b) b else h

def kfree (h : Kheap) (ptr : ℕ) : Outcome Kheap :=
  if ptr = 0 then .done h
  else
    let b := Word.sub ptr hdrSize
    if h.magic b ≠ kheapMagic then kheapPanic "kfree: bad pointer"
    else if h.used b = 0 then kheapPanic "kfree: double free"
    else .done (mergePrev (mergeNext (h.setUsed b 0) b) b)

structure KheapStats where
  totalBytes : ℕ
  usedBytes : ℕ
  freeBytes : ℕ
  blocksTotal : ℕ
  blocksUsed : ℕ
  blocksFree : ℕ
  largestFree : ℕ
  deriving DecidableEq, Repr

def statsLoop (h : Kheap) : ℕ → ℕ → KheapStats → Outcome KheapStats
  | 0, _, _ => .spin
  | fuel + 1, b, s =>
      if b = 0 then .done s
      else if h.magic b ≠ kheapMagic then kheapPanic "stats: corruption"
      else
        let s := { s with blocksTotal := Word.add s.blocksTotal 1 }
        if h.used b ≠ 0 then
          statsLoop h fuel (h.next b)
            { s with
              usedBytes := Word.add s.usedBytes (h.size b)
              blocksUsed := Word.add s.blocksUsed 1 }
        else
          statsLoop h fuel (h.next b)
            { s with
              freeBytes := Word.add s.freeBytes (h.size b)
              blocksFree := Word.add s.blocksFree 1
              largestFree := if s.largestFree < h.size b then h.size b else s.largestFree }

def kheapGetStats (h : Kheap) : Outcome KheapStats :=
  statsLoop h walkFuel h.head ⟨storageSize, 0, 0, 0, 0, 0, 0⟩

end MyOS.Heap
