import MyOS.Heap.Model
import MyOS.Memory.Paging

/-!
# The ELF loader

`elf_load` reads the headers of a file in memory, takes frames for the pages of its loadable
segments, maps them in the one page directory and copies the file into them.  `elf_unload`
finds the frames again by the translations of the recorded pages.  Frames are written through
their physical addresses, and the image record comes from the kernel heap.
-/

namespace MyOS.Elf

open Bytes Heap

/-- A file in memory: the pointer `file_data`, `file_size`, and the bytes at `file_data + i`,
also those that do not belong to the file. -/
structure File where
  data : ℕ
  bytes : Bytes
  size : ℕ
  size_lt : size < 2 ^ 32

/-- The fields of a program header that the loader reads. -/
structure Phdr where
  pType : ℕ
  pOffset : ℕ
  pVaddr : ℕ
  pFilesz : ℕ
  pMemsz : ℕ

structure UserSeg where
  vaddr : ℕ
  pages : ℕ

/-- `user_image_t` with its own address; `seg_count` is the length of `segs`. -/
structure UserImage where
  ptr : ℕ
  segs : List UserSeg
  entry : ℕ

/-- The memory of the kernel as the loader uses it.  `reads` is no state of the kernel: it
records which bytes of the file were read, as offsets and lengths. -/
structure Sys where
  mm : Mm
  heap : Kheap
  reads : List (ℕ × ℕ)

def Sys.read (s : Sys) (off n : ℕ) : Sys := { s with reads := (off, n) :: s.reads }

namespace File

variable (F : File)

/-- The bytes from `file_data + off` on: pointers have 32 bits. -/
def bytesAt (off : ℕ) : Bytes := fun i ↦ F.bytes ((off + i) % 2 ^ 32)

def eType : ℕ := F.bytes.read16 16
def eMachine : ℕ := F.bytes.read16 18
def eEntry : ℕ := F.bytes.read32 24
def ePhoff : ℕ := F.bytes.read32 28
def ePhentsize : ℕ := F.bytes.read16 42
def ePhnum : ℕ := F.bytes.read16 44

/-- The offset of `ph[i]`. -/
def phdrOffset (i : ℕ) : ℕ := Word.add F.ePhoff (32 * i)

/-- `ph[i]`. -/
def phdr (i : ℕ) : Phdr :=
  let p := F.bytesAt (F.phdrOffset i)
  { pType := p.read32 0
    pOffset := p.read32 4
    pVaddr := p.read32 8
    pFilesz := p.read32 16
    pMemsz := p.read32 20 }

end File

/-- `sizeof(elf32_ehdr_t)`. -/
def ehdrSize : ℕ := 52

/-- `sizeof(elf32_phdr_t)`. -/
def phdrSize : ℕ := 32

/-- `sizeof(user_image_t)`: a count, eight segments of two words each and the entry. -/
def imageSize : ℕ := 72

def maxUserSegments : ℕ := 8

def ptLoad : ℕ := 1

def validateEhdr (F : File) : Bool :=
  if F.size < ehdrSize then false
  else if F.bytes 0 ≠ 0x7F ∨ F.bytes 1 ≠ 0x45 ∨ F.bytes 2 ≠ 0x4C ∨ F.bytes 3 ≠ 0x46 then false
  else if F.bytes 4 ≠ 1 then false
  else if F.bytes 5 ≠ 1 then false
  else if F.eMachine ≠ 3 then false
  else if F.eType ≠ 2 then false
  else if F.ePhentsize ≠ phdrSize then false
  else if F.size < Word.add F.ePhoff (Word.mul F.ePhnum phdrSize) then false
  else true

/-- The reads of `validate_ehdr` and `elf_load` in the header, all of it: nothing of a file that
is too short. -/
def Sys.readEhdr (s : Sys) (F : File) : Sys :=
  if F.size < ehdrSize then s else s.read 0 ehdrSize

variable (T : Tables)

/-! ## Unloading -/

/-- One page of `elf_unload`. -/
def unloadPage (m : Mm) (va : ℕ) : Mm :=
  let pa := m.vmmGetPhys T va
  let m := m.vmmUnmap T va
  if pa ≠ 0xFFFFFFFF then { m with pmm := m.pmm.pmmFree (pa &&& 0xFFFFF000) } else m

/-- The pages `p, p + 1, …` of a segment at `v`, `n` of them. -/
def unloadPages (v : ℕ) : ℕ → ℕ → Mm → Mm
  | 0, _, m => m
  | n + 1, p, m => unloadPages v n (p + 1) (unloadPage T m (Word.add v (Word.mul p 0x1000)))

def unloadSegs (segs : List UserSeg) (m : Mm) : Mm :=
  segs.foldl (fun m seg ↦ unloadPages T seg.vaddr seg.pages 0 m) m

def elfUnload (s : Sys) (image : UserImage) : Outcome Sys :=
  if image.ptr = 0 then .done s
  else do
    let heap ← kfree s.heap image.ptr
    .done { s with mm := unloadSegs T image.segs s.mm, heap := heap }

/-! ## Loading -/

/-- `uimemset` and `uimemcpy` on the page of `v`, which is the frame at `phy`. -/
def fillPage (F : File) (ph : Phdr) (v phy : ℕ) (s : Sys) : Sys :=
  let mem := s.mm.mem.blit phy 0x1000 fun _ ↦ 0
  let s := { s with mm := { s.mm with mem := mem, cleared := phy :: s.mm.cleared } }
  let pageVEnd := Word.add v 0x1000
  let fileVEnd := Word.add ph.pVaddr ph.pFilesz
  let lo := if v > ph.pVaddr then v else ph.pVaddr
  let hi := if pageVEnd < fileVEnd then pageVEnd else fileVEnd
  if lo < hi then
    let copyLen := Word.sub hi lo
    let fileOff := Word.add ph.pOffset (Word.sub lo ph.pVaddr)
    let pageOff := Word.sub lo v
    let mem := mem.blit (Word.add phy pageOff) copyLen (F.bytesAt fileOff)
    { s with mm := { s.mm with mem := mem } }.read fileOff copyLen
  else s

/-- One round of `load_segment`. -/
def loadPage (F : File) (ph : Phdr) (v : ℕ) (s : Sys) : ℤ × Sys :=
  let r := s.mm.pmm.pmmAlloc
  let phy := r.1
  let mm := { s.mm with pmm := r.2 }
  if phy = 0 then (-1, { s with mm := mm })
  else
    let r := mm.vmmMap T v phy (pageRw ||| pageUser)
    if r.1 < 0 then (-1, { s with mm := { r.2 with pmm := r.2.pmm.pmmFree phy } })
    else (0, fillPage F ph v phy { s with mm := r.2 })

/-- The rounds `i, i + 1, …`, `n` of them, with the value of `seg->pages` at the end: it counts
the rounds, as `i` does. -/
def loadPages (F : File) (ph : Phdr) (vstart : ℕ) : ℕ → ℕ → Sys → ℤ × ℕ × Sys
  | 0, i, s => (0, i, s)
  | n + 1, i, s =>
      let r := loadPage T F ph (Word.add vstart (Word.mul i 0x1000)) s
      if r.1 < 0 then (-1, i, r.2) else loadPages F ph vstart n (i + 1) r.2

def Phdr.vstart (ph : Phdr) : ℕ := ph.pVaddr &&& 0xFFFFF000

def Phdr.vend (ph : Phdr) : ℕ :=
  Word.add (Word.add ph.pVaddr ph.pMemsz) 0xFFF &&& 0xFFFFF000

/-- `load_segment` for the header at offset `off`. -/
def loadSegment (F : File) (off : ℕ) (ph : Phdr) (img : UserImage) (s : Sys) :
    ℤ × UserImage × Sys :=
  if maxUserSegments ≤ img.segs.length then (-1, img, s)
  else
    let s := (s.read (off + 8) 4).read (off + 20) 4
    if ph.vend ≤ ph.vstart then (-1, img, s)
    else
      let r := loadPages T F ph ph.vstart ((ph.vend - ph.vstart) / 0x1000) 0 s
      (r.1, { img with segs := img.segs ++ [⟨ph.vstart, r.2.1⟩] }, r.2.2)

/-- The program headers `i, i + 1, …`, `n` of them. -/
def loadHeaders (F : File) : ℕ → ℕ → UserImage → Sys → Outcome (ℤ × UserImage × Sys)
  | 0, _, img, s => .done (0, img, s)
  | n + 1, i, img, s =>
      let off := F.phdrOffset i
      let ph := F.phdr i
      let s := s.read off 4
      if ph.pType ≠ ptLoad then loadHeaders F n (i + 1) img s
      else
        let s := s.read (off + 20) 4
        if ph.pMemsz = 0 then loadHeaders F n (i + 1) img s
        else
          let s := (s.read (off + 4) 4).read (off + 16) 4
          if F.size < Word.add ph.pOffset ph.pFilesz then do
            let s ← elfUnload T s img
            .done (-4, img, s)
          else
            let r := loadSegment T F off ph img s
            if r.1 < 0 then do
              let s ← elfUnload T r.2.2 r.2.1
              .done (-5, r.2.1, s)
            else loadHeaders F n (i + 1) r.2.1 r.2.2

/-- `elf_load` returns its code, and the image for `*out_image` if it sets that. -/
def elfLoad (s : Sys) (F : File) (outImage : ℕ) : Outcome (ℤ × Option UserImage × Sys) :=
  if F.data = 0 ∨ outImage = 0 then .done (-1, none, s)
  else
    let s := s.readEhdr F
    if validateEhdr F = false then .done (-2, none, s)
    else do
      let r ← kmalloc s.heap imageSize
      let s := { s with heap := r.2 }
      if r.1 = 0 then .done (-3, none, s)
      else
        let r ← loadHeaders T F F.ePhnum 0 ⟨r.1, [], F.eEntry⟩ s
        if r.1 = 0 then .done (0, some r.2.1, r.2.2) else .done (r.1, none, r.2.2)

end MyOS.Elf
