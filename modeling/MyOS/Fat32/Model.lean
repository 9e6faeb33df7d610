import MyOS.Drivers.Ata
import MyOS.Lib.Outcome

/-!
# The FAT32 driver

The functions of `fat32.c` on an explicit volume: the mount state `fs`, the one-sector FAT
cache and the disk behind them.  A result code of the source is an integer, 0 or -1.

The loops along a cluster chain have no bound in the source.  They are given `2 ^ 32`
steps: a cluster number has 32 bits, so a longer walk over an unchanged FAT has met a
cluster twice and never ends.
-/

namespace MyOS.Fat32

open Bytes

/-- The part of `fs` that mounting reads from the boot sector and nothing changes later. -/
structure Geometry where
  sectorsPerCluster : ℕ
  numFats : ℕ
  fatStartLba : ℕ
  dataStartLba : ℕ
  fatSize : ℕ
  totalClusters : ℕ
  rootCluster : ℕ

structure Vol where
  geo : Geometry
  cwdCluster : ℕ
  allocHint : ℕ
  mounted : Bool
  fatSectorBuf : Bytes
  fatSectorCachedLba : ℕ
  ata : Ata

def walkFuel : ℕ := 2 ^ 32

/-- The value of `fat_sector_cached_lba` while nothing is cached. -/
def noLba : ℕ := 0xFFFFFFFF

/-- A buffer on the stack before it is filled. -/
def blank : Bytes := fun _ ↦ 0

namespace Vol

def ataRead (v : Vol) (lba count : ℕ) (buf : Bytes) : Bool × Bytes × Vol :=
  match v.ata.ataRead lba count buf with
  | (ok, buf, ata) => (ok, buf, { v with ata := ata })

def ataWrite (v : Vol) (lba count : ℕ) (buf : Bytes) : Bool × Vol :=
  match v.ata.ataWrite lba count buf with
  | (ok, ata) => (ok, { v with ata := ata })

end Vol

/-! ## Directory entries and names -/

def fatAttrDirectory : UInt8 := 0x10
def fatAttrVolumeId : UInt8 := 0x08
def fatAttrLfn : UInt8 := 0x0F

/-- The characters the name functions compare with. -/
def chSpace : UInt8 := 0x20
def chDot : UInt8 := 0x2E
def chSlash : UInt8 := 0x2F

/-- The 32 bytes of a `fat32_dirent_t`; the bytes behind them are zero. -/
abbrev Dirent := Bytes

def direntAt (sec : Bytes) (offset : ℕ) : Dirent :=
  fun k ↦ if k < 32 then sec (offset + k) else 0

namespace Dirent

variable (e : Dirent)

def first : UInt8 := e 0
def name : List UInt8 := (List.range 11).map e
def attr : UInt8 := e 11
def clusterHi : ℕ := e.read16 20
def clusterLo : ℕ := e.read16 26
def size : ℕ := e.read32 28

/-- `((uint32_t)cluster_hi << 16) | cluster_lo`. -/
def start : ℕ := clusterHi e <<< 16 ||| clusterLo e

def setName (target : List UInt8) : Dirent := e.blit 0 11 fun i ↦ target.getD i 0
def setAttr (a : UInt8) : Dirent := e.blit 11 1 fun _ ↦ a
def setCluster (c : ℕ) : Dirent :=
  (e.writeLE 26 2 (c &&& 0xFFFF)).writeLE 20 2 (c >>> 16 &&& 0xFFFF)
def setSize (n : ℕ) : Dirent := e.writeLE 28 4 n

def isDirectory : Bool := attr e &&& fatAttrDirectory ≠ 0

end Dirent

def newDirent (target : List UInt8) (attr : UInt8) (cluster size : ℕ) : Dirent :=
  (((Dirent.setName blank target).setAttr attr).setCluster cluster).setSize size

def toUpper (c : UInt8) : UInt8 := if 0x61 ≤ c ∧ c ≤ 0x7A then c - 0x61 + 0x41 else c

/-- A C string is the list of its characters before the terminating NUL. -/
def strEqCi : List UInt8 → List UInt8 → Bool
  | [], [] => true
  | a :: as, b :: bs => if toUpper a ≠ toUpper b then false else strEqCi as bs
  | _, _ => false

/-- `format_short_name`; the caller reads the result as a C string, up to its first NUL. -/
def formatShortName (raw : List UInt8) : List UInt8 :=
  let base := (raw.take 8).takeWhile (· ≠ chSpace)
  let ext := (raw.drop 8).takeWhile (· ≠ chSpace)
  let out := if raw.getD 8 0 ≠ chSpace then base ++ chDot :: ext else base
  out.takeWhile (· ≠ 0)

def padTo (n : ℕ) (l : List UInt8) : List UInt8 := l ++ List.replicate (n - l.length) chSpace

/-- `to_short_name`: at most eight characters before the first dot, at most three behind it. -/
def toShortName (name : List UInt8) : List UInt8 :=
  let base := (name.takeWhile (· ≠ chDot)).take 8
  let ext := ((name.dropWhile (· ≠ chDot)).drop 1).take 3
  padTo 8 (base.map toUpper) ++ padTo 3 (ext.map toUpper)

def dotName : List UInt8 := chDot :: List.replicate 10 chSpace
def dotdotName : List UInt8 := chDot :: chDot :: List.replicate 9 chSpace

/-! ## The FAT -/

def clusterToLba (g : Geometry) (cluster : ℕ) : ℕ :=
  Word.add g.dataStartLba (Word.mul (Word.sub cluster 2) g.sectorsPerCluster)

def isEoc (cluster : ℕ) : Bool := 0x0FFFFFF8 ≤ cluster &&& 0x0FFFFFFF

def nextCluster (v : Vol) (cluster : ℕ) : ℕ × Vol :=
  let fatByteOffset := Word.mul cluster 4
  let fatLba := Word.add v.geo.fatStartLba (fatByteOffset / 512)
  let inSectorOff := fatByteOffset % 512
  if fatLba ≠ v.fatSectorCachedLba then
    match v.ataRead fatLba 1 v.fatSectorBuf with
    | (false, buf, v) => (0x0FFFFFFF, { v with fatSectorBuf := buf })
    | (true, buf, v) =>
        (buf.read32 inSectorOff &&& 0x0FFFFFFF,
          { v with fatSectorBuf := buf, fatSectorCachedLba := fatLba })
  else (v.fatSectorBuf.read32 inSectorOff &&& 0x0FFFFFFF, v)

def readCluster (v : Vol) (cluster : ℕ) : Bool × Bytes × Vol :=
  v.ataRead (clusterToLba v.geo cluster) v.geo.sectorsPerCluster blank

/-- The copies `f, f + 1, …` of the FAT, `n` of them; `false` stands for the result -1. -/
def setFatCopies (cluster value : ℕ) : ℕ → ℕ → Vol → Bool × Vol
  | 0, _, v => (true, v)
  | n + 1, f, v =>
      let fatByteOff := Word.mul cluster 4
      let inSecOff := fatByteOff % 512
      let fatLba := Word.add (Word.add v.geo.fatStartLba (Word.mul f v.geo.fatSize))
        (fatByteOff / 512)
      match v.ataRead fatLba 1 blank with
      | (false, _, v) => (false, v)
      | (true, buf, v) =>
          -- the upper four bits are reserved and kept
          let entry := buf.read32 inSecOff &&& 0xF0000000 ||| value &&& 0x0FFFFFFF
          match v.ataWrite fatLba 1 (buf.write32 inSecOff entry) with
          | (false, v) => (false, v)
          | (true, v) => setFatCopies cluster value n (f + 1) v

def setFatEntry (v : Vol) (cluster value : ℕ) : Bool × Vol :=
  match setFatCopies cluster value v.geo.numFats 0 v with
  | (false, v) => (false, v)
  | (true, v) => (true, { v with fatSectorCachedLba := noLba })

/-- The rounds `i, i + 1, …` of the search for a free cluster, `n` of them. -/
def allocLoop : ℕ → ℕ → Vol → ℕ × Vol
  | 0, _, v => (0, v)
  | n + 1, i, v =>
      let total := Word.add v.geo.totalClusters 2
      let c := Word.add v.allocHint i
      let c := if total ≤ c then Word.add 2 (Word.sub c total) else c
      let (next, v) := nextCluster v c
      if next = 0 then
        match setFatEntry v c 0x0FFFFFFF with
        | (false, v) => (0, v)
        | (true, v) => (c, { v with allocHint := Word.add c 1 })
      else allocLoop n (i + 1) v

def allocCluster (v : Vol) : ℕ × Vol :=
  if v.geo.totalClusters = 0 then (0, v)
  else
    let v := if v.allocHint < 2 then { v with allocHint := 2 } else v
    allocLoop v.geo.totalClusters 0 v

def freeLoop : ℕ → ℕ → Vol → Outcome Vol
  | 0, _, _ => .spin
  | fuel + 1, c, v =>
      if 2 ≤ c ∧ ¬isEoc c then
        let (n, v) := nextCluster v c
        let (_, v) := setFatEntry v c 0
        freeLoop fuel n v
      else .done v

def freeChain (v : Vol) (start : ℕ) : Outcome Vol := freeLoop walkFuel start v

/-! ## Mounting -/

def fat32Mount (v : Vol) : ℤ × Vol :=
  match v.ataRead 0 1 blank with
  | (false, _, v) => (-1, v)
  | (true, boot, v) =>
      let sectorsPerCluster := (boot 0x0D).toNat
      let fatSize32 := boot.read32 0x24
      if boot.read16 0x0B ≠ 512 then (-1, v)
      else if sectorsPerCluster = 0 then (-1, v)
      else if fatSize32 = 0 then (-1, v)
      else if sectorsPerCluster * 512 > 128 * 512 then (-1, v)
      else
        let fatStartLba := boot.read16 0x0E
        let numFats := (boot 0x10).toNat
        let dataStartLba := Word.add fatStartLba (Word.mul numFats fatSize32)
        let rootCluster := boot.read32 0x2C
        let totalSec := if boot.read32 0x20 ≠ 0 then boot.read32 0x20 else boot.read16 0x13
        let geo : Geometry :=
          { sectorsPerCluster := sectorsPerCluster
            numFats := numFats
            fatStartLba := fatStartLba
            dataStartLba := dataStartLba
            fatSize := fatSize32
            totalClusters := Word.sub totalSec dataStartLba / sectorsPerCluster
            rootCluster := rootCluster }
        (0, { v with
          geo := geo
          cwdCluster := rootCluster
          allocHint := 2
          mounted := true
          fatSectorCachedLba := noLba })

/-! ## Reading -/

section Listing

variable {σ : Type} (visit : σ → Dirent → σ)

/-- The entries `i, i + 1, …` of a cluster, `n` of them; `true` when the end mark is met. -/
def listEntries (buf : Bytes) : ℕ → ℕ → σ → Bool × σ
  | 0, _, ctx => (false, ctx)
  | n + 1, i, ctx =>
      let e := direntAt buf (32 * i)
      if e.first = 0 then (true, ctx)
      else if e.first = 0xE5 then listEntries buf n (i + 1) ctx
      else if e.attr = fatAttrLfn then listEntries buf n (i + 1) ctx
      else if e.attr &&& fatAttrVolumeId ≠ 0 then listEntries buf n (i + 1) ctx
      else listEntries buf n (i + 1) (visit ctx e)

def listLoop : ℕ → ℕ → Vol → σ → Outcome (σ × Vol)
  | 0, _, _, _ => .spin
  | fuel + 1, cluster, v, ctx =>
      if ¬isEoc cluster ∧ 2 ≤ cluster then
        match readCluster v cluster with
        | (false, _, v) => .done (ctx, v)
        | (true, buf, v) =>
            match listEntries visit buf (v.geo.sectorsPerCluster * 512 / 32) 0 ctx with
            | (true, ctx) => .done (ctx, v)
            | (false, ctx) =>
                let (next, v) := nextCluster v cluster
                listLoop fuel next v ctx
      else .done (ctx, v)

/-- `fat32_listdir` threads the visitor's context through the calls of `visit`. -/
def fat32Listdir (v : Vol) (startCluster : ℕ) (ctx : σ) : Outcome (σ × Vol) :=
  if v.mounted then listLoop visit walkFuel startCluster v ctx else .done (ctx, v)

end Listing

def findVisitor (target : List UInt8) (found : Option Dirent) (e : Dirent) : Option Dirent :=
  match found with
  | some out => some out
  | none => if strEqCi (formatShortName e.name) target then some e else none

/-- The entry copied to `out`, or `none` for the result -1. -/
def fat32Find (v : Vol) (name83 : List UInt8) : Outcome (Option Dirent × Vol) :=
  if v.mounted then fat32Listdir (findVisitor name83) v v.cwdCluster none else .done (none, v)

def fat32FindInRoot (v : Vol) (name83 : List UInt8) : Outcome (Option Dirent × Vol) :=
  if v.mounted then fat32Listdir (findVisitor name83) v v.geo.rootCluster none
  else .done (none, v)

/-- `(int)n` for an unsigned word `n`. -/
def toInt (n : ℕ) : ℤ := if n < 2 ^ 31 then n else n - 2 ^ 32

def readLoop (dst size : ℕ) : ℕ → ℕ → ℕ → Bytes → Vol → Outcome (ℤ × Bytes × Vol)
  | 0, _, _, _, _ => .spin
  | fuel + 1, cluster, copied, mem, v =>
      if ¬isEoc cluster ∧ 2 ≤ cluster ∧ copied < size then
        match readCluster v cluster with
        | (false, _, v) => .done (-1, mem, v)
        | (true, buf, v) =>
            let bytes := v.geo.sectorsPerCluster * 512
            let remain := size - copied
            let n := if remain < bytes then remain else bytes
            let (next, v) := nextCluster v cluster
            readLoop dst size fuel next (copied + n) (mem.blit (dst + copied) n buf) v
      else .done (toInt copied, mem, v)

/-- `fat32_read_file` into the memory at `dst`. -/
def fat32ReadFile (v : Vol) (e : Dirent) (mem : Bytes) (dst max : ℕ) :
    Outcome (ℤ × Bytes × Vol) :=
  if v.mounted then
    let size := if e.size > max then max else e.size
    readLoop dst size walkFuel e.start 0 mem v
  else .done (-1, mem, v)

/-! ## Directory scans

`search_dir`, `find_free_dirent_in` and `dir_is_empty` run through the slots of a directory
with the same three loops.  They differ in what a slot makes them return, if anything, and
in what they return for a failed read and at the end of the chain.
-/

structure DirLookup where
  entry : Dirent
  lba : ℕ
  offset : ℕ

section Scan

variable {ρ : Type} (visit : DirLookup → Option ρ) (onFail onEnd : ρ)

def scanSector (sec : Bytes) (lba : ℕ) : Option ρ :=
  (List.range 16).findSome? fun i ↦ visit ⟨direntAt sec (i * 32), lba, i * 32⟩

def scanSectors (lbaBase : ℕ) : ℕ → ℕ → Vol → Option ρ × Vol
  | 0, _, v => (none, v)
  | n + 1, s, v =>
      let lba := Word.add lbaBase s
      match v.ataRead lba 1 blank with
      | (false, _, v) => (some onFail, v)
      | (true, sec, v) =>
          match scanSector visit sec lba with
          | some r => (some r, v)
          | none => scanSectors lbaBase n (s + 1) v

def scanLoop : ℕ → ℕ → Vol → Outcome (ρ × Vol)
  | 0, _, _ => .spin
  | fuel + 1, cluster, v =>
      if ¬isEoc cluster ∧ 2 ≤ cluster then
        match scanSectors visit onFail (clusterToLba v.geo cluster) v.geo.sectorsPerCluster 0 v with
        | (some r, v) => .done (r, v)
        | (none, v) =>
            let (next, v) := nextCluster v cluster
            scanLoop fuel next v
      else .done (onEnd, v)

def scanDir (v : Vol) (startCluster : ℕ) : Outcome (ρ × Vol) :=
  scanLoop visit onFail onEnd walkFuel startCluster v

end Scan

def searchVisit (target : List UInt8) (look : DirLookup) : Option (Option DirLookup) :=
  if look.entry.first = 0 then some none
  else if look.entry.first = 0xE5 then none
  else if look.entry.attr = fatAttrLfn then none
  else if look.entry.attr &&& fatAttrVolumeId ≠ 0 then none
  else if look.entry.name = target then some (some look)
  else none

def searchDir (v : Vol) (startCluster : ℕ) (target : List UInt8) :
    Outcome (Option DirLookup × Vol) :=
  scanDir (searchVisit target) none none v startCluster

def freeVisit (look : DirLookup) : Option (Option DirLookup) :=
  if look.entry.first = 0 ∨ look.entry.first = 0xE5 then some (some look) else none

/-- `find_free_dirent_in` fills in `lba` and `offset` only; callers overwrite the entry. -/
def findFreeDirentIn (v : Vol) (startCluster : ℕ) : Outcome (Option DirLookup × Vol) :=
  scanDir freeVisit none none v startCluster

def emptyVisit (look : DirLookup) : Option Bool :=
  if look.entry.first = 0 then some true
  else if look.entry.first = 0xE5 then none
  else if look.entry.attr = fatAttrLfn then none
  else if look.entry.attr &&& fatAttrVolumeId ≠ 0 then none
  else if look.entry.first = chDot ∧ (look.entry 1 = chSpace ∨ look.entry 1 = chDot) then none
  else some false

def dirIsEmpty (v : Vol) (startCluster : ℕ) : Outcome (Bool × Vol) :=
  scanDir emptyVisit false true v startCluster

def code (ok : Bool) : ℤ := if ok then 0 else -1

def writeDirent (v : Vol) (lba offset : ℕ) (e : Dirent) : Bool × Vol :=
  match v.ataRead lba 1 blank with
  | (false, _, v) => (false, v)
  | (true, sec, v) => v.ataWrite lba 1 (sec.blit offset 32 e)

/-- The deletion mark `sec[look.offset] = 0xE5`, read, changed and written back. -/
def markDeleted (v : Vol) (lba offset : ℕ) : Bool × Vol :=
  match v.ataRead lba 1 blank with
  | (false, _, v) => (false, v)
  | (true, sec, v) => v.ataWrite lba 1 (sec.blit offset 1 fun _ ↦ 0xE5)

/-! ## Files -/

def fat32Create (v : Vol) (name : List UInt8) : Outcome (ℤ × Vol) :=
  if v.mounted then do
    let target := toShortName name
    let (found, v) ← searchDir v v.cwdCluster target
    match found with
    | some _ => pure (-1, v)
    | none =>
        let (slot, v) ← findFreeDirentIn v v.cwdCluster
        match slot with
        | none => pure (-1, v)
        | some look =>
            let (ok, v) := writeDirent v look.lba look.offset (newDirent target 0x20 0 0)
            pure (code ok, v)
  else pure (-1, v)

def fat32Remove (v : Vol) (name : List UInt8) : Outcome (ℤ × Vol) :=
  if v.mounted then do
    let (found, v) ← searchDir v v.cwdCluster (toShortName name)
    match found with
    | none => pure (-1, v)
    | some look =>
        if look.entry.isDirectory then pure (-1, v)
        else
          let v ← if 2 ≤ look.entry.start then freeChain v look.entry.start else pure v
          let (ok, v) := markDeleted v look.lba look.offset
          pure (code ok, v)
  else pure (-1, v)

/-- The allocation loop of `fat32_write_file`: the first cluster of the new chain, or `none`
where the source returns -1. -/
def writeClusters (data : Bytes) (size : ℕ) :
    ℕ → ℕ → ℕ → ℕ → Vol → Outcome (Option ℕ × Vol)
  | 0, _, _, _, _ => .spin
  | fuel + 1, first, prev, written, v =>
      if written < size then
        let clusterSize := v.geo.sectorsPerCluster * 512
        let (c, v) := allocCluster v
        if c = 0 then do
          let v ← if first ≠ 0 then freeChain v first else pure v
          pure (none, v)
        else
          let first := if first = 0 then c else first
          match if prev ≠ 0 then setFatEntry v prev c else (true, v) with
          | (false, v) => do
              let v ← freeChain v first
              pure (none, v)
          | (true, v) =>
              let remain := size - written
              let copy := if remain < clusterSize then remain else clusterSize
              let cbuf : Bytes := fun i ↦ if i < copy then data (written + i) else 0
              match v.ataWrite (clusterToLba v.geo c) v.geo.sectorsPerCluster cbuf with
              | (false, v) => do
                  let v ← freeChain v first
                  pure (none, v)
              | (true, v) => writeClusters data size fuel first c (written + copy) v
      else pure (some first, v)

/-- The slot and the entry `fat32_write_file` starts from, or `none` where it returns -1. -/
def writeTarget (v : Vol) (target : List UInt8) : Outcome (Option DirLookup × Vol) := do
  let (found, v) ← searchDir v v.cwdCluster target
  match found with
  | none =>
      let (slot, v) ← findFreeDirentIn v v.cwdCluster
      match slot with
      | none => pure (none, v)
      | some look =>
          pure (some { look with entry := (Dirent.setName blank target).setAttr 0x20 }, v)
  | some look =>
      if look.entry.isDirectory then pure (none, v)
      else
        let v ← if 2 ≤ look.entry.start then freeChain v look.entry.start else pure v
        pure (some { look with entry := (look.entry.setCluster 0).setSize 0 }, v)

def fat32WriteFile (v : Vol) (name : List UInt8) (data : Bytes) (size : ℕ) :
    Outcome (ℤ × Vol) :=
  if v.mounted then do
    let (slot, v) ← writeTarget v (toShortName name)
    match slot with
    | none => pure (-1, v)
    | some look =>
        let (chain, v) ← writeClusters data size walkFuel 0 0 0 v
        match chain with
        | none => pure (-1, v)
        | some first =>
            let entry := (look.entry.setCluster first).setSize size
            let (ok, v) := writeDirent v look.lba look.offset entry
            pure (code ok, v)
  else pure (-1, v)

/-! ## Directories -/

/-- The contents of a new directory: `.` names itself, `..` its parent, 0 for the root. -/
def newDirectory (self parent : ℕ) : Bytes :=
  (blank.blit 0 32 (newDirent dotName fatAttrDirectory self 0)).blit 32 32
    (newDirent dotdotName fatAttrDirectory parent 0)

/-- Step 3 of `fat32_mkdir`: the entry of the new directory goes into its parent. -/
def linkDirectory (v : Vol) (look : DirLookup) (target : List UInt8) (newCluster : ℕ) :
    Outcome (ℤ × Vol) :=
  match writeDirent v look.lba look.offset (newDirent target fatAttrDirectory newCluster 0) with
  | (false, v) => do
      let v ← freeChain v newCluster
      pure (-1, v)
  | (true, v) => pure (0, v)

def fat32Mkdir (v : Vol) (name : List UInt8) : Outcome (ℤ × Vol) :=
  if v.mounted then do
    let target := toShortName name
    let (found, v) ← searchDir v v.cwdCluster target
    match found with
    | some _ => pure (-1, v)
    | none =>
        let (slot, v) ← findFreeDirentIn v v.cwdCluster
        match slot with
        | none => pure (-1, v)
        | some look =>
            let (newCluster, v) := allocCluster v
            if newCluster = 0 then pure (-1, v)
            else
              let parent := if v.cwdCluster = v.geo.rootCluster then 0 else v.cwdCluster
              match v.ataWrite (clusterToLba v.geo newCluster) v.geo.sectorsPerCluster
                  (newDirectory newCluster parent) with
              | (false, v) =>
                  let v ← freeChain v newCluster
                  pure (-1, v)
              | (true, v) => linkDirectory v look target newCluster
  else pure (-1, v)

def fat32Rmdir (v : Vol) (name : List UInt8) : Outcome (ℤ × Vol) :=
  if v.mounted then
    if name = [chDot] ∨ name = [chDot, chDot] then pure (-1, v)
    else do
      let (found, v) ← searchDir v v.cwdCluster (toShortName name)
      match found with
      | none => pure (-1, v)
      | some look =>
          if ¬look.entry.isDirectory then pure (-1, v)
          else if look.entry.start < 2 then pure (-1, v)
          else
            let (empty, v) ← dirIsEmpty v look.entry.start
            if ¬empty then pure (-1, v)
            else
              let v ← freeChain v look.entry.start
              let (ok, v) := markDeleted v look.lba look.offset
              pure (code ok, v)
  else pure (-1, v)

def fat32Chdir (v : Vol) (name : List UInt8) : Outcome (ℤ × Vol) :=
  if ¬v.mounted then pure (-1, v)
  else if name = [chSlash] then pure (0, { v with cwdCluster := v.geo.rootCluster })
  else if name = [chDot] then pure (0, v)
  else if name = [chDot, chDot] then
    if v.cwdCluster = v.geo.rootCluster then pure (0, v)
    else do
      let (found, v) ← searchDir v v.cwdCluster dotdotName
      match found with
      | none => pure (-1, v)
      | some look =>
          let parent := if look.entry.start = 0 then v.geo.rootCluster else look.entry.start
          pure (0, { v with cwdCluster := parent })
  else do
    let (found, v) ← searchDir v v.cwdCluster (toShortName name)
    match found with
    | none => pure (-1, v)
    | some look =>
        if ¬look.entry.isDirectory then pure (-1, v)
        else
          let c := if look.entry.start = 0 then v.geo.rootCluster else look.entry.start
          pure (0, { v with cwdCluster := c })

/-- The token loop of `fat32_chdir_path`; a token keeps at most 15 characters. -/
def chdirTokens : List UInt8 → List UInt8 → Vol → Outcome (ℤ × Vol)
  | [], tok, v => if tok = [] then pure (0, v) else fat32Chdir v tok
  | c :: p, tok, v =>
      if c = chSlash then
        if tok = [] then chdirTokens p [] v
        else do
          let (r, v) ← fat32Chdir v tok
          if r < 0 then pure (-1, v) else chdirTokens p [] v
      else chdirTokens p (if tok.length < 15 then tok ++ [c] else tok) v

def fat32ChdirPath (v : Vol) (path : List UInt8) : Outcome (ℤ × Vol) :=
  if ¬v.mounted then pure (-1, v)
  else
    match path with
    | [] => chdirTokens [] [] v
    | c :: p =>
        if c = chSlash then chdirTokens p [] { v with cwdCluster := v.geo.rootCluster }
        else chdirTokens (c :: p) [] v

def fat32SetCwdCluster (v : Vol) (cluster : ℕ) : Vol :=
  if ¬v.mounted then v
  else { v with cwdCluster := if cluster < 2 then v.geo.rootCluster else cluster }

end MyOS.Fat32
