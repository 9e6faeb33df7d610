import MyOS.Fat32.Model
import MyOS.Sched.Model

/-!
# Shell commands on files

The commands of `shell.c` that take a path.  A command on the last part of a path moves the
working directory to the parent, works on the name there, and goes back to the cluster number
that it has saved.  A command is given the words behind its name and returns what it prints;
colours are left out.
-/

namespace MyOS.Shell

open Fat32 Heap

/-- The state of the shell: the volume, the heap and the path it shows as its prompt. -/
structure State where
  vol : Vol
  heap : Kheap
  cwdPath : List UInt8

def text (s : List UInt8) : String := String.ofList (s.map fun c ↦ Char.ofNat c.toNat)

def notMounted : String := "FAT32 not mounted.\n"

/-! ## Paths -/

/-- The end of a part of the path: it is kept, and the one before it is entered. -/
def endToken (cur : List UInt8) (prev : Option (List UInt8)) (v : Vol) :
    Outcome (ℤ × Option (List UInt8) × Vol) :=
  if cur = [] then .done (0, prev, v)
  else
    match prev with
    | none => .done (0, some cur, v)
    | some name => do
        let r ← fat32Chdir v name
        if r.1 < 0 then .done (-1, prev, r.2) else .done (0, some cur, r.2)

/-- The loop of `path_descend`; a part keeps at most 15 characters. -/
def descendTokens : List UInt8 → List UInt8 → Option (List UInt8) → Vol →
    Outcome (ℤ × Option (List UInt8) × Vol)
  | [], cur, prev, v => endToken cur prev v
  | c :: p, cur, prev, v =>
      if c = chSlash then do
        let r ← endToken cur prev v
        if r.1 < 0 then .done (-1, r.2.1, r.2.2) else descendTokens p [] r.2.1 r.2.2
      else descendTokens p (if cur.length < 15 then cur ++ [c] else cur) prev v

/-- The walk of `path_descend`, from the root if the path begins with a slash. -/
def descendPath (v : Vol) : List UInt8 → Outcome (ℤ × Option (List UInt8) × Vol)
  | [] => descendTokens [] [] none v
  | c :: p =>
      if c = chSlash then do
        let r ← fat32Chdir v [chSlash]
        descendTokens p [] none r.2
      else descendTokens (c :: p) [] none v

/-- `path_descend` with its basename, which is the empty string if there is none. -/
def pathDescend (v : Vol) (path : List UInt8) : Outcome (ℤ × List UInt8 × Vol) := do
  let r ← descendPath v path
  .done (r.1, r.2.1.getD [], r.2.2)

/-- What `path_to_parent_and_base` gives its caller. -/
structure Parent where
  code : ℤ
  saved : ℕ
  base : List UInt8
  vol : Vol

def pathToParentAndBase (v : Vol) (path : List UInt8) : Outcome Parent := do
  let saved := v.cwdCluster
  let r ← pathDescend v path
  if r.1 < 0 ∨ r.2.1 = [] then .done ⟨-1, saved, r.2.1, fat32SetCwdCluster r.2.2 saved⟩
  else .done ⟨0, saved, r.2.1, r.2.2⟩

/-! ## Reading -/

def lsVisitor (out : String) (e : Dirent) : String :=
  let name := formatShortName (Dirent.name e)
  if Dirent.isDirectory e then out ++ "  <DIR>  " ++ text name ++ "\n"
  else
    out ++ "         " ++ text name ++ text (List.replicate (14 - name.length) chSpace) ++
      toString (Dirent.size e) ++ " bytes\n"

/-- The directory that `ls` is to show. -/
def lsEnter (v : Vol) : List (List UInt8) → Outcome (ℤ × Vol)
  | [] => .done (0, v)
  | path :: _ => fat32ChdirPath v path

def cmdLs (s : State) (args : List (List UInt8)) : Outcome (String × State) :=
  if ¬s.vol.mounted then .done (notMounted, s)
  else do
    let saved := s.vol.cwdCluster
    let r ← lsEnter s.vol args
    if r.1 < 0 then
      .done ("ls: not a directory or not found: " ++ text (args.headD []) ++ "\n",
        { s with vol := fat32SetCwdCluster r.2 saved })
    else do
      let q ← fat32Listdir lsVisitor r.2 r.2.cwdCluster ""
      .done (q.1, { s with vol := fat32SetCwdCluster q.2 saved })

def catBufSize : ℕ := 16384

/-- The text that `cat` shows for the bytes of a file. -/
def catText (bytes : List UInt8) : String :=
  text (bytes.filter (· ≠ 0x0D)) ++ if bytes ≠ [] ∧ bytes.getLastD 0 ≠ 0x0A then "\n" else ""

/-- The part of `cmd_cat` behind the search. -/
def showFile (s : State) (e : Dirent) : Outcome (String × State) := do
  let r ← kmalloc s.heap catBufSize
  let buf := r.1
  let s := { s with heap := r.2 }
  if buf = 0 then .done ("cat: out of heap\n", s)
  else do
    let q ← fat32ReadFile s.vol e s.heap.mem buf catBufSize
    let n := q.1
    let s := { s with vol := q.2.2, heap := { s.heap with mem := q.2.1 } }
    let h ← kfree s.heap buf
    let out := if n < 0 then "read error\n"
      else catText ((List.range n.toNat).map fun i ↦ s.heap.mem (buf + i))
    .done (out, { s with heap := h })

def cmdCat (s : State) (args : List (List UInt8)) : Outcome (String × State) :=
  match args with
  | [] => .done ("usage: cat <path>\n", s)
  | path :: _ =>
      if ¬s.vol.mounted then .done (notMounted, s)
      else do
        let r ← pathToParentAndBase s.vol path
        if r.code < 0 then .done ("cat: invalid path\n", { s with vol := r.vol })
        else do
          let q ← fat32Find r.vol r.base
          let s := { s with vol := fat32SetCwdCluster q.2 r.saved }
          match q.1 with
          | none => .done ("not found: " ++ text path ++ "\n", s)
          | some e =>
              if Dirent.isDirectory e then .done ("is a directory\n", s) else showFile s e

/-! ## Changing

`touch`, `rm`, `mkdir` and `rmdir` differ in their texts and in the call they make. -/

def pathCommand (usage invalid failed made : String)
    (call : Vol → List UInt8 → Outcome (ℤ × Vol)) (s : State) (args : List (List UInt8)) :
    Outcome (String × State) :=
  match args with
  | [] => .done (usage, s)
  | path :: _ =>
      if ¬s.vol.mounted then .done (notMounted, s)
      else do
        let r ← pathToParentAndBase s.vol path
        if r.code < 0 then .done (invalid, { s with vol := r.vol })
        else do
          let q ← call r.vol r.base
          let s := { s with vol := fat32SetCwdCluster q.2 r.saved }
          if q.1 < 0 then .done (failed, s) else .done (made ++ text path ++ "\n", s)

def cmdTouch : State → List (List UInt8) → Outcome (String × State) :=
  pathCommand "usage: touch <path>\n" "touch: invalid path\n"
    "touch failed (exists or directory full)\n" "created: " fat32Create

def cmdRm : State → List (List UInt8) → Outcome (String × State) :=
  pathCommand "usage: rm <path>\n" "rm: invalid path\n"
    "rm failed (not found, or it's a directory?)\n" "removed: " fat32Remove

def cmdMkdir : State → List (List UInt8) → Outcome (String × State) :=
  pathCommand "usage: mkdir <path>\n" "mkdir: invalid path\n"
    "mkdir failed (exists, full, or out of space)\n" "created dir: " fat32Mkdir

def cmdRmdir : State → List (List UInt8) → Outcome (String × State) :=
  pathCommand "usage: rmdir <path>\n" "rmdir: invalid path\n"
    "rmdir failed (not a dir, or not empty)\n" "removed dir: " fat32Rmdir

def writeBufSize : ℕ := 8192

/-- The contents of the buffer: the words with spaces between them and a newline, as far as the
buffer goes. -/
def writeText (words : List (List UInt8)) : List UInt8 :=
  (List.intercalate [chSpace] words ++ [0x0A]).take writeBufSize

def cmdWrite (s : State) (args : List (List UInt8)) : Outcome (String × State) :=
  match args with
  | [] => .done ("usage: write <path> <text...>\n", s)
  | [_] => .done ("usage: write <path> <text...>\n", s)
  | path :: words =>
      if ¬s.vol.mounted then .done (notMounted, s)
      else do
        let r ← kmalloc s.heap writeBufSize
        let buf := r.1
        let s := { s with heap := r.2 }
        if buf = 0 then .done ("write: out of heap\n", s)
        else do
          let bytes := writeText words
          let len := bytes.length
          let mem := s.heap.mem.blit buf len fun i ↦ bytes.getD i 0
          let r ← pathToParentAndBase s.vol path
          if r.code < 0 then do
            let h ← kfree { s.heap with mem := mem } buf
            .done ("write: invalid path\n", { s with vol := r.vol, heap := h })
          else do
            let q ← fat32WriteFile r.vol r.base (fun i ↦ mem (buf + i)) len
            let h ← kfree { s.heap with mem := mem } buf
            let s := { s with vol := fat32SetCwdCluster q.2 r.saved, heap := h }
            if q.1 < 0 then .done ("write failed (disk or directory full?)\n", s)
            else .done ("wrote " ++ toString len ++ " bytes to " ++ text path ++ "\n", s)

/-! ## The working directory -/

def cwdPathMax : ℕ := 128

def shortToDisplay (src : List UInt8) : List UInt8 := (src.take 12).map toUpper

def pathPush (cwdPath name : List UInt8) : List UInt8 :=
  let up := shortToDisplay name
  if cwdPath.length + 1 + up.length + 1 ≥ cwdPathMax then cwdPath
  else if cwdPath = [chSlash] then cwdPath ++ up
  else cwdPath ++ chSlash :: up

def pathPop (cwdPath : List UInt8) : List UInt8 :=
  if cwdPath.length ≤ 1 then [chSlash]
  else
    -- the last part goes, and the slash before it unless it is the first character
    let kept := (cwdPath.reverse.dropWhile (· ≠ chSlash)).reverse
    if kept.length > 1 then kept.dropLast else if kept = [] then cwdPath.take 1 else kept

/-- The path that is shown after a part of the target has been entered. -/
def cdShown (tok cwdPath : List UInt8) : List UInt8 :=
  if tok = [chDot] then cwdPath
  else if tok = [chDot, chDot] then pathPop cwdPath
  else pathPush cwdPath tok

/-- The loop of `cmd_cd`: the volume and the path to show after the parts of the target. -/
def cdTokens : List UInt8 → List UInt8 → List UInt8 → Vol → Outcome (ℤ × List UInt8 × Vol)
  | [], tok, shown, v =>
      if tok = [] then .done (0, shown, v)
      else do
        let r ← fat32Chdir v tok
        if r.1 < 0 then .done (-1, shown, r.2) else .done (0, cdShown tok shown, r.2)
  | c :: p, tok, shown, v =>
      if c = chSlash then
        if tok = [] then cdTokens p [] shown v
        else do
          let r ← fat32Chdir v tok
          if r.1 < 0 then .done (-1, shown, r.2) else cdTokens p [] (cdShown tok shown) r.2
      else cdTokens p (if tok.length < 15 then tok ++ [c] else tok) shown v

/-- The walk of `cmd_cd`, from the root if the target begins with a slash. -/
def cdPath (s : State) : List UInt8 → Outcome (ℤ × List UInt8 × Vol)
  | [] => cdTokens [] [] s.cwdPath s.vol
  | c :: p =>
      if c = chSlash then do
        let r ← fat32Chdir s.vol [chSlash]
        cdTokens p [] [chSlash] r.2
      else cdTokens (c :: p) [] s.cwdPath s.vol

def cmdCd (s : State) (args : List (List UInt8)) : Outcome (String × State) :=
  if ¬s.vol.mounted then .done (notMounted, s)
  else do
    let target := args.headD [chSlash]
    let saved := s.vol.cwdCluster
    let r ← cdPath s target
    if r.1 < 0 then
      .done ("cd failed: " ++ text target ++ "\n",
        { s with vol := fat32SetCwdCluster r.2.2 saved })
    else .done ("", { s with vol := r.2.2, cwdPath := r.2.1 })

inductive Command where
  | ls
  | cat
  | touch
  | write
  | rm
  | mkdir
  | rmdir
  | cd

def Command.run : Command → State → List (List UInt8) → Outcome (String × State)
  | ls => cmdLs
  | cat => cmdCat
  | touch => cmdTouch
  | write => cmdWrite
  | rm => cmdRm
  | mkdir => cmdMkdir
  | rmdir => cmdRmdir
  | cd => cmdCd

/-! ## Programs -/

open Elf Sched

/-- The kernel with its shell.  The heap of the shell is the one of the kernel.  The variables of
the kernel and the buffers of the shell are no part of the memory that a program is loaded into. -/
structure Machine where
  vol : Vol
  cwdPath : List UInt8
  sched : Tasking

namespace Machine

variable (s : Machine)

/-- What the commands on files use. -/
def state : State := ⟨s.vol, s.sched.sys.heap, s.cwdPath⟩

def setState (t : State) : Machine := ⟨t.vol, t.cwdPath, s.sched.setHeap t.heap⟩

def setHeap (h : Kheap) : Machine := { s with sched := s.sched.setHeap h }

def setSys (sys : Sys) : Machine := { s with sched := { s.sched with sys := sys } }

end Machine

def kprintHex (n : ℕ) : String := "0x" ++ String.ofList ((Nat.toDigits 16 n).map Char.toUpper)

/-- The end of `cmd_exec`: a task for the image. -/
def spawnImage (T : Tables) (s : Machine) (path : List UInt8) (img : Option UserImage) :
    Outcome (String × Machine) := do
  let r ← s.sched.taskCreateUserImage path img
  let t := r.1
  let s := { s with sched := r.2 }
  match img with
  | none => .done ("exec: failed to spawn task\n", s)
  | some image =>
      if t = 0 then do
        let sched ← s.sched.unload T image
        .done ("exec: failed to spawn task\n", { s with sched := sched })
      else
        .done ("exec: pid=" ++ toString (s.sched.tasks t).id ++ " entry=" ++
          kprintHex image.entry ++ " segs=" ++ toString image.segs.length ++ "\n", s)

/-- The part of `cmd_exec` behind the search; `img` is the address of its variable. -/
def runFile (T : Tables) (img : ℕ) (s : Machine) (path : List UInt8) (e : Dirent) :
    Outcome (String × Machine) := do
  let r ← kmalloc s.sched.sys.heap (Dirent.size e)
  let buf := r.1
  let s := s.setHeap r.2
  if buf = 0 then .done ("exec: out of heap\n", s)
  else do
    let q ← fat32ReadFile s.vol e s.sched.sys.heap.mem buf (Dirent.size e)
    let n := q.1
    let mem := q.2.1
    let s := { s.setHeap { s.sched.sys.heap with mem := mem } with vol := q.2.2 }
    if n < 0 ∨ n.toNat ≠ Dirent.size e then do
      let h ← kfree s.sched.sys.heap buf
      .done ("exec: read error\n", s.setHeap h)
    else do
      let F : File := ⟨buf, fun i ↦ mem (Word.add buf i), Dirent.size e, Bytes.read32_lt e 28⟩
      let r ← elfLoad T s.sched.sys F img
      let er := r.1
      let s := s.setSys r.2.2
      let h ← kfree s.sched.sys.heap buf
      let s := s.setHeap h
      if er < 0 then
        .done ("exec: not a valid i386 ELF (rc=" ++ toString (-er).toNat ++ ")\n", s)
      else spawnImage T s path r.2.1

def cmdExec (T : Tables) (img : ℕ) (s : Machine) (args : List (List UInt8)) :
    Outcome (String × Machine) :=
  match args with
  | [] => .done ("usage: exec <path>\n", s)
  | path :: _ =>
      if ¬s.vol.mounted then .done (notMounted, s)
      else if s.sched.active = false then .done ("multitasking not active\n", s)
      else do
        let r ← pathToParentAndBase s.vol path
        if r.code < 0 then .done ("exec: invalid path\n", { s with vol := r.vol })
        else do
          let q ← fat32Find r.vol r.base
          let s := { s with vol := fat32SetCwdCluster q.2 r.saved }
          match q.1 with
          | none => .done ("exec: not found: " ++ text path ++ "\n", s)
          | some e =>
              if Dirent.isDirectory e then .done ("exec: is a directory\n", s)
              else if Dirent.size e = 0 then .done ("exec: empty file\n", s)
              else runFile T img s path e

end MyOS.Shell
