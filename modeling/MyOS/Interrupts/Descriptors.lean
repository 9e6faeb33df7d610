import MyOS.Lib.Bytes
import MyOS.Lib.Word

/-!
# Descriptor tables

`gdt_init`, `tss_init` and `idt_init` fill three tables that the processor reads: which segments
there are, which stack it takes when it enters ring 0, and where an interrupt goes.  The first
part has the code, with the fields at their offsets in the packed structures.  The second part is
the processor: what it reads from the bytes, and what it does with it on an interrupt, on a load of
a segment register and on an access to a port.
-/

namespace MyOS.Interrupts

open Bytes

/-! ## The code -/

def gdtKcodeSel : ℕ := 0x08

def gdtKdataSel : ℕ := 0x10

/-- The tables, each with addresses from 0 on. -/
structure Tables where
  gdt : Bytes
  idt : Bytes
  kernelTss : Bytes

def setEntry (gdt : Bytes) (i base limit access gran : ℕ) : Bytes :=
  let gdt := gdt.writeLE (8 * i + 2) 2 (base &&& 0xFFFF)
  let gdt := gdt.writeLE (8 * i + 4) 1 (base >>> 16 &&& 0xFF)
  let gdt := gdt.writeLE (8 * i + 7) 1 (base >>> 24 &&& 0xFF)
  let gdt := gdt.writeLE (8 * i) 2 (limit &&& 0xFFFF)
  let gdt := gdt.writeLE (8 * i + 6) 1 ((limit >>> 16 &&& 0x0F) ||| (gran &&& 0xF0))
  gdt.writeLE (8 * i + 5) 1 access

def gdtSetTss (gdt : Bytes) (base limit : ℕ) : Bytes := setEntry gdt 5 base limit 0x89 0x00

def gdtInit (T : Tables) : Tables :=
  let gdt := setEntry T.gdt 0 0 0 0x00 0x00
  let gdt := setEntry gdt 1 0 0xFFFFFFFF 0x9A 0xCF
  let gdt := setEntry gdt 2 0 0xFFFFFFFF 0x92 0xCF
  let gdt := setEntry gdt 3 0 0xFFFFFFFF 0xFA 0xCF
  let gdt := setEntry gdt 4 0 0xFFFFFFFF 0xF2 0xCF
  { T with gdt := gdt }

/-- `sizeof(gdt) - 1` -/
def gdtLimit : ℕ := 6 * 8 - 1

def sizeofTss : ℕ := 104

def tssInit (T : Tables) (tss : ℕ) : Tables :=
  let p := T.kernelTss.blit 0 sizeofTss fun _ ↦ 0
  let p := p.write32 8 gdtKdataSel
  let p := p.write32 4 0
  let p := p.writeLE 102 2 sizeofTss
  let p := p.write32 76 gdtKcodeSel
  -- gs, fs, es, ds and ss, as the assignment is evaluated
  let p := [92, 88, 72, 84, 80].foldl (fun p field ↦ p.write32 field gdtKdataSel) p
  { T with
    kernelTss := p
    gdt := gdtSetTss T.gdt tss (sizeofTss - 1) }

def tssSetEsp0 (T : Tables) (esp0 : ℕ) : Tables :=
  { T with kernelTss := T.kernelTss.write32 4 esp0 }

def idtSetGate (idt : Bytes) (num handler selector flags : ℕ) : Bytes :=
  let idt := idt.writeLE (8 * num) 2 (handler &&& 0xFFFF)
  let idt := idt.writeLE (8 * num + 6) 2 (handler >>> 16 &&& 0xFFFF)
  let idt := idt.writeLE (8 * num + 2) 2 selector
  let idt := idt.writeLE (8 * num + 4) 1 0
  idt.writeLE (8 * num + 5) 1 flags

/-- `sizeof(idt) - 1` -/
def idtLimit : ℕ := 256 * 8 - 1

/-- The addresses of the stubs. -/
structure Stubs where
  isrStubTable : ℕ → ℕ
  isr128 : ℕ

/-- The gates of a loop that starts at vector `first`. -/
def installStubs (S : Stubs) (first n : ℕ) (idt : Bytes) : Bytes :=
  (List.range n).foldl
    (fun idt i ↦ idtSetGate idt (first + i) (S.isrStubTable (first + i)) 0x08 0x8E) idt

def idtInit (S : Stubs) (T : Tables) : Tables :=
  let idt := installStubs S 0 32 T.idt
  let idt := installStubs S 32 16 idt
  { T with idt := idtSetGate idt 128 S.isr128 0x08 0xEF }

/-- What `kmain` does with the tables, which are static and so start as zeros.  The TSS is at
`tss`. -/
def bootTables (S : Stubs) (tss : ℕ) : Tables :=
  idtInit S (tssInit (gdtInit ⟨fun _ ↦ 0, fun _ ↦ 0, fun _ ↦ 0⟩) tss)

/-! ## The processor -/

/-- A descriptor of the GDT. -/
structure Descriptor where
  base : ℕ
  /-- The last offset, in bytes. -/
  lastByte : ℕ
  type : ℕ
  /-- Code or data, and not a system descriptor. -/
  memory : Bool
  dpl : ℕ
  present : Bool
  deriving DecidableEq

/-- The bits of an access byte. -/
def Descriptor.ofAccess (base lastByte access : ℕ) : Descriptor where
  base := base
  lastByte := lastByte
  type := access % 16
  memory := decide (access / 16 % 2 = 1)
  dpl := access / 32 % 4
  present := decide (access / 128 = 1)

def descriptorAt (gdt : Bytes) (i : ℕ) : Descriptor :=
  let limit := gdt.readLE (8 * i) 2 + 2 ^ 16 * (gdt.readLE (8 * i + 6) 1 % 16)
  Descriptor.ofAccess
    (gdt.readLE (8 * i + 2) 2 + 2 ^ 16 * gdt.readLE (8 * i + 4) 1 +
      2 ^ 24 * gdt.readLE (8 * i + 7) 1)
    (if gdt.readLE (8 * i + 6) 1 / 128 = 1 then 4096 * limit + 4095 else limit)
    (gdt.readLE (8 * i + 5) 1)

namespace Descriptor

def IsCode (d : Descriptor) : Prop := d.memory = true ∧ 8 ≤ d.type

def Conforming (d : Descriptor) : Prop := d.IsCode ∧ d.type / 4 % 2 = 1

/-- Data, or code that can be read. -/
def Readable (d : Descriptor) : Prop := d.memory = true ∧ (d.type < 8 ∨ d.type / 2 % 2 = 1)

/-- Data that can be written. -/
def Writable (d : Descriptor) : Prop := d.memory = true ∧ d.type < 8 ∧ d.type / 2 % 2 = 1

instance (d : Descriptor) : Decidable d.IsCode := inferInstanceAs (Decidable (_ ∧ _))

instance (d : Descriptor) : Decidable d.Conforming := inferInstanceAs (Decidable (_ ∧ _))

instance (d : Descriptor) : Decidable d.Readable := inferInstanceAs (Decidable (_ ∧ _))

instance (d : Descriptor) : Decidable d.Writable := inferInstanceAs (Decidable (_ ∧ _))

end Descriptor

structure Gate where
  offset : ℕ
  selector : ℕ
  type : ℕ
  dpl : ℕ
  present : Bool
  deriving DecidableEq

/-- The bits of a type byte; bit 4 is 0 in a gate. -/
def Gate.ofFlags (offset selector flags : ℕ) : Gate where
  offset := offset
  selector := selector
  type := flags % 32
  dpl := flags / 32 % 4
  present := decide (flags / 128 = 1)

def gateAt (idt : Bytes) (n : ℕ) : Gate :=
  Gate.ofFlags (idt.readLE (8 * n) 2 + 2 ^ 16 * idt.readLE (8 * n + 6) 2)
    (idt.readLE (8 * n + 2) 2) (idt.readLE (8 * n + 5) 1)

/-- Where an interrupt goes: to a code segment and an address in it, on the stack `ss:esp` if the
ring changes, with interrupts masked or not; or to another exception, with its error code. -/
inductive Delivery where
  | enter (cs eip : ℕ) (stack : Option (ℕ × ℕ)) (masks : Bool)
  | fault (vector err : ℕ)
  deriving DecidableEq

namespace Tables

variable (T : Tables)

/-- The segment that a selector names, if it is in the GDT. -/
def segment (sel : ℕ) : Option Descriptor :=
  if sel / 4 % 2 = 0 ∧ 0 < sel / 8 ∧ sel / 8 * 8 + 7 ≤ gdtLimit then
    some (descriptorAt T.gdt (sel / 8))
  else none

/-- The stack for ring `r`, if it is one. -/
def ringStack (r : ℕ) : Option (ℕ × ℕ) :=
  let esp := T.kernelTss.read32 (8 * r + 4)
  let ss := T.kernelTss.read32 (8 * r + 8)
  match T.segment ss with
  | none => none
  | some d =>
      if ss % 4 = r ∧ d.dpl = r ∧ d.Writable ∧ d.present = true then some (ss, esp) else none

/-- Interrupt `n` in ring `cpl`, by an instruction `int n` or from outside. -/
def deliver (cpl : ℕ) (software : Bool) (n : ℕ) : Delivery :=
  let ext := if software then 0 else 1
  let g := gateAt T.idt n
  if idtLimit < 8 * n + 7 then .fault 13 (8 * n + 2 + ext)
  else if g.type ≠ 0xE ∧ g.type ≠ 0xF then .fault 13 (8 * n + 2 + ext)
  else if software = true ∧ g.dpl < cpl then .fault 13 (8 * n + 2)
  else if g.present = false then .fault 11 (8 * n + 2 + ext)
  else
    match T.segment g.selector with
    | none => .fault 13 (g.selector / 8 * 8 + ext)
    | some d =>
        if ¬d.IsCode ∨ cpl < d.dpl then .fault 13 (g.selector / 8 * 8 + ext)
        else if d.present = false then .fault 11 (g.selector / 8 * 8 + ext)
        else if d.Conforming ∨ d.dpl = cpl then
          .enter (g.selector / 4 * 4 + cpl) g.offset none (decide (g.type = 0xE))
        else
          match T.ringStack d.dpl with
          | none => .fault 10 ext
          | some stack =>
              .enter (g.selector / 4 * 4 + d.dpl) g.offset (some stack) (decide (g.type = 0xE))

/-- Ring `cpl` can load the selector into `ds`, `es`, `fs` or `gs`. -/
def Loads (cpl sel : ℕ) : Prop :=
  sel < 4 ∨ ∃ d, T.segment sel = some d ∧ d.Readable ∧ d.present = true ∧
    (d.Conforming ∨ cpl ≤ d.dpl ∧ sel % 4 ≤ d.dpl)

/-- Ring `cpl`, with privilege level `iopl` for ports, can use a port: the ring is privileged, or
the two bytes of the permission map that hold the bit are inside the TSS and the bit is 0. -/
def UsesPort (cpl iopl port : ℕ) : Prop :=
  let map := T.kernelTss.readLE 102 2
  cpl ≤ iopl ∨ (map + port / 8 + 1 ≤ (descriptorAt T.gdt 5).lastByte ∧
    T.kernelTss.readLE (map + port / 8) 1 / 2 ^ (port % 8) % 2 = 0)

end Tables

/-! ## What is read back -/

variable {T : Tables} {S : Stubs} {gdt idt : Bytes} {i j n m : ℕ}

theorem and_ffff (x : ℕ) : x &&& 0xFFFF = x % 2 ^ 16 := Nat.and_two_pow_sub_one_eq_mod x 16

theorem and_ff (x : ℕ) : x &&& 0xFF = x % 2 ^ 8 := Nat.and_two_pow_sub_one_eq_mod x 8

theorem and_f (x : ℕ) : x &&& 0x0F = x % 2 ^ 4 := Nat.and_two_pow_sub_one_eq_mod x 4

/-- The flags of `gran` go above four bits. -/
theorem flags_eq {gran : ℕ} (h : gran < 2 ^ 8) (x : ℕ) :
    x &&& 0x0F ||| gran &&& 0xF0 = gran / 16 * 16 + x % 16 := by
  have hhigh : ∀ g : Fin 256, g.val &&& 0xF0 = g.val / 16 * 16 := by decide +kernel
  have hdvd : 2 ^ 4 ∣ gran / 16 * 16 := ⟨gran / 16, mul_comm _ _⟩
  rw [and_f, hhigh ⟨gran, h⟩, Nat.or_comm]
  exact Word.or_eq_add hdvd (Nat.mod_lt _ (by norm_num))

theorem readLE_setEntry_of_disjoint {b k base limit access gran : ℕ}
    (h : b + k ≤ 8 * i ∨ 8 * i + 8 ≤ b) :
    (setEntry gdt i base limit access gran).readLE b k = gdt.readLE b k := by
  simp only [setEntry]
  rw [readLE_writeLE_of_disjoint (by omega), readLE_writeLE_of_disjoint (by omega),
    readLE_writeLE_of_disjoint (by omega), readLE_writeLE_of_disjoint (by omega),
    readLE_writeLE_of_disjoint (by omega), readLE_writeLE_of_disjoint (by omega)]

/-- What `set_entry` stores is what the processor reads: the base, twenty bits of the limit and
the access byte. -/
theorem descriptorAt_setEntry {base access gran : ℕ} (hbase : base < 2 ^ 32)
    (haccess : access < 2 ^ 8) (hgran : gran < 2 ^ 8) (limit : ℕ) :
    descriptorAt (setEntry gdt i base limit access gran) i = Descriptor.ofAccess base
      (if gran / 128 = 1 then 4096 * (limit % 2 ^ 20) + 4095 else limit % 2 ^ 20) access := by
  have hlimit : (setEntry gdt i base limit access gran).readLE (8 * i) 2 = limit % 2 ^ 16 := by
    simp only [setEntry]
    rw [readLE_writeLE_of_disjoint (by omega), readLE_writeLE_of_disjoint (by omega),
      readLE_writeLE, and_ffff]
    exact Nat.mod_mod _ (2 ^ 16)
  have hlow : (setEntry gdt i base limit access gran).readLE (8 * i + 2) 2 = base % 2 ^ 16 := by
    simp only [setEntry]
    rw [readLE_writeLE_of_disjoint (by omega), readLE_writeLE_of_disjoint (by omega),
      readLE_writeLE_of_disjoint (by omega), readLE_writeLE_of_disjoint (by omega),
      readLE_writeLE_of_disjoint (by omega), readLE_writeLE, and_ffff]
    exact Nat.mod_mod _ (2 ^ 16)
  have hmid : (setEntry gdt i base limit access gran).readLE (8 * i + 4) 1 =
      base / 2 ^ 16 % 2 ^ 8 := by
    simp only [setEntry]
    rw [readLE_writeLE_of_disjoint (by omega), readLE_writeLE_of_disjoint (by omega),
      readLE_writeLE_of_disjoint (by omega), readLE_writeLE_of_disjoint (by omega),
      readLE_writeLE, and_ff, Nat.shiftRight_eq_div_pow]
    exact Nat.mod_mod _ (2 ^ 8)
  have hhigh : (setEntry gdt i base limit access gran).readLE (8 * i + 7) 1 =
      base / 2 ^ 24 % 2 ^ 8 := by
    simp only [setEntry]
    rw [readLE_writeLE_of_disjoint (by omega), readLE_writeLE_of_disjoint (by omega),
      readLE_writeLE_of_disjoint (by omega), readLE_writeLE, and_ff, Nat.shiftRight_eq_div_pow]
    exact Nat.mod_mod _ (2 ^ 8)
  have hflags : (setEntry gdt i base limit access gran).readLE (8 * i + 6) 1 =
      gran / 16 * 16 + limit / 2 ^ 16 % 16 := by
    simp only [setEntry]
    rw [readLE_writeLE_of_disjoint (by omega), readLE_writeLE, flags_eq hgran,
      Nat.shiftRight_eq_div_pow]
    omega
  have haccess' : (setEntry gdt i base limit access gran).readLE (8 * i + 5) 1 = access := by
    simp only [setEntry]
    rw [readLE_writeLE]
    exact Nat.mod_eq_of_lt haccess
  have hgranular : (gran / 16 * 16 + limit / 2 ^ 16 % 16) / 128 = gran / 128 := by omega
  have hsum : limit % 2 ^ 16 + 2 ^ 16 * ((gran / 16 * 16 + limit / 2 ^ 16 % 16) % 16) =
      limit % 2 ^ 20 := by omega
  have haddr : base % 2 ^ 16 + 2 ^ 16 * (base / 2 ^ 16 % 2 ^ 8) +
      2 ^ 24 * (base / 2 ^ 24 % 2 ^ 8) = base := by omega
  simp only [descriptorAt, hlimit, hlow, hmid, hhigh, hflags, haccess', hgranular, hsum, haddr]

theorem descriptorAt_congr {gdt' : Bytes}
    (h : ∀ b k, 8 * i ≤ b → b + k ≤ 8 * i + 8 → gdt'.readLE b k = gdt.readLE b k) :
    descriptorAt gdt' i = descriptorAt gdt i := by
  simp only [descriptorAt]
  rw [h (8 * i) 2 (by omega) (by omega), h (8 * i + 2) 2 (by omega) (by omega),
    h (8 * i + 4) 1 (by omega) (by omega), h (8 * i + 5) 1 (by omega) (by omega),
    h (8 * i + 6) 1 (by omega) (by omega), h (8 * i + 7) 1 (by omega) (by omega)]

theorem descriptorAt_setEntry_of_ne {base limit access gran : ℕ} (hne : j ≠ i) :
    descriptorAt (setEntry gdt i base limit access gran) j = descriptorAt gdt j :=
  descriptorAt_congr fun _ _ _ _ ↦ readLE_setEntry_of_disjoint (by omega)

theorem readLE_idtSetGate_of_disjoint {b k handler selector flags : ℕ}
    (h : b + k ≤ 8 * n ∨ 8 * n + 8 ≤ b) :
    (idtSetGate idt n handler selector flags).readLE b k = idt.readLE b k := by
  simp only [idtSetGate]
  rw [readLE_writeLE_of_disjoint (by omega), readLE_writeLE_of_disjoint (by omega),
    readLE_writeLE_of_disjoint (by omega), readLE_writeLE_of_disjoint (by omega),
    readLE_writeLE_of_disjoint (by omega)]

theorem gateAt_idtSetGate {handler selector flags : ℕ} (hhandler : handler < 2 ^ 32)
    (hselector : selector < 2 ^ 16) (hflags : flags < 2 ^ 8) :
    gateAt (idtSetGate idt n handler selector flags) n = Gate.ofFlags handler selector flags := by
  have hlow : (idtSetGate idt n handler selector flags).readLE (8 * n) 2 = handler % 2 ^ 16 := by
    simp only [idtSetGate]
    rw [readLE_writeLE_of_disjoint (by omega), readLE_writeLE_of_disjoint (by omega),
      readLE_writeLE_of_disjoint (by omega), readLE_writeLE_of_disjoint (by omega),
      readLE_writeLE, and_ffff]
    exact Nat.mod_mod _ (2 ^ 16)
  have hhigh : (idtSetGate idt n handler selector flags).readLE (8 * n + 6) 2 =
      handler / 2 ^ 16 % 2 ^ 16 := by
    simp only [idtSetGate]
    rw [readLE_writeLE_of_disjoint (by omega), readLE_writeLE_of_disjoint (by omega),
      readLE_writeLE_of_disjoint (by omega), readLE_writeLE, and_ffff,
      Nat.shiftRight_eq_div_pow]
    exact Nat.mod_mod _ (2 ^ 16)
  have hsel : (idtSetGate idt n handler selector flags).readLE (8 * n + 2) 2 = selector := by
    simp only [idtSetGate]
    rw [readLE_writeLE_of_disjoint (by omega), readLE_writeLE_of_disjoint (by omega),
      readLE_writeLE]
    exact Nat.mod_eq_of_lt hselector
  have htype : (idtSetGate idt n handler selector flags).readLE (8 * n + 5) 1 = flags := by
    simp only [idtSetGate]
    rw [readLE_writeLE]
    exact Nat.mod_eq_of_lt hflags
  have haddr : handler % 2 ^ 16 + 2 ^ 16 * (handler / 2 ^ 16 % 2 ^ 16) = handler := by omega
  simp only [gateAt, hlow, hhigh, hsel, htype, haddr]

theorem gateAt_idtSetGate_of_ne {handler selector flags : ℕ} (hne : m ≠ n) :
    gateAt (idtSetGate idt n handler selector flags) m = gateAt idt m := by
  simp only [gateAt]
  rw [readLE_idtSetGate_of_disjoint (by omega), readLE_idtSetGate_of_disjoint (by omega),
    readLE_idtSetGate_of_disjoint (by omega), readLE_idtSetGate_of_disjoint (by omega)]

/-- The stubs have 32-bit addresses. -/
def Stubs.InRange (S : Stubs) : Prop := (∀ n, S.isrStubTable n < 2 ^ 32) ∧ S.isr128 < 2 ^ 32

/-- A loop of `idt_init` installs its vectors and no other. -/
theorem gateAt_installStubs (hS : S.InRange) (first n m : ℕ) :
    gateAt (installStubs S first n idt) m =
      if first ≤ m ∧ m < first + n then Gate.ofFlags (S.isrStubTable m) 0x08 0x8E
      else gateAt idt m := by
  induction n with
  | zero => rw [installStubs, List.range_zero, List.foldl_nil, if_neg (by omega)]
  | succ n ih =>
      rw [installStubs, List.range_succ, List.foldl_append, List.foldl_cons, List.foldl_nil,
        ← installStubs]
      by_cases hm : m = first + n
      · subst hm
        rw [gateAt_idtSetGate (hS.1 _) (by norm_num) (by norm_num), if_pos (by omega)]
      · rw [gateAt_idtSetGate_of_ne hm, ih]
        have hiff : (first ≤ m ∧ m < first + n) ↔ first ≤ m ∧ m < first + (n + 1) := by omega
        simp only [hiff]

/-! ## The tables after booting -/

/-- The gate of each vector. -/
def Stubs.gate (S : Stubs) (n : ℕ) : Gate :=
  if n < 48 then Gate.ofFlags (S.isrStubTable n) 0x08 0x8E
  else if n = 128 then Gate.ofFlags S.isr128 0x08 0xEF
  else Gate.ofFlags 0 0 0

/-- The access byte of each segment. -/
def accessOf : ℕ → ℕ
  | 1 => 0x9A
  | 2 => 0x92
  | 3 => 0xFA
  | _ => 0xF2

/-- What the processor finds, with the stack pointer `esp0` for ring 0. -/
structure Tables.Installed (T : Tables) (S : Stubs) (tss esp0 : ℕ) : Prop where
  gate : ∀ n, gateAt T.idt n = S.gate n
  flat : ∀ i, 1 ≤ i → i ≤ 4 →
    descriptorAt T.gdt i = Descriptor.ofAccess 0 (2 ^ 32 - 1) (accessOf i)
  tss : descriptorAt T.gdt 5 = Descriptor.ofAccess tss (sizeofTss - 1) 0x89
  esp0 : T.kernelTss.read32 4 = esp0
  ss0 : T.kernelTss.read32 8 = gdtKdataSel
  map : T.kernelTss.readLE 102 2 = sizeofTss

theorem gateAt_zero (n : ℕ) : gateAt (fun _ ↦ 0) n = Gate.ofFlags 0 0 0 := by
  simp [gateAt, readLE]

theorem gdtInit_flat (hlo : 1 ≤ i) (hhi : i ≤ 4) :
    descriptorAt (gdtInit T).gdt i = Descriptor.ofAccess 0 (2 ^ 32 - 1) (accessOf i) := by
  simp only [gdtInit]
  interval_cases i
  · rw [descriptorAt_setEntry_of_ne (by decide), descriptorAt_setEntry_of_ne (by decide),
      descriptorAt_setEntry_of_ne (by decide),
      descriptorAt_setEntry (by norm_num) (by norm_num) (by norm_num)]
    rfl
  · rw [descriptorAt_setEntry_of_ne (by decide), descriptorAt_setEntry_of_ne (by decide),
      descriptorAt_setEntry (by norm_num) (by norm_num) (by norm_num)]
    rfl
  · rw [descriptorAt_setEntry_of_ne (by decide),
      descriptorAt_setEntry (by norm_num) (by norm_num) (by norm_num)]
    rfl
  · rw [descriptorAt_setEntry (by norm_num) (by norm_num) (by norm_num)]
    rfl

/-- Of the fields from `es` to `gs` all are behind the stacks and before the permission map. -/
theorem readLE_dataSegments {p : Bytes} {b k x : ℕ} (h : b + k ≤ 72 ∨ 96 ≤ b) :
    ([92, 88, 72, 84, 80].foldl (fun p field ↦ p.write32 field x) p).readLE b k = p.readLE b k := by
  simp only [List.foldl_cons, List.foldl_nil]
  rw [readLE_writeLE_of_disjoint (by omega), readLE_writeLE_of_disjoint (by omega),
    readLE_writeLE_of_disjoint (by omega), readLE_writeLE_of_disjoint (by omega),
    readLE_writeLE_of_disjoint (by omega)]

theorem tssInit_fields (T : Tables) (tss : ℕ) :
    (tssInit T tss).kernelTss.read32 4 = 0 ∧ (tssInit T tss).kernelTss.read32 8 = gdtKdataSel ∧
      (tssInit T tss).kernelTss.readLE 102 2 = sizeofTss := by
  simp only [tssInit]
  refine ⟨?_, ?_, ?_⟩
  · rw [read32, readLE_dataSegments (by norm_num), readLE_writeLE_of_disjoint (by norm_num),
      readLE_writeLE_of_disjoint (by norm_num)]
    exact read32_write32 (by norm_num)
  · rw [read32, readLE_dataSegments (by norm_num), readLE_writeLE_of_disjoint (by norm_num),
      readLE_writeLE_of_disjoint (by norm_num), readLE_writeLE_of_disjoint (by norm_num)]
    exact read32_write32 (by norm_num [gdtKdataSel])
  · rw [readLE_dataSegments (by norm_num), readLE_writeLE_of_disjoint (by norm_num),
      readLE_writeLE]
    rfl

theorem bootTables_installed (hS : S.InRange) {tss : ℕ} (htss : tss < 2 ^ 32) :
    (bootTables S tss).Installed S tss 0 := by
  obtain ⟨hesp0, hss0, hmap⟩ :=
    tssInit_fields (gdtInit ⟨fun _ ↦ 0, fun _ ↦ 0, fun _ ↦ 0⟩) tss
  refine ⟨fun n ↦ ?_, fun i hlo hhi ↦ ?_, ?_, hesp0, hss0, hmap⟩
  · simp only [bootTables, idtInit]
    by_cases hn : n = 128
    · rw [hn, gateAt_idtSetGate hS.2 (by norm_num) (by norm_num)]
      rfl
    · rw [gateAt_idtSetGate_of_ne hn, gateAt_installStubs hS, gateAt_installStubs hS, Stubs.gate,
        if_neg hn]
      by_cases hirq : 32 ≤ n ∧ n < 32 + 16
      · rw [if_pos hirq, if_pos (by omega)]
      · rw [if_neg hirq]
        by_cases hexc : n < 32
        · rw [if_pos (by omega), if_pos (by omega)]
        · rw [if_neg (by omega), if_neg (by omega)]
          exact gateAt_zero n
  · have hne : i ≠ 5 := by omega
    exact (descriptorAt_setEntry_of_ne hne).trans (gdtInit_flat hlo hhi)
  · exact descriptorAt_setEntry htss (by norm_num) (by norm_num) _

namespace Tables.Installed

variable {tss esp0 cpl : ℕ} (h : T.Installed S tss esp0)
include h

theorem tssSetEsp0 {e : ℕ} (he : e < 2 ^ 32) : (tssSetEsp0 T e).Installed S tss e where
  gate := h.gate
  flat := h.flat
  tss := h.tss
  esp0 := read32_write32 he
  ss0 := (read32_write32_of_disjoint (by norm_num)).trans h.ss0
  map := (readLE_writeLE_of_disjoint (by norm_num)).trans h.map

theorem foldl_tssSetEsp0 {es : List ℕ} (hes : ∀ e ∈ es, e < 2 ^ 32) :
    (es.foldl Interrupts.tssSetEsp0 T).Installed S tss (es.getLastD esp0) := by
  induction es generalizing T esp0 with
  | nil => exact h
  | cons e es ih =>
      rw [List.foldl_cons, List.getLastD_cons]
      exact ih (h.tssSetEsp0 (hes e List.mem_cons_self))
        fun x hx ↦ hes x (List.mem_cons_of_mem e hx)

theorem segment_eq {sel : ℕ} {d : Descriptor} (hd : T.segment sel = some d) :
    1 ≤ sel / 8 ∧ sel / 8 ≤ 4 ∧ d = Descriptor.ofAccess 0 (2 ^ 32 - 1) (accessOf (sel / 8)) ∨
      sel / 8 = 5 ∧ d = Descriptor.ofAccess tss (sizeofTss - 1) 0x89 := by
  rw [segment] at hd
  split_ifs at hd with hin
  obtain rfl := Option.some.inj hd
  rw [gdtLimit] at hin
  by_cases hfive : sel / 8 = 5
  · rw [hfive, h.tss]
    exact Or.inr ⟨rfl, rfl⟩
  · refine Or.inl ⟨by omega, by omega, ?_⟩
    exact h.flat _ (by omega) (by omega)

theorem segment_flat {sel : ℕ} (hti : sel / 4 % 2 = 0) (hlo : 1 ≤ sel / 8) (hhi : sel / 8 ≤ 4) :
    T.segment sel = some (Descriptor.ofAccess 0 (2 ^ 32 - 1) (accessOf (sel / 8))) := by
  rw [segment, if_pos ⟨hti, by omega, by rw [gdtLimit]; omega⟩, h.flat _ hlo hhi]

theorem ringStack : T.ringStack 0 = some (gdtKdataSel, esp0) := by
  simp only [Tables.ringStack, h.ss0, h.esp0]
  rw [h.segment_flat (by decide) (by decide) (by decide)]
  exact if_pos (by decide)

/-- A gate to `0x08` leads to ring 0. -/
theorem deliver_gate {software : Bool} {offset flags : ℕ} (hn : n < 256)
    (hgate : gateAt T.idt n = Gate.ofFlags offset 0x08 flags)
    (htype : flags % 32 = 0xE ∨ flags % 32 = 0xF) (hpresent : flags / 128 = 1)
    (hdpl : software = true → cpl ≤ flags / 32 % 4) :
    T.deliver cpl software n = .enter 0x08 offset
      (if cpl = 0 then none else some (gdtKdataSel, esp0)) (decide (flags % 32 = 0xE)) := by
  have hseg : T.segment 0x08 = some (Descriptor.ofAccess 0 (2 ^ 32 - 1) 0x9A) :=
    h.segment_flat (by decide) (by decide) (by decide)
  have hin : ¬idtLimit < 8 * n + 7 := by
    rw [idtLimit]
    omega
  have hgood : ¬(flags % 32 ≠ 0xE ∧ flags % 32 ≠ 0xF) := by tauto
  have hallowed : ¬(software = true ∧ flags / 32 % 4 < cpl) :=
    fun hno ↦ absurd (hdpl hno.1) (Nat.not_le.mpr hno.2)
  simp only [deliver, hgate, Gate.ofFlags]
  rw [if_neg hin, if_neg hgood, if_neg hallowed, if_neg (by simp [hpresent]), hseg]
  have hcode : ¬(¬(Descriptor.ofAccess 0 (2 ^ 32 - 1) 0x9A).IsCode ∨
      cpl < (Descriptor.ofAccess 0 (2 ^ 32 - 1) 0x9A).dpl) := by
    rintro (hno | hno)
    · exact hno (by decide)
    · exact Nat.not_lt_zero _ hno
  have hconf : ¬(Descriptor.ofAccess 0 (2 ^ 32 - 1) 0x9A).Conforming := by decide
  have hzero : (Descriptor.ofAccess 0 (2 ^ 32 - 1) 0x9A).dpl = 0 := by decide
  have hthere : ¬(Descriptor.ofAccess 0 (2 ^ 32 - 1) 0x9A).present = false := by decide
  simp only [hconf, false_or]
  rw [if_neg hcode, if_neg hthere, hzero, h.ringStack]
  by_cases hcpl : cpl = 0
  · rw [if_pos hcpl.symm, if_pos hcpl, hcpl]
  · rw [if_neg (Ne.symm hcpl), if_neg hcpl]

/-- The instruction `int n` in ring 3. -/
theorem deliver_software (hn : n < 256) :
    T.deliver 3 true n = if n = 128 then .enter 0x08 S.isr128 (some (gdtKdataSel, esp0)) false
      else .fault 13 (8 * n + 2) := by
  have hin : ¬idtLimit < 8 * n + 7 := by
    rw [idtLimit]
    omega
  have hgate := h.gate n
  rw [Stubs.gate] at hgate
  split_ifs with h128
  · rw [if_neg (by omega), if_pos h128] at hgate
    exact h.deliver_gate hn hgate (Or.inr rfl) rfl fun _ ↦ by decide
  · by_cases hlow : n < 48
    · -- the gate is for ring 0
      rw [if_pos hlow] at hgate
      simp only [deliver, hgate, Gate.ofFlags]
      rw [if_neg hin, if_neg (by decide), if_pos (by decide)]
    · -- there is no gate
      rw [if_neg hlow, if_neg h128] at hgate
      simp only [deliver, hgate, Gate.ofFlags]
      rw [if_neg hin, if_pos (by decide)]
      rfl

/-- Exceptions and the interrupts of devices. -/
theorem deliver_external (hn : n < 48) (cpl : ℕ) :
    T.deliver cpl false n = .enter 0x08 (S.isrStubTable n)
      (if cpl = 0 then none else some (gdtKdataSel, esp0)) true := by
  have hgate := h.gate n
  rw [Stubs.gate, if_pos hn] at hgate
  refine (h.deliver_gate (by omega) hgate (Or.inl rfl) rfl fun hs ↦ ?_).trans rfl
  cases hs

theorem not_usesPort (port : ℕ) : ¬T.UsesPort 3 0 port := by
  rintro (hcpl | ⟨hin, -⟩)
  · omega
  · rw [h.map, h.tss] at hin
    have hlast : (Descriptor.ofAccess tss (sizeofTss - 1) 0x89).lastByte = sizeofTss - 1 := rfl
    rw [hlast] at hin
    have hsize : 0 < sizeofTss := by decide
    omega

theorem loads_global {sel : ℕ} (hti : sel / 4 % 2 = 0) :
    T.Loads 3 sel ↔ sel / 8 = 3 ∨ sel / 8 = 4 ∨ sel < 4 := by
  constructor
  · rintro (hnull | ⟨d, hd, hread, -, hdpl⟩)
    · exact Or.inr (Or.inr hnull)
    · rcases h.segment_eq hd with ⟨hlo, hhi, rfl⟩ | ⟨-, rfl⟩
      · have hcases : sel / 8 = 1 ∨ sel / 8 = 2 ∨ sel / 8 = 3 ∨ sel / 8 = 4 := by omega
        rcases hcases with hi | hi | hi | hi
        · rw [hi] at hdpl
          rcases hdpl with hconf | ⟨hdpl, -⟩
          · exact absurd hconf (by decide)
          · exact absurd hdpl (by decide)
        · rw [hi] at hdpl
          rcases hdpl with hconf | ⟨hdpl, -⟩
          · exact absurd hconf (by decide)
          · exact absurd hdpl (by decide)
        · exact Or.inl hi
        · exact Or.inr (Or.inl hi)
      · -- the TSS is no memory
        cases hread.1
  · have hrpl : sel % 4 ≤ 3 := Nat.lt_succ_iff.mp (Nat.mod_lt _ (by norm_num))
    rintro (hi | hi | hnull)
    · refine Or.inr ⟨_, h.segment_flat hti (by omega) (by omega), ?_, ?_, ?_⟩
      all_goals rw [hi]
      · decide
      · decide
      · exact Or.inr ⟨by decide, hrpl⟩
    · refine Or.inr ⟨_, h.segment_flat hti (by omega) (by omega), ?_, ?_, ?_⟩
      all_goals rw [hi]
      · decide
      · decide
      · exact Or.inr ⟨by decide, hrpl⟩
    · exact Or.inl hnull

/-- Ring 3 has its own two segments and null selectors. -/
theorem loads_iff {sel : ℕ} :
    T.Loads 3 sel ↔ sel / 4 % 2 = 0 ∧ (sel / 8 = 3 ∨ sel / 8 = 4) ∨ sel < 4 := by
  by_cases hti : sel / 4 % 2 = 0
  · rw [h.loads_global hti]
    tauto
  · -- there is no local table
    constructor
    · rintro (hnull | ⟨d, hd, -⟩)
      · exact Or.inr hnull
      · rw [Tables.segment, if_neg fun hin ↦ hti hin.1] at hd
        cases hd
    · rintro (⟨hti', -⟩ | hnull)
      · exact absurd hti' hti
      · exact Or.inl hnull

end Tables.Installed

/-- Ring 3 after booting, whatever stacks the scheduler sets later: of all instructions `int n` only
`int 0x80` enters the kernel, the others fault; exceptions and device interrupts enter it with
interrupts masked; both use the kernel stack set last.  No port can be used, and no segment but
those for ring 3 can be loaded. -/
theorem ring3_confined (hS : S.InRange) {tss : ℕ} (htss : tss < 2 ^ 32) {es : List ℕ}
    (hes : ∀ e ∈ es, e < 2 ^ 32) :
    (∀ n < 256, (es.foldl tssSetEsp0 (bootTables S tss)).deliver 3 true n =
      if n = 128 then .enter gdtKcodeSel S.isr128 (some (gdtKdataSel, es.getLastD 0)) false
      else .fault 13 (8 * n + 2)) ∧
    (∀ n < 48, ∀ cpl, (es.foldl tssSetEsp0 (bootTables S tss)).deliver cpl false n =
      .enter gdtKcodeSel (S.isrStubTable n)
        (if cpl = 0 then none else some (gdtKdataSel, es.getLastD 0)) true) ∧
    (∀ port, ¬(es.foldl tssSetEsp0 (bootTables S tss)).UsesPort 3 0 port) ∧
    ∀ sel, (es.foldl tssSetEsp0 (bootTables S tss)).Loads 3 sel ↔
      sel / 4 % 2 = 0 ∧ (sel / 8 = 3 ∨ sel / 8 = 4) ∨ sel < 4 := by
  have h := (bootTables_installed hS htss).foldl_tssSetEsp0 hes
  exact ⟨fun n hn ↦ h.deliver_software hn, fun n hn cpl ↦ h.deliver_external hn cpl,
    h.not_usesPort, fun sel ↦ h.loads_iff⟩

/-- With stubs 16 bytes apart and two switches. -/
theorem ring3_confined_stubs : ∃ S : Stubs, S.InRange ∧
    ([0x14000, 0x18000].foldl tssSetEsp0 (bootTables S 0x9000)).deliver 3 true 128 =
      .enter gdtKcodeSel 0x2800 (some (gdtKdataSel, 0x18000)) false := by
  have hS : Stubs.InRange ⟨fun n ↦ 0x2000 + 16 * n % 4096, 0x2800⟩ := by
    refine ⟨fun n ↦ ?_, by norm_num⟩
    have hn : 16 * n % 4096 < 4096 := Nat.mod_lt _ (by norm_num)
    simp only
    omega
  exact ⟨_, hS, (ring3_confined hS (by norm_num) (by decide)).1 128 (by norm_num)⟩

end MyOS.Interrupts
