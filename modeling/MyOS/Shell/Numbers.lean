import MyOS.Drivers.Print
import MyOS.Lib.Word
import MyOS.Shell.Model

/-!
# Numbers in commands

`parse_uint` reads a number in the words of a command: hexadecimal digits behind `0x`, decimal
digits otherwise.  In the hexadecimal branch the number is shifted before the next character is
looked at, and a character that is no digit leaves it shifted.

A number that `kprint_hex` or `kprint_dec` has printed is read back as itself: what they print are
numerals, and nothing follows the digits.
-/

namespace MyOS.Shell

def hexDigit (c : UInt8) : Option ℕ :=
  if 0x30 ≤ c ∧ c ≤ 0x39 then some (c.toNat - 0x30)
  else if 0x61 ≤ c ∧ c ≤ 0x66 then some (c.toNat - 0x61 + 10)
  else if 0x41 ≤ c ∧ c ≤ 0x46 then some (c.toNat - 0x41 + 10)
  else none

def decDigit (c : UInt8) : Option ℕ :=
  if 0x30 ≤ c ∧ c ≤ 0x39 then some (c.toNat - 0x30) else none

/-- The first loop of `parse_uint`; a string is the list of its characters before the NUL. -/
def hexLoop : List UInt8 → ℕ → ℕ
  | [], v => v
  | c :: s, v =>
      let v := v <<< 4 % 2 ^ 32
      match hexDigit c with
      | some d => hexLoop s (v ||| d)
      | none => v

def decLoop : List UInt8 → ℕ → ℕ
  | [], v => v
  | c :: s, v =>
      match decDigit c with
      | some d => decLoop s (Word.add (Word.mul v 10) d)
      | none => v

/-- The string begins with `0x` or `0X`. -/
def HexPrefixed (s : List UInt8) : Prop :=
  s.getD 0 0 = 0x30 ∧ (s.getD 1 0 = 0x78 ∨ s.getD 1 0 = 0x58)

instance (s : List UInt8) : Decidable (HexPrefixed s) := inferInstanceAs (Decidable (_ ∧ _))

def parseUint (s : List UInt8) : ℕ :=
  if HexPrefixed s then hexLoop (s.drop 2) 0 else decLoop s 0

/-! ## The longest run of digits -/

section Runs

variable (base : ℕ) (digit : UInt8 → Option ℕ)

def digitRun (s : List UInt8) : List UInt8 := s.takeWhile fun c ↦ (digit c).isSome

/-- What is left behind the digits. -/
def afterRun (s : List UInt8) : List UInt8 := s.dropWhile fun c ↦ (digit c).isSome

/-- The number that the leading digits of `s` make when `v` stands before them. -/
def runValue (v : ℕ) (s : List UInt8) : ℕ :=
  (digitRun digit s).foldl (fun v c ↦ v * base + (digit c).getD 0) v

variable {base digit} {c : UInt8} {d v : ℕ} {s : List UInt8}

@[simp] theorem runValue_nil : runValue base digit v [] = v := rfl

theorem runValue_cons (hc : digit c = some d) :
    runValue base digit v (c :: s) = runValue base digit (v * base + d) s := by
  have hrun : digitRun digit (c :: s) = c :: digitRun digit s := by
    rw [digitRun, List.takeWhile_cons, hc]
    rfl
  rw [runValue, hrun, List.foldl_cons, hc]
  rfl

theorem runValue_stop (hc : digit c = none) : runValue base digit v (c :: s) = v := by
  rw [runValue, digitRun, List.takeWhile_cons, hc]
  rfl

theorem afterRun_cons (hc : digit c = some d) : afterRun digit (c :: s) = afterRun digit s := by
  rw [afterRun, List.dropWhile_cons, hc]
  rfl

theorem afterRun_stop (hc : digit c = none) : afterRun digit (c :: s) = c :: s := by
  rw [afterRun, List.dropWhile_cons, hc]
  rfl

/-- Modulo a number, only the remainder of what stands before the digits matters. -/
theorem runValue_mod (m v : ℕ) (s : List UInt8) :
    runValue base digit (v % m) s % m = runValue base digit v s % m := by
  rw [runValue, runValue]
  induction digitRun digit s generalizing v with
  | nil => exact Nat.mod_mod v m
  | cons c s ih =>
      have hstep : (v % m * base + (digit c).getD 0) % m = (v * base + (digit c).getD 0) % m := by
        rw [Nat.add_mod, Nat.mod_mul_mod, ← Nat.add_mod]
      rw [List.foldl_cons, List.foldl_cons, ← ih, hstep, ih]

/-- Characters that are all digits are one run. -/
theorem runValue_map {char : ℕ → UInt8} {ds : List ℕ} (h : ∀ d ∈ ds, digit (char d) = some d)
    (v : ℕ) : runValue base digit v (ds.map char) = ds.foldl (fun v d ↦ v * base + d) v := by
  induction ds generalizing v with
  | nil => rfl
  | cons d ds ih =>
      rw [List.forall_mem_cons] at h
      rw [List.map_cons, runValue_cons h.1, ih h.2, List.foldl_cons]

theorem afterRun_map {char : ℕ → UInt8} {ds : List ℕ} (h : ∀ d ∈ ds, digit (char d) = some d) :
    afterRun digit (ds.map char) = [] := by
  induction ds with
  | nil => rfl
  | cons d ds ih =>
      rw [List.forall_mem_cons] at h
      rw [List.map_cons, afterRun_cons h.1, ih h.2]

/-- A numeral is read as its number. -/
theorem runValue_digits {char : ℕ → UInt8} (hbase : 1 < base)
    (hchar : ∀ d < base, digit (char d) = some d) (n : ℕ) :
    runValue base digit 0 ((Numeral.digits base n).map char) = n := by
  rw [runValue_map fun d hd ↦ hchar d (Numeral.lt_of_mem_digits hbase d hd)]
  exact Numeral.value_digits base n

end Runs

variable {s : List UInt8} {v : ℕ}

theorem hexDigit_lt {c : UInt8} {d : ℕ} (hc : hexDigit c = some d) : d < 16 := by
  rw [hexDigit] at hc
  simp only [UInt8.le_iff_toNat_le] at hc
  split_ifs at hc with h₁ h₂ h₃
  · cases hc
    have := h₁.2
    simp only [UInt8.reduceToNat] at this
    omega
  · cases hc
    have := h₂.2
    simp only [UInt8.reduceToNat] at this
    omega
  · cases hc
    have := h₃.2
    simp only [UInt8.reduceToNat] at this
    omega

theorem shift_or_digit {d : ℕ} (hd : d < 16) :
    v <<< 4 % 2 ^ 32 ||| d = (v * 16 + d) % 2 ^ 32 := by
  rw [Nat.shiftLeft_eq]
  have hmul : 2 ^ 4 ∣ v * 2 ^ 4 % 2 ^ 32 := by omega
  rw [Word.or_eq_add hmul (by omega)]
  omega

/-- The hexadecimal loop: a number that is not the end of the string is shifted once more. -/
theorem hexLoop_eq (hv : v < 2 ^ 32) (s : List UInt8) :
    hexLoop s v = if afterRun hexDigit s = [] then runValue 16 hexDigit v s % 2 ^ 32
      else runValue 16 hexDigit v s % 2 ^ 32 * 16 % 2 ^ 32 := by
  induction s generalizing v with
  | nil =>
      rw [hexLoop, afterRun, List.dropWhile_nil, if_pos rfl, runValue_nil, Nat.mod_eq_of_lt hv]
  | cons c s ih =>
      rw [hexLoop]
      cases hc : hexDigit c with
      | some d =>
          dsimp only
          rw [shift_or_digit (hexDigit_lt hc), ih (Nat.mod_lt _ (by norm_num)), afterRun_cons hc,
            runValue_cons hc, runValue_mod]
      | none =>
          rw [afterRun_stop hc, if_neg (List.cons_ne_nil c s), runValue_stop hc,
            Nat.shiftLeft_eq, Nat.mod_eq_of_lt hv]

theorem decLoop_eq (hv : v < 2 ^ 32) (s : List UInt8) :
    decLoop s v = runValue 10 decDigit v s % 2 ^ 32 := by
  induction s generalizing v with
  | nil => exact (Nat.mod_eq_of_lt hv).symm
  | cons c s ih =>
      rw [decLoop]
      cases hc : decDigit c with
      | some d =>
          dsimp only
          rw [ih (Word.add_lt _ _), Word.add, Word.mul, Nat.mod_add_mod, runValue_mod,
            runValue_cons hc]
      | none =>
          rw [runValue_stop hc, Nat.mod_eq_of_lt hv]

/-- `parse_uint` reads the longest run of digits, unless hexadecimal digits are followed by
something else and their number is not 0. -/
theorem parseUint_longest_iff (s : List UInt8) :
    parseUint s = (if HexPrefixed s then runValue 16 hexDigit 0 (s.drop 2) % 2 ^ 32
        else runValue 10 decDigit 0 s % 2 ^ 32) ↔
      ¬(HexPrefixed s ∧ afterRun hexDigit (s.drop 2) ≠ [] ∧
        runValue 16 hexDigit 0 (s.drop 2) % 2 ^ 32 ≠ 0) := by
  rw [parseUint]
  by_cases hhex : HexPrefixed s
  · rw [if_pos hhex, if_pos hhex, hexLoop_eq (by norm_num)]
    have hlt := Nat.mod_lt (runValue 16 hexDigit 0 (s.drop 2)) (show 0 < 2 ^ 32 by norm_num)
    generalize runValue 16 hexDigit 0 (s.drop 2) % 2 ^ 32 = n at hlt
    by_cases hafter : afterRun hexDigit (s.drop 2) = []
    · rw [if_pos hafter]
      exact iff_of_true rfl fun h ↦ h.2.1 hafter
    · rw [if_neg hafter]
      constructor
      · rintro hsame ⟨-, -, hne⟩
        omega
      · intro hnot
        obtain rfl : n = 0 := by
          by_contra hne
          exact hnot ⟨hhex, hafter, hne⟩
        rfl
  · rw [if_neg hhex, if_neg hhex, decLoop_eq (by norm_num)]
    exact iff_of_true rfl fun h ↦ hhex h.1

/-- The string `0x1G`: the digit is 1, and the result is 16. -/
theorem parseUint_shifts_once_more : parseUint [0x30, 0x78, 0x31, 0x47] = 16 ∧
    HexPrefixed [0x30, 0x78, 0x31, 0x47] ∧ runValue 16 hexDigit 0 [0x31, 0x47] = 1 := by
  decide

/-! ## Printed numbers -/

open Console

variable {n : ℕ}

theorem hexDigit_hexChar : ∀ d < 16, hexDigit (hexChar d) = some d := by decide

theorem decDigit_decChar : ∀ d < 10, decDigit (decChar d) = some d := by decide

theorem parseUint_hexText (hn : n < 2 ^ 32) : parseUint (hexText n) = n := by
  have hafter : afterRun hexDigit ((Numeral.digits 16 n).map hexChar) = [] := by
    apply afterRun_map
    intro d hd
    exact hexDigit_hexChar d (Numeral.lt_of_mem_digits (by norm_num) d hd)
  have hhex : HexPrefixed (hexText n) := ⟨rfl, Or.inl rfl⟩
  rw [parseUint, if_pos hhex, hexText, List.drop_succ_cons, List.drop_succ_cons, List.drop_zero,
    hexLoop_eq (by norm_num), if_pos hafter, runValue_digits (by norm_num) hexDigit_hexChar,
    Nat.mod_eq_of_lt hn]

/-- The second character of a decimal number is no `x`. -/
theorem not_hexPrefixed_decText (n : ℕ) : ¬HexPrefixed (decText n) := by
  rintro ⟨-, hx⟩
  rcases lt_or_ge 1 (decText n).length with hlen | hlen
  · have hmem : (decText n).getD 1 0 ∈ decText n := by
      rw [List.getD_eq_getElem _ 0 hlen]
      exact List.getElem_mem hlen
    obtain ⟨d, hd, hchar⟩ := List.mem_map.mp hmem
    have hread := decDigit_decChar d (Numeral.lt_of_mem_digits (by norm_num) d hd)
    rw [hchar] at hread
    rcases hx with hx | hx
    · rw [hx] at hread
      cases hread
    · rw [hx] at hread
      cases hread
  · rw [List.getD_eq_default _ 0 hlen] at hx
    exact absurd hx (by decide)

theorem parseUint_decText (hn : n < 2 ^ 32) : parseUint (decText n) = n := by
  rw [parseUint, if_neg (not_hexPrefixed_decText n), decLoop_eq (by norm_num), decText,
    runValue_digits (by norm_num) decDigit_decChar, Nat.mod_eq_of_lt hn]

/-- The characters of a numeral as a text of the shell. -/
theorem text_digits {b : ℕ} {char : ℕ → UInt8} (f : ℕ → Char) (hb : 1 < b)
    (hchar : ∀ d < b, Char.ofNat (char d).toNat = f d) (n : ℕ) :
    text ((Numeral.digits b n).map char) = String.ofList ((Numeral.digits b n).map f) := by
  rw [text, List.map_map]
  congr 1
  apply List.map_congr_left
  intro d hd
  exact hchar d (Numeral.lt_of_mem_digits hb d hd)

/-- The numbers in the answers of the shell are those that `kprint_dec` prints. -/
theorem text_decText (n : ℕ) : text (decText n) = toString n := by
  rw [decText, text_digits Nat.digitChar (by norm_num) (by decide),
    Nat.toString_eq_ofList_toDigits, Numeral.toDigits_eq (by norm_num)]

theorem text_hexText (n : ℕ) : text (hexText n) = kprintHex n := by
  have hdigits := text_digits (Char.toUpper ∘ Nat.digitChar) (by norm_num)
    (show ∀ d < 16, Char.ofNat (hexChar d).toNat = _ by decide) n
  have hmark : text (hexText n) = String.ofList (['0', 'x'] ++
      ((Numeral.digits 16 n).map hexChar).map fun c ↦ Char.ofNat c.toNat) := rfl
  rw [hmark, String.ofList_append, ← text, hdigits, kprintHex,
    Numeral.toDigits_eq (by norm_num), List.map_map]

/-- A number that is printed on any console is read back as itself.  The digits of both texts
begin with a zero only if there is no other digit.  Whatever the local arrays hold at first, the
calls return, so no access falls outside the arrays. -/
theorem printed_numbers_read_back (hn : n < 2 ^ 32) : ∃ hex dec : List UInt8,
    (∀ (buf : Vector UInt8 9) (k : Console), k.screen.OnScreen →
      ∃ k', k.kprintHex buf n = .done k' ∧ Prints hex k k') ∧
    (∀ (buf : Vector UInt8 11) (k : Console), k.screen.OnScreen →
      ∃ k', k.kprintDec buf n = .done k' ∧ Prints dec k k') ∧
    parseUint hex = n ∧ parseUint dec = n ∧
    (∃ digits, hex = 0x30 :: 0x78 :: digits ∧ digits ≠ [] ∧
      (digits.head? = some 0x30 → digits = [0x30])) ∧
    dec ≠ [] ∧ (dec.head? = some 0x30 → dec = [0x30]) := by
  refine ⟨hexText n, decText n, ?_, ?_, parseUint_hexText hn, parseUint_decText hn,
    ⟨(Numeral.digits 16 n).map hexChar, rfl, ?_, ?_⟩, ?_, ?_⟩
  · intro buf k hon
    rw [kprintHex_eq hn]
    exact puts_prints hon (hexText n)
  · intro buf k hon
    rw [kprintDec_eq hn]
    exact puts_prints hon (decText n)
  · exact fun hnil ↦ Numeral.digits_ne_nil 16 n (List.map_eq_nil_iff.mp hnil)
  · intro hzero
    rw [Numeral.digits_of_head?_map (by norm_num) hexChar_eq_zero hzero]
    rfl
  · exact fun hnil ↦ Numeral.digits_ne_nil 10 n (List.map_eq_nil_iff.mp hnil)
  · intro hzero
    rw [decText, Numeral.digits_of_head?_map (by norm_num) decChar_eq_zero hzero]
    rfl

/-- The greatest word, printed from the last cell of the screen on: the screen scrolls on the way,
and both texts are read back. -/
theorem printed_numbers_read_back_max : ∃ k₁ k₂ : Console,
    (Console.mk ⟨fun _ ↦ 0x20, 79, 24⟩ []).kprintHex (Vector.replicate 9 0x39) 4294967295
      = .done k₁ ∧ parseUint k₁.serial = 4294967295 ∧
    (Console.mk ⟨fun _ ↦ 0x20, 79, 24⟩ []).kprintDec (Vector.replicate 11 0x39) 4294967295
      = .done k₂ ∧ parseUint k₂.serial = 4294967295 := by
  obtain ⟨hex, dec, hhex, hdec, hreadHex, hreadDec, -⟩ :=
    printed_numbers_read_back (n := 4294967295) (by norm_num)
  obtain ⟨k₁, hrun₁, hprints₁⟩ := hhex (Vector.replicate 9 0x39)
    ⟨⟨fun _ ↦ 0x20, 79, 24⟩, []⟩ (by decide)
  obtain ⟨k₂, hrun₂, hprints₂⟩ := hdec (Vector.replicate 11 0x39)
    ⟨⟨fun _ ↦ 0x20, 79, 24⟩, []⟩ (by decide)
  refine ⟨k₁, k₂, hrun₁, ?_, hrun₂, ?_⟩
  · rw [hprints₁.serial]
    exact hreadHex
  · rw [hprints₂.serial]
    exact hreadDec

end MyOS.Shell
