import MyOS.Drivers.Screen
import MyOS.Lib.Buffer
import MyOS.Lib.Numeral

/-!
# Printed numbers

`kprint_hex` and `kprint_dec` fill a local array with digits from its end and print what stands
from the first digit on.  Accesses to the arrays are checked, and so is the end of a printed
string: a run that returns has made none outside them.  The arrays are not initialised, so their
contents before the call are a parameter.

The console is the screen together with the characters handed to the serial line, on which
`kputchar` mirrors everything.  Both functions print numerals, `kprint_hex` behind `0x`.
-/

namespace MyOS

/-- The screen, and what has been handed to the serial line so far. -/
structure Console where
  screen : Screen
  serial : List UInt8

namespace Console

open Screen

/-! ## The code -/

def kputchar (k : Console) (c : UInt8) : Outcome Console := do
  let screen ← k.screen.kputchar c
  return { screen := screen, serial := k.serial ++ [c] }

/-- The string is what the memory holds from the pointer on, to the end of the array. -/
def kprint : List UInt8 → Console → Outcome Console
  | [], _ => .halt "string without an end"
  | c :: str, k => if c = 0 then .done k else k.kputchar c >>= kprint str

/-- The array `hex` of `kprint_hex`. -/
def hexDigits : Vector UInt8 17 :=
  #v[0x30, 0x31, 0x32, 0x33, 0x34, 0x35, 0x36, 0x37, 0x38, 0x39,
    0x41, 0x42, 0x43, 0x44, 0x45, 0x46, 0]

/-- The round of the first loop of `kprint_hex` in which `i` is `7 - j`. -/
def kprintHexRound (j : ℕ) (s : Vector UInt8 9 × ℕ) : Outcome (Vector UInt8 9 × ℕ) := do
  let c ← Buffer.load hexDigits (s.2 &&& 0xF : ℕ)
  let buf ← Buffer.store s.1 (7 - j) c
  return (buf, s.2 >>> 4)

/-- The second loop of `kprint_hex`. -/
def kprintHexStart : ℕ → Vector UInt8 9 → ℤ → Outcome ℤ
  | 0, _, _ => .spin
  | fuel + 1, buf, start =>
      if start < 7 then do
        let c ← Buffer.load buf start
        if c = 0x30 then kprintHexStart fuel buf (start + 1) else .done start
      else .done start

def kprintHex (k : Console) (buf : Vector UInt8 9) (n : ℕ) : Outcome Console := do
  let buf ← Buffer.store buf 8 0
  let filled ← Outcome.forLoop kprintHexRound 8 (buf, n)
  let start ← kprintHexStart 8 filled.1 0
  let k ← k.kprint [0x30, 0x78, 0]
  k.kprint (Buffer.pointer filled.1 start)

/-- The loop of `kprint_dec`. -/
def kprintDecLoop : ℕ → ℕ → ℤ → Vector UInt8 11 → Outcome (Vector UInt8 11 × ℤ)
  | 0, _, _, _ => .spin
  | fuel + 1, n, i, buf =>
      if 0 < n then do
        let i := i - 1
        let buf ← Buffer.store buf i (UInt8.ofNat (0x30 + n % 10))
        kprintDecLoop fuel (n / 10) i buf
      else .done (buf, i)

def kprintDec (k : Console) (buf : Vector UInt8 11) (n : ℕ) : Outcome Console :=
  if n = 0 then k.kputchar 0x30
  else do
    let buf ← Buffer.store buf 10 0
    let filled ← kprintDecLoop (n + 1) n 10 buf
    k.kprint (Buffer.pointer filled.1 filled.2)

/-! ## Texts -/

/-- The characters of `text`, one after the other. -/
def puts : List UInt8 → Console → Outcome Console
  | [], k => .done k
  | c :: text, k => k.kputchar c >>= puts text

/-- Between `k` and `k'`, `text` has been printed. -/
structure Prints (text : List UInt8) (k k' : Console) : Prop where
  serial : k'.serial = k.serial ++ text
  screen : print (text.map fun c ↦ ⟨c, vgaLightGrey, vgaBlack⟩) k.screen = .done k'.screen

variable {k : Console} {rest : List UInt8}

theorem puts_singleton (k : Console) (c : UInt8) : k.puts [c] = k.kputchar c := by
  rw [puts]
  cases k.kputchar c with
  | done k => rfl
  | halt msg => rfl
  | spin => rfl

theorem puts_append (text rest : List UInt8) (k : Console) :
    k.puts (text ++ rest) = k.puts text >>= puts rest := by
  induction text generalizing k with
  | nil => rfl
  | cons c text ih =>
      rw [List.cons_append, puts, puts, Outcome.bind_assoc]
      congr 1
      funext k
      exact ih k

theorem kprint_eq (text rest : List UInt8) (h : 0 ∉ text) (k : Console) :
    k.kprint (text ++ 0 :: rest) = k.puts text := by
  induction text generalizing k with
  | nil => exact if_pos rfl
  | cons c text ih =>
      rw [List.mem_cons, not_or] at h
      rw [List.cons_append, kprint, if_neg (Ne.symm h.1), puts]
      congr 1
      funext k
      exact ih h.2 k

theorem puts_prints (h : k.screen.OnScreen) (text : List UInt8) :
    ∃ k', k.puts text = .done k' ∧ Prints text k k' := by
  induction text generalizing k with
  | nil => exact ⟨k, rfl, (List.append_nil _).symm, rfl⟩
  | cons c text ih =>
      obtain ⟨s, hput, hon, -⟩ := kputcharColor_place h c vgaLightGrey vgaBlack
      obtain ⟨k', hputs, hserial, hscreen⟩ := ih (k := ⟨s, k.serial ++ [c]⟩) hon
      have hchar : k.kputchar c = .done ⟨s, k.serial ++ [c]⟩ := by
        rw [kputchar, Screen.kputchar, hput]
        rfl
      refine ⟨k', ?_, ?_, ?_⟩
      · rw [puts, hchar, Outcome.done_bind, hputs]
      · rw [hserial, List.append_assoc]
        rfl
      · rw [List.map_cons, print, hput]
        exact hscreen

/-- The characters of a numeral make a string. -/
theorem zero_notMem_chars {b : ℕ} {char : ℕ → UInt8} (hb : 1 < b) (hchar : ∀ d < b, char d ≠ 0)
    (n : ℕ) : 0 ∉ (Numeral.digits b n).map char := by
  rw [List.mem_map]
  rintro ⟨d, hd, hzero⟩
  exact hchar d (Numeral.lt_of_mem_digits hb d hd) hzero

/-! ## Hexadecimal numbers -/

def hexChar (d : ℕ) : UInt8 := hexDigits.toList.getD d 0

def hexText (n : ℕ) : List UInt8 := 0x30 :: 0x78 :: (Numeral.digits 16 n).map hexChar

theorem load_hexDigits : ∀ d : ℕ, d < 16 → Buffer.load hexDigits d = .done (hexChar d) := by decide

theorem hexChar_ne_nul : ∀ d < 16, hexChar d ≠ 0 := by decide

theorem hexChar_eq_zero : ∀ d < 16, hexChar d = 0x30 → d = 0 := by decide

/-- The first loop of `kprint_hex` after `j` rounds: the low digits stand at the array's end. -/
structure HexFilled (n j : ℕ) (s : Vector UInt8 9 × ℕ) : Prop where
  left : s.2 = n / 16 ^ j
  text : Buffer.pointer s.1 (8 - j : ℕ) = (Numeral.low 16 j n).map hexChar ++ [0]

theorem HexFilled.round {n j : ℕ} {s : Vector UInt8 9 × ℕ} (h : HexFilled n j s) (hj : j < 8) :
    ∃ s', kprintHexRound j s = .done s' ∧ HexFilled n (j + 1) s' := by
  have hdigit : s.2 &&& 0xF = n / 16 ^ j % 16 := by
    rw [h.left]
    exact Nat.and_two_pow_sub_one_eq_mod _ 4
  have hlt : n / 16 ^ j % 16 < 16 := Nat.mod_lt _ (by norm_num)
  have hindex : (7 - j : ℤ) = (7 - j : ℕ) := by omega
  obtain ⟨buf, hstore, hbuf⟩ := Buffer.store_eq (i := 7 - j) s.1 (hexChar (n / 16 ^ j % 16))
    (by omega)
  refine ⟨(buf, s.2 >>> 4), ?_, ?_, ?_⟩
  · rw [kprintHexRound, hdigit, load_hexDigits _ hlt, Outcome.done_bind, hindex, hstore]
    rfl
  · change s.2 >>> 4 = n / 16 ^ (j + 1)
    rw [Nat.shiftRight_eq_div_pow, h.left, Nat.div_div_eq_div_mul, pow_succ 16]
  · rw [Numeral.low_succ, List.map_cons, List.cons_append, ← h.text]
    rw [show 7 - j + 1 = 8 - j by omega] at hbuf
    rw [show 8 - (j + 1) = 7 - j by omega]
    exact hbuf

theorem kprintHexRounds {buf : Vector UInt8 9} (hend : Buffer.pointer buf (8 : ℕ) = [0]) (n : ℕ) :
    ∃ s, Outcome.forLoop kprintHexRound 8 (buf, n) = .done s ∧ HexFilled n 8 s := by
  apply Outcome.forLoop_spec (HexFilled n)
  · exact ⟨(Nat.div_one n).symm, hend⟩
  · intro j hj s hs
    exact hs.round hj

/-- The second loop of `kprint_hex` passes over the zeros before the last digit. -/
theorem kprintHexStart_spec {buf : Vector UInt8 9} {m : ℕ} (fuel start : ℕ)
    (hbuf : Buffer.pointer buf start = List.replicate m 0x30 ++ rest) (hfuel : m < fuel)
    (hend : start + m ≤ 7)
    (hstop : start + m = 7 ∨ ∃ c rest', rest = c :: rest' ∧ c ≠ 0x30) :
    kprintHexStart fuel buf start = .done (start + m : ℕ) ∧
      Buffer.pointer buf (start + m : ℕ) = rest := by
  induction m generalizing fuel start with
  | zero =>
      obtain ⟨fuel, rfl⟩ := Nat.exists_eq_succ_of_ne_zero hfuel.ne'
      refine ⟨?_, hbuf⟩
      rw [kprintHexStart]
      rcases hstop with hseven | ⟨c, rest', rfl, hc⟩
      · rw [if_neg (by omega)]
        rfl
      · rw [Buffer.load_eq hbuf, Outcome.done_bind, if_neg hc, ite_self]
        rfl
  | succ m ih =>
      obtain ⟨fuel, rfl⟩ := Nat.exists_eq_succ_of_ne_zero (Nat.ne_zero_of_lt hfuel)
      rw [List.replicate_succ, List.cons_append] at hbuf
      rw [kprintHexStart, if_pos (by omega), Buffer.load_eq hbuf, Outcome.done_bind, if_pos rfl]
      rw [show start + (m + 1) = start + 1 + m by omega] at hend hstop ⊢
      exact ih fuel (start + 1) (Buffer.pointer_succ hbuf) (Nat.lt_of_succ_lt_succ hfuel) hend hstop

/-- The digits of `kprint_hex` begin with a zero only if there is no other digit. -/
theorem hexStart_stops (n : ℕ) (rest : List UInt8) : (Numeral.digits 16 n).length = 1 ∨
    ∃ c rest', (Numeral.digits 16 n).map hexChar ++ rest = c :: rest' ∧ c ≠ 0x30 := by
  cases hds : Numeral.digits 16 n with
  | nil => exact absurd hds (Numeral.digits_ne_nil 16 n)
  | cons d ds =>
      by_cases hd : hexChar d = 0x30
      · have hzero : Numeral.digits 16 n = [0] := by
          apply Numeral.digits_of_head?_map (by norm_num) hexChar_eq_zero
          rw [hds]
          exact congrArg some hd
        rw [← hds, hzero]
        exact Or.inl rfl
      · exact Or.inr ⟨hexChar d, ds.map hexChar ++ rest, rfl, hd⟩

theorem kprintHex_eq {n : ℕ} (hn : n < 2 ^ 32) (buf : Vector UInt8 9) (k : Console) :
    k.kprintHex buf n = k.puts (hexText n) := by
  have hsmall : n < 16 ^ 8 := hn.trans_eq (by norm_num)
  have hlen := Numeral.length_digits_le (by norm_num) (by norm_num) hsmall
  have hpos := List.length_pos_of_ne_nil (Numeral.digits_ne_nil 16 n)
  obtain ⟨buf₁, hstore, hend⟩ := Buffer.store_eq (i := 8) buf 0 (by norm_num)
  rw [Nat.cast_ofNat] at hstore
  rw [Buffer.pointer_natCast buf, List.drop_of_length_le (by simp)] at hend
  obtain ⟨s, hloop, hs⟩ := kprintHexRounds hend n
  have htext := hs.text
  rw [Numeral.low_eq (by norm_num) (by norm_num) hsmall, List.map_append, List.map_replicate,
    List.append_assoc] at htext
  obtain ⟨hstart, hrest⟩ := kprintHexStart_spec 8 0 htext (by omega) (by omega)
    ((hexStart_stops n [0]).imp_left fun hone ↦ by omega)
  rw [Nat.cast_zero] at hstart
  have hmark : k.kprint [0x30, 0x78, 0] = k.puts [0x30, 0x78] :=
    kprint_eq [0x30, 0x78] [] (by decide) k
  have hdigits := zero_notMem_chars (by norm_num) hexChar_ne_nul n
  calc k.kprintHex buf n
      = k.kprint [0x30, 0x78, 0] >>=
          kprint (Buffer.pointer s.1 (0 + (8 - (Numeral.digits 16 n).length) : ℕ)) := by
        rw [kprintHex, hstore, Outcome.done_bind, hloop, Outcome.done_bind, hstart,
          Outcome.done_bind]
    _ = k.puts [0x30, 0x78] >>= puts ((Numeral.digits 16 n).map hexChar) := by
        rw [hmark, hrest]
        congr 1
        funext k
        exact kprint_eq _ [] hdigits k
    _ = k.puts (hexText n) := (puts_append _ _ k).symm

/-! ## Decimal numbers -/

def decChar (d : ℕ) : UInt8 := UInt8.ofNat (0x30 + d)

def decText (n : ℕ) : List UInt8 := (Numeral.digits 10 n).map decChar

theorem decChar_ne_nul : ∀ d < 10, decChar d ≠ 0 := by decide

theorem decChar_eq_zero : ∀ d < 10, decChar d = 0x30 → d = 0 := by decide

/-- The loop of `kprint_dec` writes the digits before what stands in the array from `i` on. -/
theorem kprintDecLoop_spec {fuel n i : ℕ} (buf : Vector UInt8 11) (hfuel : n < fuel)
    (hroom : (Nat.digits 10 n).length ≤ i) (hi : i < 11) :
    ∃ buf', kprintDecLoop fuel n i buf = .done (buf', (i - (Nat.digits 10 n).length : ℕ)) ∧
      Buffer.pointer buf' (i - (Nat.digits 10 n).length : ℕ) =
        (Nat.digits 10 n).reverse.map decChar ++ Buffer.pointer buf i := by
  induction fuel generalizing n i buf with
  | zero => exact absurd hfuel (Nat.not_lt_zero n)
  | succ fuel ih =>
      rw [kprintDecLoop]
      by_cases hn : 0 < n
      · rw [Nat.digits_def' (by norm_num) hn, List.length_cons] at hroom ⊢
        obtain ⟨i, rfl⟩ : ∃ j, i = j + 1 := ⟨i - 1, by omega⟩
        obtain ⟨buf₁, hstore, hbuf₁⟩ := Buffer.store_eq (i := i) buf (decChar (n % 10)) (by omega)
        obtain ⟨buf', hloop, hbuf'⟩ := ih (n := n / 10) (i := i) buf₁ (by omega) (by omega)
          (by omega)
        have hindex : ((i + 1 : ℕ) : ℤ) - 1 = i := by omega
        refine ⟨buf', ?_, ?_⟩
        · rw [if_pos hn]
          dsimp only
          rw [hindex]
          change (Buffer.store buf i (decChar (n % 10)) >>= _) = _
          rw [hstore, Outcome.done_bind, hloop, Nat.add_sub_add_right]
        · rw [Nat.add_sub_add_right, hbuf', hbuf₁, List.reverse_cons, List.map_append,
            List.append_assoc]
          rfl
      · obtain rfl : n = 0 := by omega
        exact ⟨buf, rfl, rfl⟩

theorem kprintDec_eq {n : ℕ} (hn : n < 2 ^ 32) (buf : Vector UInt8 11) (k : Console) :
    k.kprintDec buf n = k.puts (decText n) := by
  rw [kprintDec]
  by_cases hzero : n = 0
  · subst hzero
    rw [if_pos rfl, decText, Numeral.digits, if_pos rfl]
    exact (puts_singleton k 0x30).symm
  · have hroom : (Nat.digits 10 n).length ≤ 10 :=
      (Nat.digits_length_le_iff (by norm_num) n).mpr (hn.trans (by norm_num))
    obtain ⟨buf₁, hstore, hend⟩ := Buffer.store_eq (i := 10) buf 0 (by norm_num)
    obtain ⟨buf', hloop, hbuf'⟩ := kprintDecLoop_spec buf₁ (Nat.lt_add_one n) hroom
      (by norm_num)
    rw [Nat.cast_ofNat] at hstore hloop
    rw [hend, ← Numeral.digits_of_ne_zero hzero] at hbuf'
    rw [if_neg hzero]
    calc (Buffer.store buf 10 0 >>= fun buf ↦ kprintDecLoop (n + 1) n 10 buf >>= fun filled ↦
          k.kprint (Buffer.pointer filled.1 filled.2))
        = k.kprint (Buffer.pointer buf' (10 - (Nat.digits 10 n).length : ℕ)) := by
          rw [hstore, Outcome.done_bind, hloop, Outcome.done_bind]
      _ = k.puts (decText n) := by
          rw [hbuf']
          exact kprint_eq _ _ (zero_notMem_chars (by norm_num) decChar_ne_nul n) k

end Console

end MyOS
