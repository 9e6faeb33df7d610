import MyOS.Drivers.Keyboard
import MyOS.Drivers.Screen

/-!
# Reading a line

`readline` echoes what is typed and keeps the line.  It honours a backspace only while the cursor
is behind the place where the line began, which it remembers as a place of the screen.  When an
echoed character scrolls the screen, that place is one row too low.

On the level of the cursor's place, `Editor`, tabs and ordinary characters move forward by one to
eight cells and scrolling leads to the first cell of the last row, number 1920.  A line that
holds at most `max - 1` characters and begins before cell `1922 - max` still ends behind the
remembered place after scrolling.  A line that begins later can be made to scroll when it is full:
tabs followed by backspaces move an empty line forward by less than eight cells at a time.
-/

namespace MyOS.Shell

open Screen

/-! ## The code -/

/-- The loop of `readline`, over the characters `keyboard_getchar` returns. -/
def readlineLoop (max pcol prow : ℕ) : List UInt8 → List UInt8 → Screen →
    Outcome (List UInt8 × Screen)
  | [], _, _ => .spin
  | c :: keys, buf, s =>
      if c = newline then do
        let s ← s.kputchar newline
        return (buf, s)
      else if c = backspace then
        if 0 < buf.length then
          let (cc, cr) := s.kgetCursor
          if cr > prow ∨ (cr = prow ∧ cc > pcol) then do
            let s ← s.kputchar backspace
            readlineLoop max pcol prow keys buf.dropLast s
          else readlineLoop max pcol prow keys buf s
        else readlineLoop max pcol prow keys buf s
      else if buf.length < max - 1 then do
        let s ← s.kputchar c
        readlineLoop max pcol prow keys (buf ++ [c]) s
      else readlineLoop max pcol prow keys buf s

def readline (max : ℕ) (keys : List UInt8) (s : Screen) : Outcome (List UInt8 × Screen) :=
  let (pcol, prow) := s.kgetCursor
  readlineLoop max pcol prow keys [] s

/-- A character some key gives, other than newline. -/
def Stroke (c : UInt8) : Prop := c ≠ 0 ∧ (c ∈ scNormal ∨ c ∈ scShifted) ∧ c ≠ newline

instance (c : UInt8) : Decidable (Stroke c) := inferInstanceAs (Decidable (_ ∧ _))

/-- What a key does to the line. -/
def editLine (max : ℕ) (line : List UInt8) (c : UInt8) : List UInt8 :=
  if c = backspace then line.dropLast else if line.length < max - 1 then line ++ [c] else line

/-! ## The editor on the cursor's place -/

structure Editor where
  place : ℕ
  line : List UInt8

namespace Editor

variable {start max : ℕ}

/-- One round of the loop, for a line that began at `start`. -/
def key (start max : ℕ) (e : Editor) (c : UInt8) : Editor :=
  if c = backspace then
    if 0 < e.line.length ∧ start < e.place then ⟨e.place - 1, e.line.dropLast⟩ else e
  else if e.line.length < max - 1 then ⟨settle (advance c e.place), e.line ++ [c]⟩
  else e

theorem key_back {e : Editor} (hline : 0 < e.line.length) (hplace : start < e.place) :
    e.key start max backspace = ⟨e.place - 1, e.line.dropLast⟩ := by
  rw [key, if_pos rfl, if_pos ⟨hline, hplace⟩]

theorem key_type {e : Editor} {c : UInt8} (hc : c ≠ backspace) (hroom : e.line.length < max - 1) :
    e.key start max c = ⟨settle (advance c e.place), e.line ++ [c]⟩ := by
  rw [key, if_neg hc, if_pos hroom]

theorem key_full {e : Editor} {c : UInt8} (hc : c ≠ backspace)
    (hfull : ¬e.line.length < max - 1) : e.key start max c = e := by
  rw [key, if_neg hc, if_neg hfull]

end Editor

theorem behind_iff (prow : ℕ) {pcol : ℕ} {s : Screen} (hp : pcol < cols) (hs : s.OnScreen) :
    (s.curRow > prow ∨ (s.curRow = prow ∧ s.curCol > pcol)) ↔ prow * cols + pcol < s.place := by
  have hcol := hs.1
  simp only [place, cols] at *
  omega

theorem settle_of_lt {n : ℕ} (h : n < rows * cols) : settle n = n := if_pos h

/-- The loop reads the line the editor makes of the keys. -/
theorem readlineLoop_eq {max pcol prow : ℕ} {keys buf : List UInt8} {s : Screen}
    (hp : pcol < cols) (hs : s.OnScreen) (hkeys : newline ∉ keys) :
    ∃ s', readlineLoop max pcol prow (keys ++ [newline]) buf s
      = .done ((keys.foldl (Editor.key (prow * cols + pcol) max) ⟨s.place, buf⟩).line, s') := by
  induction keys generalizing buf s with
  | nil =>
      obtain ⟨s', hput, -, -⟩ := kputcharColor_place hs newline vgaLightGrey vgaBlack
      refine ⟨s', ?_⟩
      rw [List.nil_append, readlineLoop, if_pos rfl, kputchar, hput]
      rfl
  | cons c keys ih =>
      rw [List.mem_cons, not_or] at hkeys
      obtain ⟨hnl, hkeys⟩ := hkeys
      obtain ⟨s₁, hput, hs₁, hplace⟩ := kputcharColor_place hs c vgaLightGrey vgaBlack
      have hbehind := behind_iff prow hp hs
      rw [List.cons_append, readlineLoop, if_neg (Ne.symm hnl), List.foldl_cons, Editor.key]
      by_cases hback : c = backspace
      · rw [if_pos hback, if_pos hback]
        subst hback
        by_cases hline : 0 < buf.length
        · by_cases hcursor : prow * cols + pcol < s.place
          · have hlast : settle (advance backspace s.place) = s.place - 1 :=
              settle_of_lt ((Nat.sub_le _ _).trans_lt hs.place_lt)
            rw [if_pos hline, if_pos ⟨hline, hcursor⟩]
            dsimp only [kgetCursor]
            rw [if_pos (hbehind.mpr hcursor), kputchar, hput, Outcome.done_bind]
            rw [hlast] at hplace
            rw [← hplace]
            exact ih hs₁ hkeys
          · rw [if_pos hline, if_neg fun h ↦ hcursor h.2]
            dsimp only [kgetCursor]
            rw [if_neg (mt hbehind.mp hcursor)]
            exact ih hs hkeys
        · rw [if_neg hline, if_neg fun h ↦ hline h.1]
          exact ih hs hkeys
      · rw [if_neg hback, if_neg hback]
        by_cases hroom : buf.length < max - 1
        · rw [if_pos hroom, if_pos hroom, kputchar, hput, Outcome.done_bind, ← hplace]
          exact ih hs₁ hkeys
        · rw [if_neg hroom, if_neg hroom]
          exact ih hs hkeys

theorem Stroke.advance_bounds {c : UInt8} (hc : Stroke c) (hback : c ≠ backspace) (n : ℕ) :
    n + 1 ≤ advance c n ∧ advance c n ≤ (n / 8 + 1) * 8 := by
  have hcr : c ≠ carriageReturn := by
    rintro rfl
    revert hc
    decide
  rw [advance, if_neg hc.2.2, if_neg hcr, if_neg hback]
  split_ifs <;> omega

namespace Editor

variable {start max : ℕ}

/-- Every sequence of keys gives the line it should. -/
def Faithful (start max : ℕ) : Prop :=
  ∀ keys : List UInt8, (∀ c ∈ keys, Stroke c) →
    (keys.foldl (key start max) ⟨start, []⟩).line = keys.foldl (editLine max) []

/-! ## Lines that begin early enough -/

/-- Keys that keep an invariant under which every backspace on a line is honoured. -/
theorem foldl_line_eq (I : Editor → Prop)
    (hback : ∀ e, I e → 0 < e.line.length → start < e.place)
    (hstep : ∀ e c, I e → Stroke c → I (e.key start max c))
    {e : Editor} (he : I e) {keys : List UInt8} (hkeys : ∀ c ∈ keys, Stroke c) :
    (keys.foldl (key start max) e).line = keys.foldl (editLine max) e.line := by
  induction keys generalizing e with
  | nil => rfl
  | cons c keys ih =>
      rw [List.forall_mem_cons] at hkeys
      have hline : (e.key start max c).line = editLine max e.line c := by
        rw [key, editLine]
        by_cases hc : c = backspace
        · rw [if_pos hc, if_pos hc]
          by_cases hempty : 0 < e.line.length
          · rw [if_pos ⟨hempty, hback e he hempty⟩]
          · rw [if_neg fun h ↦ hempty h.1, List.length_pos_iff.not_left.mp hempty]
            rfl
        · rw [if_neg hc, if_neg hc]
          split_ifs <;> rfl
      rw [List.foldl_cons, List.foldl_cons, ← hline]
      exact ih (hstep e c he hkeys.1) hkeys.2

/-- An editor without room for a character. -/
theorem faithful_of_le_one (hmax : max ≤ 1) : Faithful start max := by
  intro keys hkeys
  refine foldl_line_eq (fun e ↦ e.line = []) ?_ ?_ rfl hkeys
  · intro e he hline
    rw [he] at hline
    exact absurd hline (lt_irrefl 0)
  · intro e c he _
    by_cases hc : c = backspace
    · rw [key, if_pos hc, if_neg (by simp [he])]
      exact he
    · rw [key_full hc (by omega)]
      exact he

/-- The cursor stays as far behind the remembered place as the line is long, also when the screen
scrolls. -/
theorem faithful_of_early (hearly : start + max ≤ 1921) : Faithful start max := by
  intro keys hkeys
  refine foldl_line_eq (fun e ↦ start + e.line.length ≤ e.place ∧ e.line.length ≤ max - 1) ?_ ?_
    ⟨le_rfl, Nat.zero_le _⟩ hkeys
  · rintro e ⟨hplace, -⟩ hline
    omega
  · rintro e c ⟨hplace, hlen⟩ hc
    by_cases hback : c = backspace
    · rw [key, if_pos hback]
      split_ifs with h
      · simp only [List.length_dropLast]
        omega
      · exact ⟨hplace, hlen⟩
    · by_cases hroom : e.line.length < max - 1
      · have hadv := (hc.advance_bounds hback e.place).1
        have hsettle : start + (e.line.length + 1) ≤ settle (advance c e.place) := by
          rw [settle]
          split_ifs with hend
          · omega
          · simp only [rows, cols] at hend ⊢
            omega
        rw [key_type hback hroom]
        simp only [List.length_append, List.length_singleton]
        omega
      · rw [key_full hback hroom]
        exact ⟨hplace, hlen⟩

/-- With room for one character the cursor does not get past the next tab stop. -/
theorem faithful_of_single (hmax : max = 2) (hstart : start < 1992) : Faithful start max := by
  intro keys hkeys
  refine foldl_line_eq (fun e ↦ start + e.line.length ≤ e.place ∧ e.line.length ≤ 1 ∧
    e.place < (start / 8 + 1) * 8 + e.line.length) ?_ ?_ ⟨le_rfl, Nat.zero_le _, ?_⟩ hkeys
  · rintro e ⟨hplace, -⟩ hline
    omega
  · rintro e c ⟨hplace, hlen, htab⟩ hc
    by_cases hback : c = backspace
    · rw [key, if_pos hback]
      split_ifs with h
      · simp only [List.length_dropLast]
        omega
      · exact ⟨hplace, hlen, htab⟩
    · by_cases hroom : e.line.length < max - 1
      · obtain ⟨hlow, hhigh⟩ := hc.advance_bounds hback e.place
        rw [key_type hback hroom, settle_of_lt (by simp only [rows, cols]; omega)]
        simp only [List.length_append, List.length_singleton]
        omega
      · rw [key_full hback hroom]
        exact ⟨hplace, hlen, htab⟩
  · simp only [List.length_nil]
    omega

/-! ## Lines that begin too late -/

/-- Keys that lead from one state to another and have been faithful so far. -/
def Leads (start max : ℕ) (e e' : Editor) : Prop :=
  ∃ keys : List UInt8, (∀ c ∈ keys, Stroke c) ∧ keys.foldl (key start max) e = e' ∧
    keys.foldl (editLine max) e.line = e'.line

theorem Leads.refl (e : Editor) : Leads start max e e := ⟨[], by simp, rfl, rfl⟩

theorem Leads.trans {e₁ e₂ e₃ : Editor} (h₁ : Leads start max e₁ e₂)
    (h₂ : Leads start max e₂ e₃) : Leads start max e₁ e₃ := by
  obtain ⟨keys₁, hkeys₁, hplace₁, hline₁⟩ := h₁
  obtain ⟨keys₂, hkeys₂, hplace₂, hline₂⟩ := h₂
  refine ⟨keys₁ ++ keys₂, ?_, ?_, ?_⟩
  · intro c hc
    exact (List.mem_append.mp hc).elim (hkeys₁ c) (hkeys₂ c)
  · rw [List.foldl_append, hplace₁, hplace₂]
  · rw [List.foldl_append, hline₁, hline₂]

theorem leads_type {e : Editor} {c : UInt8} (hc : Stroke c) (hback : c ≠ backspace)
    (hroom : e.line.length < max - 1) :
    Leads start max e ⟨settle (advance c e.place), e.line ++ [c]⟩ := by
  refine ⟨[c], by simpa using hc, key_type hback hroom, ?_⟩
  rw [List.foldl_cons, editLine, if_neg hback, if_pos hroom]
  rfl

theorem leads_back {e : Editor} (hline : 0 < e.line.length) (hplace : start < e.place) :
    Leads start max e ⟨e.place - 1, e.line.dropLast⟩ := by
  refine ⟨[backspace], by decide, ?_, rfl⟩
  rw [List.foldl_cons, key_back hline hplace]
  rfl

/-- The letter `a`. -/
def letter : UInt8 := 0x61

theorem leads_letter {n : ℕ} {line : List UInt8} (hn : n + 1 < rows * cols)
    (hroom : line.length < max - 1) : Leads start max ⟨n, line⟩ ⟨n + 1, line ++ [letter]⟩ := by
  have hsettle : settle (advance letter n) = n + 1 := settle_of_lt hn
  rw [← hsettle]
  exact leads_type (e := ⟨n, line⟩) (by decide) (by decide) hroom

theorem leads_letters {n k : ℕ} {line : List UInt8} (hn : n + k < rows * cols)
    (hroom : line.length + k ≤ max - 1) :
    Leads start max ⟨n, line⟩ ⟨n + k, line ++ List.replicate k letter⟩ := by
  induction k with
  | zero =>
      rw [List.replicate_zero, List.append_nil]
      exact Leads.refl _
  | succ k ih =>
      refine (ih (by omega) (by omega)).trans ?_
      rw [List.replicate_succ', ← List.append_assoc]
      exact leads_letter hn (by rw [List.length_append, List.length_replicate]; omega)

theorem leads_tab {n : ℕ} {line : List UInt8} (hn : (n / 8 + 1) * 8 < rows * cols)
    (hroom : line.length < max - 1) :
    Leads start max ⟨n, line⟩ ⟨(n / 8 + 1) * 8, line ++ [tab]⟩ := by
  have hsettle : settle (advance tab n) = (n / 8 + 1) * 8 := settle_of_lt hn
  rw [← hsettle]
  exact leads_type (e := ⟨n, line⟩) (by decide) (by decide) hroom

/-- A full line whose last character scrolls the screen. -/
theorem leads_scroll {e : Editor} {c : UInt8} (hc : Stroke c) (hback : c ≠ backspace)
    (hroom : e.line.length < max - 1) (hend : advance c e.place = rows * cols) :
    Leads start max e ⟨1920, e.line ++ [c]⟩ := by
  have hsettle : settle (advance c e.place) = 1920 := by
    rw [hend]
    rfl
  rw [← hsettle]
  exact leads_type hc hback hroom

/-- An empty line moves forward, by less than eight cells. -/
theorem leads_creep {n : ℕ} (hmax : 3 ≤ max) (hstart : start ≤ n) (hn : n < 1991) :
    ∃ m, n < m ∧ m ≤ n + 7 ∧ Leads start max ⟨n, []⟩ ⟨m, []⟩ := by
  by_cases hedge : n % 8 = 7
  · -- a letter, a tab and two backspaces
    refine ⟨(n + 1) / 8 * 8 + 6, by omega, by omega, ?_⟩
    have hletter : Leads start max ⟨n, []⟩ ⟨n + 1, [letter]⟩ :=
      leads_letter (by simp only [rows, cols]; omega) (by simp only [List.length_nil]; omega)
    have htab : Leads start max ⟨n + 1, [letter]⟩ ⟨((n + 1) / 8 + 1) * 8, [letter, tab]⟩ :=
      leads_tab (by simp only [rows, cols]; omega) (by simp only [List.length_singleton]; omega)
    have hback : Leads start max ⟨((n + 1) / 8 + 1) * 8, [letter, tab]⟩
        ⟨((n + 1) / 8 + 1) * 8 - 1, [letter]⟩ :=
      leads_back (Nat.zero_lt_succ _) (by dsimp only; omega)
    have hback' : Leads start max ⟨((n + 1) / 8 + 1) * 8 - 1, [letter]⟩
        ⟨((n + 1) / 8 + 1) * 8 - 1 - 1, []⟩ :=
      leads_back (Nat.zero_lt_succ _) (by dsimp only; omega)
    have hplace : ((n + 1) / 8 + 1) * 8 - 1 - 1 = (n + 1) / 8 * 8 + 6 := by omega
    rw [hplace] at hback'
    exact ((hletter.trans htab).trans hback).trans hback'
  · -- a tab and a backspace
    refine ⟨n / 8 * 8 + 7, by omega, by omega, ?_⟩
    have htab : Leads start max ⟨n, []⟩ ⟨(n / 8 + 1) * 8, [tab]⟩ :=
      leads_tab (by simp only [rows, cols]; omega) (by simp only [List.length_nil]; omega)
    have hback : Leads start max ⟨(n / 8 + 1) * 8, [tab]⟩ ⟨(n / 8 + 1) * 8 - 1, []⟩ :=
      leads_back (Nat.zero_lt_succ _) (by dsimp only; omega)
    have hplace : (n / 8 + 1) * 8 - 1 = n / 8 * 8 + 7 := by omega
    rw [hplace] at hback
    exact htab.trans hback

/-- Steps of less than eight cells cannot miss eight cells in a row. -/
theorem leads_window {n w : ℕ} (hmax : 3 ≤ max) (hstart : start ≤ n) (hw : w ≤ 1991)
    (hn : n ≤ w + 7) :
    ∃ m, w ≤ m ∧ m ≤ w + 7 ∧ Leads start max ⟨n, []⟩ ⟨m, []⟩ := by
  induction hd : w - n using Nat.strong_induction_on generalizing n with
  | _ d ih =>
      by_cases hreached : w ≤ n
      · exact ⟨n, hreached, hn, Leads.refl _⟩
      · obtain ⟨m, hnm, hm, hcreep⟩ := leads_creep hmax hstart (n := n) (by omega)
        obtain ⟨m', hlow, hhigh, hleads⟩ :=
          ih (w - m) (by omega) (hstart.trans hnm.le) (by omega) rfl
        exact ⟨m', hlow, hhigh, hcreep.trans hleads⟩

/-- Letters and a tab that fill the line and reach the end of the screen together. -/
theorem leads_full {n : ℕ} (hmax : 2 ≤ max) (hlow : 1994 ≤ n + max) (hhigh : n + max ≤ 2001) :
    ∃ line, line.length = max - 1 ∧ Leads start max ⟨n, []⟩ ⟨1920, line⟩ := by
  have hletters : Leads start max ⟨n, []⟩
      ⟨n + (max - 2), [] ++ List.replicate (max - 2) letter⟩ :=
    leads_letters (by simp only [rows, cols]; omega) (by simp only [List.length_nil]; omega)
  have hlength : ([] ++ List.replicate (max - 2) letter).length = max - 2 := by simp
  refine ⟨_, ?_, hletters.trans (leads_scroll (c := tab) (by decide) (by decide) ?_ ?_)⟩
  · rw [List.length_append, hlength, List.length_singleton]
    omega
  · dsimp only
    omega
  · change ((n + (max - 2)) / 8 + 1) * 8 = 2000
    omega

/-- Letters to the end of the screen. -/
theorem leads_end {n : ℕ} (hn : n < 2000) (hmax : 2001 ≤ n + max) :
    ∃ line, line.length = 2000 - n ∧ Leads start max ⟨n, []⟩ ⟨1920, line⟩ := by
  have hletters : Leads start max ⟨n, []⟩
      ⟨n + (1999 - n), [] ++ List.replicate (1999 - n) letter⟩ :=
    leads_letters (by simp only [rows, cols]; omega) (by simp only [List.length_nil]; omega)
  have hlength : ([] ++ List.replicate (1999 - n) letter).length = 1999 - n := by simp
  refine ⟨_, ?_, hletters.trans (leads_scroll (c := letter) (by decide) (by decide) ?_ ?_)⟩
  · rw [List.length_append, hlength, List.length_singleton]
    omega
  · dsimp only
    omega
  · change n + (1999 - n) + 1 = 2000
    omega

theorem editLine_backspaces {line : List UInt8} {k : ℕ} (hk : line.length = k) :
    (List.replicate k backspace).foldl (editLine max) line = [] := by
  induction k generalizing line with
  | zero => exact List.length_eq_zero_iff.mp hk
  | succ k ih =>
      rw [List.replicate_succ, List.foldl_cons, editLine, if_pos rfl]
      exact ih (by rw [List.length_dropLast, hk, Nat.add_sub_cancel])

/-- The backspaces that are honoured take the cursor back to the remembered place at most. -/
theorem key_backspaces {e : Editor} {d : ℕ} (hplace : min start 1920 ≤ e.place)
    (hlen : e.place + d = 1920 + e.line.length) (k : ℕ) :
    min start 1920 + d ≤
      1920 + ((List.replicate k backspace).foldl (key start max) e).line.length := by
  induction k generalizing e with
  | zero =>
      rw [List.replicate_zero, List.foldl_nil]
      omega
  | succ k ih =>
      rw [List.replicate_succ, List.foldl_cons, key, if_pos rfl]
      split_ifs with h
      · refine ih ?_ ?_
        · dsimp only
          omega
        · simp only [List.length_dropLast]
          omega
      · exact ih hplace hlen

/-- A line that has scrolled the screen and reaches back to the remembered place. -/
theorem not_faithful_of_leads {line : List UInt8}
    (hleads : Leads start max ⟨start, []⟩ ⟨1920, line⟩)
    (hlong : 1920 < min start 1920 + line.length) : ¬Faithful start max := by
  intro hfaithful
  obtain ⟨keys, hkeys, hkey, hedit⟩ := hleads
  have hline := hfaithful (keys ++ List.replicate line.length backspace) (by
    intro c hc
    rcases List.mem_append.mp hc with hc | hc
    · exact hkeys c hc
    · rw [List.eq_of_mem_replicate hc]
      decide)
  rw [List.foldl_append, List.foldl_append, hkey, hedit, editLine_backspaces rfl] at hline
  have hkept : min start 1920 + line.length ≤ 1920 +
      ((List.replicate line.length backspace).foldl (key start max) ⟨1920, line⟩).line.length :=
    key_backspaces (Nat.min_le_right _ _) rfl _
  rw [hline, List.length_nil] at hkept
  omega

theorem not_faithful_of_late (hstart : start < 2000) (hmax : 2 ≤ max)
    (hlate : 1922 ≤ start + max) (hroom : max = 2 → 1992 ≤ start) : ¬Faithful start max := by
  by_cases hend : 2001 ≤ start + max
  · obtain ⟨line, hlen, hleads⟩ :
        ∃ line, line.length = 2000 - start ∧ Leads start max ⟨start, []⟩ ⟨1920, line⟩ :=
      leads_end hstart hend
    exact not_faithful_of_leads hleads (by omega)
  · obtain ⟨n, hlow, hhigh, hcreep⟩ :
        ∃ n, 1994 ≤ n + max ∧ n + max ≤ 2001 ∧ Leads start max ⟨start, []⟩ ⟨n, []⟩ := by
      by_cases hthere : 1994 ≤ start + max
      · exact ⟨start, hthere, by omega, Leads.refl _⟩
      · obtain ⟨n, hlow, hhigh, hcreep⟩ : ∃ n, 1994 - max ≤ n ∧ n ≤ 1994 - max + 7 ∧
            Leads start max ⟨start, []⟩ ⟨n, []⟩ :=
          leads_window (by omega) le_rfl (by omega) (by omega)
        exact ⟨n, by omega, by omega, hcreep⟩
    obtain ⟨line, hlen, hleads⟩ :
        ∃ line, line.length = max - 1 ∧ Leads start max ⟨n, []⟩ ⟨1920, line⟩ :=
      leads_full hmax hlow hhigh
    exact not_faithful_of_leads (hcreep.trans hleads) (by omega)

theorem faithful_iff (hstart : start < 2000) :
    Faithful start max ↔ max ≤ 1 ∨ start + max ≤ 1921 ∨ (max = 2 ∧ start < 1992) := by
  constructor
  · intro hfaithful
    by_contra hcond
    exact not_faithful_of_late hstart (by omega) (by omega) (by omega) hfaithful
  · rintro (hmax | hearly | ⟨hmax, hplace⟩)
    · exact faithful_of_le_one hmax
    · exact faithful_of_early hearly
    · exact faithful_of_single hmax hplace

end Editor

theorem readline_eq {s : Screen} (hs : s.OnScreen) (max : ℕ) {keys : List UInt8}
    (hkeys : ∀ c ∈ keys, Stroke c) :
    ∃ s', readline max (keys ++ [newline]) s
      = .done ((keys.foldl (Editor.key s.place max) ⟨s.place, []⟩).line, s') :=
  readlineLoop_eq hs.1 hs fun hmem ↦ (hkeys newline hmem).2.2 rfl

/-- From a place of the screen where the line begins, every sequence of keys is read as it should
be exactly if the line cannot scroll the screen so far that it reaches back to this place. -/
theorem readline_faithful_iff (s : Screen) (hs : s.OnScreen) (max : ℕ) :
    (∀ keys : List UInt8, (∀ c ∈ keys, Stroke c) →
      ∃ s', readline max (keys ++ [newline]) s = .done (keys.foldl (editLine max) [], s')) ↔
    max ≤ 1 ∨ s.curRow * 80 + s.curCol + max ≤ 1921 ∨
      (max = 2 ∧ s.curRow * 80 + s.curCol < 1992) := by
  refine Iff.trans ?_ (Editor.faithful_iff hs.place_lt)
  constructor
  · intro hread keys hkeys
    obtain ⟨s₁, hedit⟩ := hread keys hkeys
    obtain ⟨s₂, heditor⟩ := readline_eq hs max hkeys
    exact congrArg Prod.fst (Outcome.done.inj (heditor.symm.trans hedit))
  · intro hfaithful keys hkeys
    obtain ⟨s', heditor⟩ := readline_eq hs max hkeys
    have hline : (keys.foldl (Editor.key s.place max) ⟨s.place, []⟩).line
        = keys.foldl (editLine max) [] := hfaithful keys hkeys
    exact ⟨s', by rw [heditor, hline]⟩

/-- Behind a prompt on the last row but five, with the shell's buffer of 256 characters, `ab`, a
backspace and `c` are read as `ac`. -/
theorem readline_faithful_iff_prompt : OnScreen ⟨fun _ ↦ 0x20, 3, 19⟩ ∧
    ∃ s', readline 256 ([0x61, 0x62, backspace, 0x63] ++ [newline]) ⟨fun _ ↦ 0x20, 3, 19⟩
      = .done ([0x61, 0x63], s') := by
  have hs : OnScreen ⟨fun _ ↦ 0x20, 3, 19⟩ := by decide
  have hread := (readline_faithful_iff ⟨fun _ ↦ 0x20, 3, 19⟩ hs 256).mpr (by decide)
  exact ⟨hs, hread [0x61, 0x62, backspace, 0x63] (by decide)⟩

/-- A prompt that ends in the last column of the last row: the first letter scrolls the screen,
the backspace after it is not honoured, and the line that should be empty holds the letter. -/
theorem readline_ignores_backspace :
    (∀ c ∈ [0x61, backspace], Stroke c) ∧ [0x61, backspace].foldl (editLine 256) [] = [] ∧
    ∃ s', readline 256 ([0x61, backspace] ++ [newline]) ⟨fun _ ↦ 0x20, 79, 24⟩
      = .done ([0x61], s') := by
  refine ⟨by decide, by decide, ?_⟩
  have hs : OnScreen ⟨fun _ ↦ 0x20, 79, 24⟩ := by decide
  have hkeys : ∀ c ∈ [0x61, backspace], Stroke c := by decide
  exact readline_eq hs 256 hkeys

end MyOS.Shell
