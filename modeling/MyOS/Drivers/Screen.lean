import MyOS.Lib.Bytes
import MyOS.Lib.Word
import MyOS.Lib.Loop

/-!
# The text console

`screen.c` keeps a cursor and writes characters with their attributes into the 4000 bytes of the
VGA text buffer.  Every access of the model is checked against the end of the buffer, so a run
that returns has made none outside it.

Over it stands a page without a bottom, which wraps at 80 columns and never scrolls.  The screen
shows the page's last 25 rows: the simulation relation also says that the page is blank below its
cursor, which is what a row uncovered by scrolling has to be.  The mirror on the serial line is
left out.
-/

namespace MyOS

namespace Screen

def cols : ℕ := 80

def rows : ℕ := 25

def vgaBytes : ℕ := rows * cols * 2

def vgaBlack : UInt8 := 0

def vgaLightGrey : UInt8 := 7

def vgaColor (fg bg : UInt8) : UInt8 := fg ||| (bg <<< 4)

def newline : UInt8 := 0x0A

def carriageReturn : UInt8 := 0x0D

def tab : UInt8 := 0x09

def backspace : UInt8 := 0x08

def space : UInt8 := 0x20

/-- The default colour, of blank cells and of `kputchar`. -/
def blank : UInt8 := vgaColor vgaLightGrey vgaBlack

end Screen

/-- The buffer and the cursor. -/
structure Screen where
  vga : Bytes
  curCol : ℕ
  curRow : ℕ

namespace Screen

/-! ## The code -/

def load (vga : Bytes) (pos : ℕ) : Outcome UInt8 :=
  if pos < vgaBytes then .done (vga pos) else .halt "VGA load out of range"

def store (vga : Bytes) (pos : ℕ) (b : UInt8) : Outcome Bytes :=
  if pos < vgaBytes then .done (Function.update vga pos b) else .halt "VGA store out of range"

/-- The two stores of a character and its attribute. -/
def putCell (vga : Bytes) (pos : ℕ) (c attr : UInt8) : Outcome Bytes := do
  let vga ← store vga pos c
  store vga (pos + 1) attr

/-- The body of the copying loops of `scroll_up`. -/
def copyUp (row col : ℕ) (vga : Bytes) : Outcome Bytes := do
  let src := ((row + 1) * cols + col) * 2
  let dst := (row * cols + col) * 2
  let c ← load vga src
  let vga ← store vga dst c
  let attr ← load vga (src + 1)
  store vga (dst + 1) attr

def scrollUp (s : Screen) : Outcome Screen := do
  let vga ← Outcome.forLoop (fun row ↦ Outcome.forLoop (copyUp row) cols) (rows - 1) s.vga
  let vga ← Outcome.forLoop
    (fun col vga ↦ putCell vga (((rows - 1) * cols + col) * 2) space blank) cols vga
  return { s with vga := vga, curRow := rows - 1 }

def clearScreen (s : Screen) : Outcome Screen := do
  let vga ← Outcome.forLoop (fun i vga ↦ putCell vga (i * 2) space blank) (rows * cols) s.vga
  return { vga := vga, curCol := 0, curRow := 0 }

def carry (s : Screen) : Screen :=
  if cols ≤ s.curCol then { s with curCol := 0, curRow := s.curRow + 1 } else s

/-- The end of `kputchar_color`: wrap at the right edge, then scroll at the bottom. -/
def wrap (s : Screen) : Outcome Screen :=
  if rows ≤ s.carry.curRow then s.carry.scrollUp else .done s.carry

/-- Where a backspace moves the cursor. -/
def stepBack (s : Screen) : Screen :=
  if 0 < s.curCol then { s with curCol := s.curCol - 1 }
  else if 0 < s.curRow then { s with curRow := s.curRow - 1, curCol := cols - 1 }
  else s

def cursorPos (s : Screen) : ℕ := (s.curRow * cols + s.curCol) * 2

def kputcharColor (s : Screen) (c fg bg : UInt8) : Outcome Screen :=
  let attr := vgaColor fg bg
  if c = newline then wrap { s with curCol := 0, curRow := s.curRow + 1 }
  else if c = carriageReturn then wrap { s with curCol := 0 }
  else if c = tab then wrap { s with curCol := (s.curCol + 8) &&& (2 ^ 32 - 2 ^ 3) }
  else if c = backspace then do
    let s := s.stepBack
    let vga ← putCell s.vga s.cursorPos space attr
    return { s with vga := vga }
  else do
    let vga ← putCell s.vga s.cursorPos c attr
    wrap { s with vga := vga, curCol := s.curCol + 1 }

def kputchar (s : Screen) (c : UInt8) : Outcome Screen :=
  s.kputcharColor c vgaLightGrey vgaBlack

def kgetCursor (s : Screen) : ℕ × ℕ := (s.curCol, s.curRow)

/-- A character with the colours it is printed in. -/
structure Glyph where
  c : UInt8
  fg : UInt8
  bg : UInt8

/-- A text printed character by character. -/
def print : List Glyph → Screen → Outcome Screen
  | [], s => .done s
  | g :: text, s => s.kputcharColor g.c g.fg g.bg >>= print text

/-! ## What the loops do to the buffer -/

theorem putCell_eq {vga : Bytes} {pos : ℕ} (c attr : UInt8) (h : pos + 1 < vgaBytes) :
    putCell vga pos c attr
      = .done (Function.update (Function.update vga pos c) (pos + 1) attr) := by
  have hpos : pos < vgaBytes := by omega
  rw [putCell, store, if_pos hpos, Outcome.done_bind, store, if_pos h]

theorem copyUp_eq {vga : Bytes} {row col : ℕ} (hrow : row < rows - 1) (hcol : col < cols) :
    copyUp row col vga = .done (Function.update
      (Function.update vga ((row * cols + col) * 2) (vga ((row * cols + col) * 2 + 160)))
      ((row * cols + col) * 2 + 1) (vga ((row * cols + col) * 2 + 161))) := by
  simp only [rows, cols] at hrow hcol
  have hsrc : ((row + 1) * cols + col) * 2 = (row * cols + col) * 2 + 160 := by
    simp only [cols]
    ring
  have hend : (row * cols + col) * 2 + 161 < vgaBytes := by
    simp only [vgaBytes, rows, cols]
    omega
  have hne : (row * cols + col) * 2 + 160 + 1 ≠ (row * cols + col) * 2 := by omega
  rw [copyUp, hsrc, load, if_pos (by omega), Outcome.done_bind, store, if_pos (by omega),
    Outcome.done_bind, load, if_pos (by omega), Outcome.done_bind, store, if_pos (by omega),
    Function.update_of_ne hne]

/-- The buffer with its first `n` cells taken from the row below them. -/
def movedUp (vga : Bytes) (n : ℕ) : Bytes := fun i ↦ if i < 2 * n then vga (i + 160) else vga i

/-- The buffer with the `n` cells from `start` on blank. -/
def blanked (vga : Bytes) (start n : ℕ) : Bytes := fun i ↦
  if 2 * start ≤ i ∧ i < 2 * (start + n) then (if i % 2 = 0 then space else blank) else vga i

theorem movedUp_zero (vga : Bytes) : movedUp vga 0 = vga := by
  funext i
  rw [movedUp, if_neg (by omega)]

theorem blanked_zero (vga : Bytes) (start : ℕ) : blanked vga start 0 = vga := by
  funext i
  rw [blanked, if_neg (by omega)]

/-- The source of a copy lies ahead of everything copied so far. -/
theorem copyUp_movedUp (vga : Bytes) {row col : ℕ} (hrow : row < rows - 1) (hcol : col < cols) :
    copyUp row col (movedUp vga (row * cols + col))
      = .done (movedUp vga (row * cols + (col + 1))) := by
  rw [copyUp_eq hrow hcol]
  congr 1
  funext i
  simp only [Function.update_apply, movedUp]
  split_ifs <;> first | rfl | omega | (congr 1; omega)

theorem putCell_blanked (vga : Bytes) {start n : ℕ} (h : start + n < rows * cols) :
    putCell (blanked vga start n) ((start + n) * 2) space blank
      = .done (blanked vga start (n + 1)) := by
  have hend : (start + n) * 2 + 1 < vgaBytes := by
    rw [vgaBytes]
    omega
  rw [putCell_eq _ _ hend]
  congr 1
  funext i
  simp only [Function.update_apply, blanked]
  split_ifs <;> first | rfl | omega

theorem copyLoops_eq (vga : Bytes) :
    Outcome.forLoop (fun row ↦ Outcome.forLoop (copyUp row) cols) (rows - 1) vga
      = .done (movedUp vga ((rows - 1) * cols)) := by
  obtain ⟨t, hloop, rfl⟩ := Outcome.forLoop_spec
    (f := fun row ↦ Outcome.forLoop (copyUp row) cols) (n := rows - 1) (s := vga)
    (fun row t ↦ t = movedUp vga (row * cols)) (by rw [Nat.zero_mul, movedUp_zero]) (by
      rintro row hrow t rfl
      obtain ⟨t, hrun, rfl⟩ := Outcome.forLoop_spec (f := copyUp row) (n := cols)
        (s := movedUp vga (row * cols)) (fun col t ↦ t = movedUp vga (row * cols + col)) rfl (by
          rintro col hcol t rfl
          exact ⟨_, copyUp_movedUp vga hrow hcol, rfl⟩)
      exact ⟨_, hrun, by rw [Nat.succ_mul]⟩)
  exact hloop

theorem blankLoop_eq (vga : Bytes) (start n : ℕ) (h : start + n ≤ rows * cols) :
    Outcome.forLoop (fun i vga ↦ putCell vga ((start + i) * 2) space blank) n vga
      = .done (blanked vga start n) := by
  obtain ⟨t, hloop, rfl⟩ := Outcome.forLoop_spec
    (f := fun i vga ↦ putCell vga ((start + i) * 2) space blank) (n := n) (s := vga)
    (fun i t ↦ t = blanked vga start i) (blanked_zero vga start).symm (by
      rintro i hi t rfl
      exact ⟨_, putCell_blanked vga (by omega), rfl⟩)
  exact hloop

theorem scrollUp_eq (s : Screen) :
    s.scrollUp = .done
      { vga := blanked (movedUp s.vga ((rows - 1) * cols)) ((rows - 1) * cols) cols
        curCol := s.curCol
        curRow := rows - 1 } := by
  rw [scrollUp, copyLoops_eq, Outcome.done_bind, blankLoop_eq _ _ _ (by decide), Outcome.done_bind]
  rfl

theorem clearScreen_eq (s : Screen) :
    s.clearScreen = .done { vga := blanked s.vga 0 (rows * cols), curCol := 0, curRow := 0 } := by
  have hloop := blankLoop_eq s.vga 0 (rows * cols) (by decide)
  simp only [Nat.zero_add] at hloop
  rw [clearScreen, hloop, Outcome.done_bind]
  rfl

/-! ## Cells -/

/-- The character and the attribute at a place of the screen. -/
def cell (vga : Bytes) (r c : ℕ) : UInt8 × UInt8 :=
  (vga ((r * cols + c) * 2), vga ((r * cols + c) * 2 + 1))

theorem cell_put {vga : Bytes} {r c r' c' : ℕ} (x attr : UInt8) (hc : c < cols) (hc' : c' < cols) :
    cell (Function.update (Function.update vga ((r * cols + c) * 2) x)
        ((r * cols + c) * 2 + 1) attr) r' c'
      = if r' = r ∧ c' = c then (x, attr) else cell vga r' c' := by
  simp only [cols] at hc hc'
  by_cases hplace : r' = r ∧ c' = c
  · obtain ⟨rfl, rfl⟩ := hplace
    rw [if_pos ⟨rfl, rfl⟩, cell, Function.update_self,
      Function.update_of_ne (Nat.succ_ne_self _).symm, Function.update_self]
  · have hne : r' * cols + c' ≠ r * cols + c := by
      simp only [cols]
      omega
    rw [if_neg hplace, cell, Function.update_of_ne (by omega), Function.update_of_ne (by omega),
      Function.update_of_ne (by omega), Function.update_of_ne (by omega), cell]

theorem cell_blanked_inside {vga : Bytes} {start n r c : ℕ} (hlow : start ≤ r * cols + c)
    (hhigh : r * cols + c < start + n) : cell (blanked vga start n) r c = (space, blank) := by
  rw [cell, blanked, blanked, if_pos (by omega), if_pos (by omega), if_pos (by omega),
    if_neg (by omega)]

theorem cell_blanked_before {vga : Bytes} {start n r c : ℕ} (h : r * cols + c < start) :
    cell (blanked vga start n) r c = cell vga r c := by
  rw [cell, blanked, blanked, if_neg (by omega), if_neg (by omega), cell]

theorem cell_movedUp {vga : Bytes} {n r c : ℕ} (h : r * cols + c < n) :
    cell (movedUp vga n) r c = cell vga (r + 1) c := by
  have hbelow : ((r + 1) * cols + c) * 2 = (r * cols + c) * 2 + 160 := by
    simp only [cols]
    ring
  rw [cell, movedUp, movedUp, if_pos (by omega), if_pos (by omega), cell, hbelow]

/-! ## The cursor -/

def OnScreen (s : Screen) : Prop := s.curCol < cols ∧ s.curRow < rows

instance (s : Screen) : Decidable s.OnScreen := inferInstanceAs (Decidable (_ ∧ _))

/-- The cell the cursor is in, counted from the top left one. -/
def place (s : Screen) : ℕ := s.curRow * cols + s.curCol

/-- Where a character moves the cursor if the screen has no bottom. -/
def advance (c : UInt8) (n : ℕ) : ℕ :=
  if c = newline then (n / cols + 1) * cols
  else if c = carriageReturn then n / cols * cols
  else if c = tab then (n / 8 + 1) * 8
  else if c = backspace then n - 1
  else n + 1

/-- Below the bottom row the screen is scrolled by one row. -/
def settle (n : ℕ) : ℕ := if n < rows * cols then n else n - cols

theorem OnScreen.place_lt {s : Screen} (h : s.OnScreen) : s.place < rows * cols := by
  obtain ⟨hcol, hrow⟩ := h
  simp only [place, rows, cols] at *
  omega

theorem OnScreen.cursorPos_lt {s : Screen} (h : s.OnScreen) : s.cursorPos + 1 < vgaBytes := by
  have hplace := h.place_lt
  rw [place] at hplace
  rw [cursorPos, vgaBytes]
  omega

theorem and_tabMask {n : ℕ} (h : n < 2 ^ 32) : n &&& (2 ^ 32 - 2 ^ 3) = n / 8 * 8 :=
  Word.and_highMask h (by decide)

theorem carry_place {s : Screen} (h : s.curCol ≤ cols) :
    s.carry.place = s.place ∧ s.carry.curCol < cols := by
  rw [carry]
  split_ifs with hedge
  · have hcol : s.curCol = cols := le_antisymm h hedge
    refine ⟨?_, Nat.zero_lt_succ _⟩
    simp only [place, hcol]
    ring
  · exact ⟨rfl, not_le.mp hedge⟩

/-- The carried cursor is at most one row below the screen. -/
theorem carry_row {s : Screen} (h : s.curCol ≤ cols) (hplace : s.place < (rows + 1) * cols) :
    s.carry.curRow ≤ rows := by
  obtain ⟨hsame, -⟩ := carry_place h
  rw [← hsame, place] at hplace
  simp only [rows, cols] at *
  omega

theorem wrap_place {s : Screen} (h : s.curCol ≤ cols) (hplace : s.place < (rows + 1) * cols) :
    ∃ s', s.wrap = .done s' ∧ s'.OnScreen ∧ s'.place = settle s.place := by
  obtain ⟨hsame, hcol⟩ := carry_place h
  have hrow := carry_row h hplace
  rw [wrap]
  by_cases hbottom : rows ≤ s.carry.curRow
  · have hedge : s.carry.curRow = rows := le_antisymm hrow hbottom
    rw [if_pos hbottom, scrollUp_eq]
    refine ⟨_, rfl, ⟨hcol, Nat.lt_succ_self _⟩, ?_⟩
    rw [← hsame, settle]
    simp only [place, hedge, rows, cols]
    rw [if_neg (by omega)]
    omega
  · rw [if_neg hbottom]
    have hon : s.carry.OnScreen := ⟨hcol, not_le.mp hbottom⟩
    refine ⟨_, rfl, hon, ?_⟩
    rw [← hsame, settle, if_pos hon.place_lt]

theorem stepBack_place {s : Screen} (h : s.OnScreen) :
    s.stepBack.OnScreen ∧ s.stepBack.place = s.place - 1 := by
  obtain ⟨hcol, hrow⟩ := h
  rw [stepBack]
  split_ifs with hleft htop
  · refine ⟨⟨(Nat.sub_le _ _).trans_lt hcol, hrow⟩, ?_⟩
    simp only [place]
    omega
  · refine ⟨⟨Nat.lt_succ_self _, (Nat.sub_le _ _).trans_lt hrow⟩, ?_⟩
    simp only [place, cols] at *
    omega
  · refine ⟨⟨hcol, hrow⟩, ?_⟩
    simp only [place, cols]
    omega

/-- One character: it is printed, every access falls into the buffer, and the cursor moves as on
a screen without a bottom, up to scrolling. -/
theorem kputcharColor_place {s : Screen} (h : s.OnScreen) (c fg bg : UInt8) :
    ∃ s', s.kputcharColor c fg bg = .done s' ∧ s'.OnScreen ∧
      s'.place = settle (advance c s.place) := by
  have hplace := h.place_lt
  obtain ⟨hcol, hrow⟩ := id h
  rw [kputcharColor, advance]
  by_cases hnl : c = newline
  · rw [if_pos hnl, if_pos hnl]
    obtain ⟨s', hwrap, hon, hs'⟩ := wrap_place
      (s := { s with curCol := 0, curRow := s.curRow + 1 }) (Nat.zero_le _)
      (by simp only [place, rows, cols] at *; omega)
    refine ⟨s', hwrap, hon, ?_⟩
    rw [hs']
    congr 1
    simp only [place, cols] at *
    omega
  rw [if_neg hnl, if_neg hnl]
  by_cases hcr : c = carriageReturn
  · rw [if_pos hcr, if_pos hcr]
    obtain ⟨s', hwrap, hon, hs'⟩ := wrap_place (s := { s with curCol := 0 }) (Nat.zero_le _)
      (by simp only [place, rows, cols] at *; omega)
    refine ⟨s', hwrap, hon, ?_⟩
    rw [hs']
    congr 1
    simp only [place, cols] at *
    omega
  rw [if_neg hcr, if_neg hcr]
  by_cases htab : c = tab
  · rw [if_pos htab, if_pos htab, and_tabMask (by simp only [cols] at hcol; omega)]
    obtain ⟨s', hwrap, hon, hs'⟩ := wrap_place (s := { s with curCol := (s.curCol + 8) / 8 * 8 })
      (by simp only [cols] at *; omega) (by simp only [place, rows, cols] at *; omega)
    refine ⟨s', hwrap, hon, ?_⟩
    rw [hs']
    congr 1
    simp only [place, cols] at *
    omega
  rw [if_neg htab, if_neg htab]
  by_cases hbs : c = backspace
  · obtain ⟨hback, hs'⟩ := stepBack_place h
    rw [if_pos hbs, if_pos hbs]
    dsimp only
    rw [putCell_eq _ _ hback.cursorPos_lt]
    refine ⟨_, rfl, hback, ?_⟩
    rw [settle, if_pos (by omega), ← hs']
    rfl
  · rw [if_neg hbs, if_neg hbs, putCell_eq _ _ h.cursorPos_lt, Outcome.done_bind]
    exact wrap_place (Nat.succ_le_of_lt hcol) (by simp only [place, rows, cols] at *; omega)

/-! ## The page without a bottom -/

end Screen

/-- A page of cells, and the cursor on it. -/
structure Page where
  cells : ℕ → ℕ → UInt8 × UInt8
  row : ℕ
  col : ℕ

namespace Page

open Screen

def empty : Page := ⟨fun _ _ ↦ (space, blank), 0, 0⟩

def carry (p : Page) : Page := if cols ≤ p.col then { p with row := p.row + 1, col := 0 } else p

def write (p : Page) (x : UInt8 × UInt8) : Page :=
  { p with cells := fun r c ↦ if r = p.row ∧ c = p.col then x else p.cells r c }

/-- One character of a text without backspaces. -/
def put (p : Page) (g : Glyph) : Page :=
  if g.c = newline then { p with row := p.row + 1, col := 0 }
  else if g.c = carriageReturn then { p with col := 0 }
  else if g.c = tab then carry { p with col := (p.col / 8 + 1) * 8 }
  else carry { p.write (g.c, vgaColor g.fg g.bg) with col := p.col + 1 }

def render (text : List Glyph) : Page := text.foldl put empty

/-- The first row of the page that is on the screen. -/
def top (p : Page) : ℕ := p.row - 24

end Page

namespace Screen

/-- The screen shows the page from row `t` on; what is below the screen has not been written. -/
structure Shows (t : ℕ) (p : Page) (s : Screen) : Prop where
  row : p.row = t + s.curRow
  col : p.col = s.curCol
  scrolled : 0 < t → rows - 1 ≤ s.curRow
  cells : ∀ r < rows, ∀ c < cols, cell s.vga r c = p.cells (t + r) c
  below : ∀ r, t + rows ≤ r → ∀ c < cols, p.cells r c = (space, blank)

theorem Shows.top_eq {t : ℕ} {p : Page} {s : Screen} (h : Shows t p s) (hrow : s.curRow < rows) :
    p.top = t := by
  have hscrolled := h.scrolled
  rw [Page.top, h.row]
  simp only [rows] at *
  omega

theorem shows_clear (vga : Bytes) :
    Shows 0 Page.empty { vga := blanked vga 0 (rows * cols), curCol := 0, curRow := 0 } := by
  refine ⟨rfl, rfl, fun h ↦ absurd h (lt_irrefl 0), fun r hr c hc ↦ ?_, fun _ _ _ _ ↦ rfl⟩
  refine cell_blanked_inside (Nat.zero_le _) ?_
  simp only [rows, cols] at *
  omega

/-- Moving the cursor on both. -/
theorem Shows.move {t : ℕ} {p : Page} {s : Screen} (h : Shows t p s) (row col : ℕ)
    (hrow : s.curRow ≤ row) :
    Shows t { p with row := t + row, col := col } { s with curRow := row, curCol := col } :=
  ⟨rfl, rfl, fun ht ↦ (h.scrolled ht).trans hrow, h.cells, h.below⟩

theorem Shows.carry {t : ℕ} {p : Page} {s : Screen} (h : Shows t p s) :
    Shows t p.carry s.carry := by
  rw [Page.carry, Screen.carry, h.col]
  split_ifs with hedge
  · have hmoved := h.move (s.curRow + 1) 0 (Nat.le_succ s.curRow)
    rwa [← Nat.add_assoc, ← h.row] at hmoved
  · exact h

/-- A cell written on both. -/
theorem Shows.write {t : ℕ} {p : Page} {s : Screen} (h : Shows t p s) (hon : s.OnScreen)
    (x attr : UInt8) :
    Shows t (p.write (x, attr))
      ⟨Function.update (Function.update s.vga s.cursorPos x) (s.cursorPos + 1) attr,
        s.curCol, s.curRow⟩ := by
  refine ⟨h.row, h.col, h.scrolled, fun r hr c hc ↦ ?_, fun r hr c hc ↦ ?_⟩
  · rw [cursorPos, cell_put x attr hon.1 hc, Page.write, h.cells r hr c hc]
    simp only [h.row, h.col, Nat.add_left_cancel_iff]
  · have hne : ¬(r = p.row ∧ c = p.col) := by
      have hrow := h.row
      have hon := hon.2
      omega
    simp only [Page.write, if_neg hne]
    exact h.below r hr c hc

/-- Scrolling moves the window on the page down by one row, which is still blank. -/
theorem Shows.scroll {t : ℕ} {p : Page} {s : Screen} (h : Shows t p s) (hrow : s.curRow = rows) :
    ∃ s', s.scrollUp = .done s' ∧ Shows (t + 1) p s' := by
  rw [scrollUp_eq]
  refine ⟨_, rfl, ?_, h.col, fun _ ↦ le_rfl, fun r hr c hc ↦ ?_, fun r hr c hc ↦ ?_⟩
  · rw [h.row, hrow, Nat.add_assoc]
    rfl
  · by_cases hlast : r < rows - 1
    · have hbefore : r * cols + c < (rows - 1) * cols := by
        simp only [rows, cols] at *
        omega
      rw [cell_blanked_before hbefore, cell_movedUp hbefore, h.cells (r + 1) (by omega) c hc]
      congr 1
      omega
    · have hr : r = rows - 1 := by omega
      subst hr
      rw [cell_blanked_inside (by omega) (by omega), h.below _ ?_ c hc]
      simp only [rows]
      omega
  · exact h.below r (by omega) c hc

theorem Shows.wrap {t : ℕ} {p : Page} {s : Screen} (h : Shows t p s) (hcol : s.curCol ≤ cols)
    (hplace : s.place < (rows + 1) * cols) :
    ∃ t' s', s.wrap = .done s' ∧ Shows t' p.carry s' := by
  have hrow := carry_row hcol hplace
  rw [Screen.wrap]
  by_cases hbottom : rows ≤ s.carry.curRow
  · rw [if_pos hbottom]
    exact ⟨t + 1, h.carry.scroll (le_antisymm hrow hbottom)⟩
  · rw [if_neg hbottom]
    exact ⟨t, _, rfl, h.carry⟩

/-- One character on both. -/
theorem Shows.put {t : ℕ} {p : Page} {s : Screen} (h : Shows t p s) (hon : s.OnScreen)
    (g : Glyph) (hg : g.c ≠ backspace) :
    ∃ t' s', s.kputcharColor g.c g.fg g.bg = .done s' ∧ Shows t' (p.put g) s' := by
  have hplace := hon.place_lt
  obtain ⟨hcol, hrow⟩ := id hon
  rw [kputcharColor, Page.put]
  by_cases hnl : g.c = newline
  · rw [if_pos hnl, if_pos hnl]
    have hmoved := h.move (s.curRow + 1) 0 (Nat.le_succ s.curRow)
    rw [← Nat.add_assoc, ← h.row] at hmoved
    exact hmoved.wrap (Nat.zero_le _) (by simp only [place, rows, cols] at *; omega)
  rw [if_neg hnl, if_neg hnl]
  by_cases hcr : g.c = carriageReturn
  · rw [if_pos hcr, if_pos hcr]
    have hmoved := h.move s.curRow 0 le_rfl
    rw [← h.row] at hmoved
    exact hmoved.wrap (Nat.zero_le _) (by simp only [place, rows, cols] at *; omega)
  rw [if_neg hcr, if_neg hcr]
  by_cases htab : g.c = tab
  · rw [if_pos htab, if_pos htab, and_tabMask (by simp only [cols] at hcol; omega)]
    have hmoved := h.move s.curRow ((p.col / 8 + 1) * 8) le_rfl
    have hstop : (s.curCol + 8) / 8 * 8 = (p.col / 8 + 1) * 8 := by
      rw [h.col]
      omega
    rw [← h.row] at hmoved
    rw [hstop]
    have hcol' : p.col < cols := h.col ▸ hcol
    exact hmoved.wrap (by simp only [cols] at *; omega)
      (by simp only [place, rows, cols] at *; omega)
  · rw [if_neg htab, if_neg htab, if_neg hg, putCell_eq _ _ hon.cursorPos_lt, Outcome.done_bind]
    have hmoved := (h.write hon g.c (vgaColor g.fg g.bg)).move s.curRow (s.curCol + 1) le_rfl
    rw [← h.row, ← h.col] at hmoved
    rw [← h.col]
    have hcol' : p.col < cols := h.col ▸ hcol
    exact hmoved.wrap (Nat.succ_le_of_lt hcol') (by simp only [place, rows, cols] at *; omega)

/-! ## Texts -/

theorem print_onScreen {s : Screen} (h : s.OnScreen) (text : List Glyph) :
    ∃ s', print text s = .done s' ∧ s'.OnScreen := by
  induction text generalizing s with
  | nil => exact ⟨s, rfl, h⟩
  | cons g text ih =>
      obtain ⟨s₁, hput, hon, -⟩ := kputcharColor_place h g.c g.fg g.bg
      obtain ⟨s', hprint, hon'⟩ := ih hon
      exact ⟨s', by rw [print, hput, Outcome.done_bind, hprint], hon'⟩

theorem Shows.print {t : ℕ} {p : Page} {s : Screen} (h : Shows t p s) (hon : s.OnScreen)
    {text : List Glyph} (htext : ∀ g ∈ text, g.c ≠ backspace) :
    ∃ t' s', Screen.print text s = .done s' ∧ Shows t' (text.foldl Page.put p) s' := by
  induction text generalizing t p s with
  | nil => exact ⟨t, s, rfl, h⟩
  | cons g text ih =>
      rw [List.forall_mem_cons] at htext
      obtain ⟨s₁, hput, hon₁, -⟩ := kputcharColor_place hon g.c g.fg g.bg
      obtain ⟨t₁, s₂, hput', hshows⟩ := h.put hon g htext.1
      obtain rfl : s₁ = s₂ := Outcome.done.inj (hput.symm.trans hput')
      obtain ⟨t', s', hprint, hs'⟩ := ih hshows hon₁ htext.2
      exact ⟨t', s', by rw [Screen.print, hput, Outcome.done_bind, hprint], hs'⟩

/-- A text printed after `clear_screen`, whatever was on the screen before: every access falls
into the buffer and the cursor stays on the screen.  Without backspaces the 25 rows on the screen
are the last rows of the page. -/
theorem console_refines_page (s : Screen) (text : List Glyph) :
    ∃ s', (s.clearScreen >>= print text) = .done s' ∧ s'.curCol < 80 ∧ s'.curRow < 25 ∧
      ((∀ g ∈ text, g.c ≠ backspace) →
        s'.curCol = (Page.render text).col ∧
        (Page.render text).row = (Page.render text).top + s'.curRow ∧
        ∀ r < 25, ∀ c < 80,
          (s'.vga ((r * 80 + c) * 2), s'.vga ((r * 80 + c) * 2 + 1))
            = (Page.render text).cells ((Page.render text).top + r) c) := by
  rw [clearScreen_eq, Outcome.done_bind]
  have hclear : OnScreen ⟨blanked s.vga 0 (rows * cols), 0, 0⟩ :=
    ⟨Nat.zero_lt_succ _, Nat.zero_lt_succ _⟩
  obtain ⟨s', hprint, hon⟩ := print_onScreen hclear text
  refine ⟨s', hprint, hon.1, hon.2, fun htext ↦ ?_⟩
  obtain ⟨t, s₂, hprint', hshows⟩ := (shows_clear s.vga).print hclear htext
  obtain rfl : s' = s₂ := Outcome.done.inj (hprint.symm.trans hprint')
  have htop := hshows.top_eq hon.2
  rw [Page.render, htop]
  exact ⟨hshows.col.symm, hshows.row, hshows.cells⟩

/-- Thirty empty lines and a yellow letter on blue, on a screen full of other characters: it has
scrolled six times and the letter is at the start of the last row. -/
theorem console_refines_page_scrolled :
    ∃ s', ((Screen.mk (fun _ ↦ 0xFF) 79 24).clearScreen >>=
        print (List.replicate 30 ⟨newline, 7, 0⟩ ++ [⟨0x41, 14, 1⟩])) = .done s' ∧
      s'.curCol = 1 ∧ s'.curRow = 24 ∧ (s'.vga 3840, s'.vga 3841) = (0x41, 0x1E) := by
  obtain ⟨s', hrun, -, -, hshows⟩ := console_refines_page (Screen.mk (fun _ ↦ 0xFF) 79 24)
    (List.replicate 30 ⟨newline, 7, 0⟩ ++ [⟨0x41, 14, 1⟩])
  obtain ⟨hcol, hrow, hcells⟩ := hshows (by decide)
  refine ⟨s', hrun, hcol, ?_, hcells 24 (by decide) 0 (by decide)⟩
  have hpage : (Page.render (List.replicate 30 ⟨newline, 7, 0⟩ ++ [⟨0x41, 14, 1⟩])).row = 30 := rfl
  rw [Page.top, hpage] at hrow
  omega

end Screen

end MyOS
