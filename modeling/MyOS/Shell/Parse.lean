import MyOS.Fat32.Certificate
import MyOS.Fat32.Names
import MyOS.Heap.Invariant
import MyOS.Shell.Model

/-!
# Words of a command line

`parse` ends the words of a line with NULs, in the line itself, and returns pointers to them.  With
the sixteenth word it stops before the word is ended, so that the last argument is the rest of the
line.
-/

namespace MyOS.Shell

open Fat32

def argsMax : ℕ := 16

/-- `while (test(*p)) p++;` -/
def skipWhile (test : UInt8 → Bool) (mem : Bytes) : ℕ → ℕ → Outcome ℕ
  | 0, _ => .spin
  | fuel + 1, p => if test (mem p) then skipWhile test mem fuel (p + 1) else .done p

/-- The loop of `parse`, which goes round at most once for each argument and once more. -/
def parseLoop (fuel : ℕ) : ℕ → Bytes → ℕ → List ℕ → Outcome (List ℕ × Bytes)
  | 0, _, _, _ => .spin
  | rounds + 1, mem, p, argv =>
      if mem p = 0 then .done (argv, mem)
      else do
        let p ← skipWhile (· = chSpace) mem fuel p
        if mem p = 0 then .done (argv, mem)
        else
          let argv := argv ++ [p]
          if argv.length = argsMax then .done (argv, mem)
          else do
            let p ← skipWhile (fun c ↦ c ≠ 0 ∧ c ≠ chSpace) mem fuel p
            if mem p ≠ 0 then parseLoop fuel rounds (Function.update mem p 0) (p + 1) argv
            else parseLoop fuel rounds mem p argv

/-- `parse` on the line at address `line`: the pointers and the memory behind them. -/
def parse (fuel : ℕ) (mem : Bytes) (line : ℕ) : Outcome (List ℕ × Bytes) :=
  parseLoop fuel (argsMax + 1) mem line []

/-! ## Strings in memory -/

/-- The bytes from `p` on are those of `s` and a NUL. -/
def IsString (mem : Bytes) : ℕ → List UInt8 → Prop
  | p, [] => mem p = 0
  | p, c :: s => mem p = c ∧ c ≠ 0 ∧ IsString mem (p + 1) s

namespace IsString

variable {mem mem' : Bytes} {p : ℕ} {s t : List UInt8} {c : UInt8}

theorem nul_notMem (h : IsString mem p s) : ∀ c ∈ s, c ≠ 0 := by
  induction s generalizing p with
  | nil => nofun
  | cons c s ih =>
      obtain ⟨-, hc, hs⟩ := h
      intro x hx
      rcases List.mem_cons.mp hx with rfl | hx
      · exact hc
      · exact ih hs x hx

theorem congr (h : IsString mem p s) (hmem : ∀ a, p ≤ a → a ≤ p + s.length → mem' a = mem a) :
    IsString mem' p s := by
  induction s generalizing p with
  | nil => exact (hmem p (le_refl p) (Nat.le_add_right p 0)).trans h
  | cons c s ih =>
      obtain ⟨hp, hc, hs⟩ := h
      rw [List.length_cons] at hmem
      exact ⟨(hmem p (le_refl p) (by omega)).trans hp, hc,
        ih hs fun a ha hle ↦ hmem a (by omega) (by omega)⟩

/-- One string begins at an address. -/
theorem unique (hs : IsString mem p s) (ht : IsString mem p t) : s = t := by
  induction s generalizing p t with
  | nil =>
      cases t with
      | nil => rfl
      | cons d t => exact absurd (ht.1.symm.trans hs) ht.2.1
  | cons c s ih =>
      cases t with
      | nil => exact absurd (hs.1.symm.trans ht) hs.2.1
      | cons d t => rw [hs.1.symm.trans ht.1, ih hs.2.2 ht.2.2]

/-- A string behind others, in a memory that holds nothing else. -/
theorem of_list (hs : ∀ c ∈ s, c ≠ 0) :
    IsString (fun i ↦ (t ++ s).getD i 0) t.length s := by
  induction s generalizing t with
  | nil => exact List.getD_eq_default _ _ (by simp)
  | cons c s ih =>
      refine ⟨by simp, hs c (by simp), ?_⟩
      have hrest := ih (t := t ++ [c]) fun d hd ↦ hs d (List.mem_cons_of_mem c hd)
      rwa [List.append_assoc, List.singleton_append, List.length_append] at hrest

theorem drop (h : IsString mem p (s ++ t)) : IsString mem (p + s.length) t := by
  induction s generalizing p with
  | nil => exact h
  | cons c s ih =>
      obtain ⟨-, -, hs⟩ := h
      have := ih hs
      rwa [List.length_cons, Nat.add_comm s.length 1, ← Nat.add_assoc]

/-- A NUL behind `s` cuts the string. -/
theorem cut (h : IsString mem p (s ++ t)) :
    IsString (Function.update mem (p + s.length) 0) p s := by
  induction s generalizing p with
  | nil => exact Function.update_self _ _ _
  | cons c s ih =>
      obtain ⟨hp, hc, hs⟩ := h
      have hne : p ≠ p + (c :: s).length := by
        rw [List.length_cons]
        omega
      refine ⟨(Function.update_of_ne hne _ _).trans hp, hc, ?_⟩
      have := ih hs
      rwa [List.length_cons, Nat.add_comm s.length 1, ← Nat.add_assoc]

theorem eq_zero_iff (h : IsString mem p s) : mem p = 0 ↔ s = [] := by
  cases s with
  | nil => exact iff_of_true h rfl
  | cons c s => exact iff_of_false (h.1 ▸ h.2.1) (List.cons_ne_nil c s)

/-- A loop over the characters of a string stops within it. -/
theorem skipWhile (test : UInt8 → Bool) (hnul : test 0 = false) (h : IsString mem p s) {fuel : ℕ}
    (hfuel : s.length < fuel) :
    Shell.skipWhile test mem fuel p = .done (p + (s.takeWhile test).length) := by
  induction s generalizing p fuel with
  | nil =>
      obtain ⟨fuel, rfl⟩ : ∃ k, fuel = k + 1 := ⟨fuel - 1, by omega⟩
      have h : mem p = 0 := h
      rw [Shell.skipWhile, h, hnul]
      rfl
  | cons c s ih =>
      obtain ⟨hp, hc, hs⟩ := h
      rw [List.length_cons] at hfuel
      obtain ⟨fuel, rfl⟩ : ∃ k, fuel = k + 1 := ⟨fuel - 1, by omega⟩
      rw [Shell.skipWhile, hp]
      cases htest : test c with
      | true =>
          rw [if_pos rfl, ih hs (by omega), List.takeWhile_cons_of_pos htest, List.length_cons]
          congr 1
          omega
      | false =>
          rw [if_neg nofun, List.takeWhile_cons_of_neg (by rw [htest]; nofun)]
          rfl

end IsString

/-! ## The arguments -/

/-- The arguments that `parse` finds in `s` when `m` more can be stored. -/
def argsOf : ℕ → List UInt8 → List (List UInt8)
  | 0, _ => []
  | m + 1, s =>
      let t := s.dropWhile (· = chSpace)
      if t = [] then []
      else if m = 0 then [t]
      else t.takeWhile (· ≠ chSpace) :: argsOf m ((t.dropWhile (· ≠ chSpace)).drop 1)

section Parse

variable {mem : Bytes} {p fuel m : ℕ} {argv : List ℕ} {s t w : List UInt8}

theorem argsOf_nil (m : ℕ) : argsOf m [] = [] := by
  cases m <;> rfl

theorem parseLoop_end (h : mem p = 0) : parseLoop fuel (m + 1) mem p argv = .done (argv, mem) := by
  rw [parseLoop, if_pos h]

/-- A string without NUL has no other end of a word than a space. -/
theorem takeWhile_word (h : ∀ c ∈ t, c ≠ 0) :
    t.takeWhile (fun c ↦ c ≠ 0 ∧ c ≠ chSpace) = t.takeWhile (· ≠ chSpace) := by
  induction t with
  | nil => rfl
  | cons c t ih =>
      have hc : c ≠ 0 := h c List.mem_cons_self
      have hrest := ih fun x hx ↦ h x (List.mem_cons_of_mem c hx)
      by_cases hspace : c = chSpace
      · simp [hspace]
      · simp [hc, hspace] at hrest ⊢
        exact hrest

/-- A word and what is behind it: the word is ended, the loop goes on, and nothing before the
end is touched again. -/
theorem parseLoop_word (h : IsString mem p t) (hfuel : t.length < fuel)
    (ih : ∀ {mem : Bytes} {p : ℕ} {argv : List ℕ} {s : List UInt8}, IsString mem p s →
      argv.length + m = argsMax → s.length < fuel → ∃ ptrs mem',
        parseLoop fuel (m + 1) mem p argv = .done (argv ++ ptrs, mem') ∧
          (∀ a < p, mem' a = mem a) ∧ List.Forall₂ (IsString mem') ptrs (argsOf m s))
    (hargv : argv.length + m = argsMax) :
    ∃ ptrs mem', (do
        let q ← skipWhile (fun c ↦ c ≠ 0 ∧ c ≠ chSpace) mem fuel p
        if mem q ≠ 0 then parseLoop fuel (m + 1) (Function.update mem q 0) (q + 1) argv
        else parseLoop fuel (m + 1) mem q argv) = .done (argv ++ ptrs, mem') ∧
      (∀ a < p, mem' a = mem a) ∧ IsString mem' p (t.takeWhile (· ≠ chSpace)) ∧
      List.Forall₂ (IsString mem') ptrs (argsOf m ((t.dropWhile (· ≠ chSpace)).drop 1)) := by
  have hsplit : t.takeWhile (· ≠ chSpace) ++ t.dropWhile (· ≠ chSpace) = t :=
    List.takeWhile_append_dropWhile
  have hskip := h.skipWhile (fun c ↦ c ≠ 0 ∧ c ≠ chSpace) (by decide) hfuel
  rw [takeWhile_word h.nul_notMem] at hskip
  generalize t.takeWhile (· ≠ chSpace) = w at hsplit hskip ⊢
  generalize t.dropWhile (· ≠ chSpace) = r at hsplit ⊢
  subst hsplit
  rw [hskip, Outcome.done_bind]
  have hrest := h.drop
  cases r with
  | nil =>
      have hend : mem (p + w.length) = 0 := hrest
      rw [if_neg (not_not_intro hend), parseLoop_end hend]
      rw [List.append_nil] at h
      refine ⟨[], mem, by rw [List.append_nil], fun _ _ ↦ rfl, h, ?_⟩
      rw [List.drop_nil, argsOf_nil]
      exact .nil
  | cons c r =>
      obtain ⟨hp, hc, hr⟩ := hrest
      rw [List.length_append, List.length_cons] at hfuel
      have hr' : IsString (Function.update mem (p + w.length) 0) (p + w.length + 1) r :=
        hr.congr fun a ha _ ↦ Function.update_of_ne (by omega) _ _
      obtain ⟨ptrs, mem', hloop, hbefore, hargs⟩ := ih hr' hargv (by omega)
      rw [if_pos (by rw [hp]; exact hc), hloop]
      refine ⟨ptrs, mem', rfl, fun a ha ↦ ?_, ?_, hargs⟩
      · rw [hbefore a (by omega), Function.update_of_ne (by omega)]
      · exact h.cut.congr fun a _ ha ↦ hbefore a (by omega)

theorem parseLoop_spec (m : ℕ) {mem : Bytes} {p : ℕ} {argv : List ℕ} {s : List UInt8}
    (h : IsString mem p s) (hargv : argv.length + m = argsMax) (hm : m ≠ 0)
    (hfuel : s.length < fuel) :
    ∃ ptrs mem', parseLoop fuel (m + 1) mem p argv = .done (argv ++ ptrs, mem') ∧
      (∀ a < p, mem' a = mem a) ∧ List.Forall₂ (IsString mem') ptrs (argsOf m s) := by
  induction m generalizing mem p argv s with
  | zero => exact absurd rfl hm
  | succ m ih =>
      have hnone : s.dropWhile (· = chSpace) = [] →
          ∃ ptrs mem', (.done (argv, mem) : Outcome (List ℕ × Bytes)) = .done (argv ++ ptrs, mem') ∧
            (∀ a < p, mem' a = mem a) ∧
            List.Forall₂ (IsString mem') ptrs (argsOf (m + 1) s) := by
        intro hdrop
        refine ⟨[], mem, by rw [List.append_nil], fun _ _ ↦ rfl, ?_⟩
        rw [argsOf, hdrop]
        exact .nil
      rw [parseLoop]
      by_cases hend : mem p = 0
      · rw [if_pos hend]
        refine hnone ?_
        rw [h.eq_zero_iff.mp hend]
        rfl
      rw [if_neg hend, h.skipWhile (· = chSpace) (by decide) hfuel, Outcome.done_bind]
      have hsplit : s.takeWhile (· = chSpace) ++ s.dropWhile (· = chSpace) = s :=
        List.takeWhile_append_dropWhile
      rw [← hsplit] at h
      have ht := h.drop
      have hlength : (s.dropWhile (· = chSpace)).length ≤ s.length := by
        conv_rhs => rw [← hsplit]
        rw [List.length_append]
        omega
      by_cases hend' : mem (p + (s.takeWhile (· = chSpace)).length) = 0
      · rw [if_pos hend']
        exact hnone (ht.eq_zero_iff.mp hend')
      rw [if_neg hend']
      have hne : s.dropWhile (· = chSpace) ≠ [] := fun h ↦ hend' (ht.eq_zero_iff.mpr h)
      have hlast : (argv ++ [p + (s.takeWhile (· = chSpace)).length]).length = argsMax ↔ m = 0 := by
        rw [List.length_append, List.length_singleton]
        omega
      rw [argsOf, if_neg hne]
      dsimp only
      by_cases hm' : m = 0
      · rw [if_pos (hlast.mpr hm'), if_pos hm']
        exact ⟨[_], mem, rfl, fun _ _ ↦ rfl, .cons ht .nil⟩
      · rw [if_neg (mt hlast.mp hm'), if_neg hm']
        have hargv' : (argv ++ [p + (s.takeWhile (· = chSpace)).length]).length + m = argsMax := by
          rw [List.length_append, List.length_singleton]
          omega
        obtain ⟨ptrs, mem', hword, hbefore, hfirst, hargs⟩ := parseLoop_word ht (by omega)
          (fun h hargv hfuel ↦ ih h hargv hm' hfuel) hargv'
        refine ⟨_ :: ptrs, mem', ?_, fun a ha ↦ hbefore a (by omega), .cons hfirst hargs⟩
        rw [hword, List.append_assoc]
        rfl

/-- `parse` returns, and its pointers are to the arguments of the line. -/
theorem parse_spec (h : IsString mem p s) (hfuel : s.length < fuel) :
    ∃ argv mem', parse fuel mem p = .done (argv, mem') ∧
      List.Forall₂ (IsString mem') argv (argsOf argsMax s) := by
  have hargv : ([] : List ℕ).length + argsMax = argsMax := Nat.zero_add argsMax
  obtain ⟨ptrs, mem', hparse, -, hargs⟩ := parseLoop_spec argsMax h hargv (by decide) hfuel
  exact ⟨ptrs, mem', hparse, hargs⟩

end Parse

/-! ## Words -/

/-- The maximal runs of characters that are not spaces. -/
def words (s : List UInt8) : List (List UInt8) := (s.splitOn chSpace).filter (· ≠ [])

/-- The words with single spaces between them. -/
abbrev unwords (ws : List (List UInt8)) : List UInt8 := List.intercalate [chSpace] ws

def IsWords (ws : List (List UInt8)) : Prop := ∀ w ∈ ws, w ≠ [] ∧ chSpace ∉ w

section Words

variable {s w r : List UInt8} {ws : List (List UInt8)} {m : ℕ}

theorem words_space (s : List UInt8) : words (chSpace :: s) = words s := by
  have hsplit : ([] ++ chSpace :: s).splitOn chSpace = [] :: s.splitOn chSpace :=
    List.splitOnP_append_cons_of_forall_mem nofun chSpace (by decide) s
  rw [List.nil_append] at hsplit
  rw [words, hsplit]
  rfl

theorem words_dropWhile (s : List UInt8) : words (s.dropWhile (· = chSpace)) = words s := by
  induction s with
  | nil => rfl
  | cons c s ih =>
      by_cases hc : c = chSpace
      · rw [List.dropWhile_cons_of_pos (by simpa using hc), ih, hc, words_space]
      · rw [List.dropWhile_cons_of_neg (by simpa using hc)]

theorem not_space (hw : chSpace ∉ w) : ∀ c ∈ w, (c == chSpace) = false := by
  intro c hc
  rw [beq_eq_false_iff_ne]
  rintro rfl
  exact hw hc

theorem words_single (hne : w ≠ []) (hw : chSpace ∉ w) : words w = [w] := by
  have hsplit : w.splitOn chSpace = [w] := List.splitOnP_eq_singleton (not_space hw)
  rw [words, hsplit]
  simp [hne]

theorem words_append (hne : w ≠ []) (hw : chSpace ∉ w) (r : List UInt8) :
    words (w ++ chSpace :: r) = w :: words r := by
  have hsplit : (w ++ chSpace :: r).splitOn chSpace = w :: r.splitOn chSpace :=
    List.splitOnP_append_cons_of_forall_mem (not_space hw) chSpace (by decide) r
  rw [words, hsplit]
  simp [hne, words]

/-- The first word of a string that does not begin with a space. -/
theorem words_first (hne : s ≠ []) (hhead : ∀ c ∈ s.head?, c ≠ chSpace) :
    words s = s.takeWhile (· ≠ chSpace) :: words ((s.dropWhile (· ≠ chSpace)).drop 1) := by
  have hsplit : s.takeWhile (· ≠ chSpace) ++ s.dropWhile (· ≠ chSpace) = s :=
    List.takeWhile_append_dropWhile
  have hw : chSpace ∉ s.takeWhile (· ≠ chSpace) := fun hmem ↦ by
    simpa using List.mem_takeWhile_imp hmem
  have hw' : s.takeWhile (· ≠ chSpace) ≠ [] := by
    cases s with
    | nil => exact absurd rfl hne
    | cons c s =>
        rw [List.takeWhile_cons_of_pos (by simpa using hhead c rfl)]
        exact List.cons_ne_nil _ _
  have hstop := List.head?_dropWhile_not (· ≠ chSpace) s
  conv_lhs => rw [← hsplit]
  cases hrest : s.dropWhile (· ≠ chSpace) with
  | nil =>
      rw [List.append_nil, words_single hw' hw]
      rfl
  | cons c r =>
      rw [hrest] at hstop
      obtain rfl : c = chSpace := by simpa using hstop
      exact words_append hw' hw r

theorem head_dropWhile_space (s : List UInt8) :
    ∀ c ∈ (s.dropWhile (· = chSpace)).head?, c ≠ chSpace := by
  intro c hc
  have hstop := List.head?_dropWhile_not (· = chSpace) s
  rw [Option.mem_def.mp hc] at hstop
  simpa using hstop

/-- A line with fewer words than there is room for is split into its words. -/
theorem argsOf_eq_words (hm : (words s).length ≤ m) : argsOf (m + 1) s = words s := by
  induction m generalizing s with
  | zero =>
      rw [argsOf, ← words_dropWhile]
      by_cases hempty : s.dropWhile (· = chSpace) = []
      · rw [if_pos hempty, hempty]
        rfl
      · rw [← words_dropWhile, words_first hempty (head_dropWhile_space s)] at hm
        exact absurd hm (by simp)
  | succ m ih =>
      rw [argsOf, ← words_dropWhile]
      by_cases hempty : s.dropWhile (· = chSpace) = []
      · rw [if_pos hempty, hempty]
        rfl
      · rw [← words_dropWhile, words_first hempty (head_dropWhile_space s), List.length_cons] at hm
        rw [if_neg hempty, if_neg (Nat.succ_ne_zero m), ih (by omega),
          words_first hempty (head_dropWhile_space s)]

theorem unwords_cons (w : List UInt8) (hws : ws ≠ []) :
    unwords (w :: ws) = w ++ chSpace :: unwords ws := by
  cases ws with
  | nil => exact absurd rfl hws
  | cons w' ws => rw [unwords, List.intercalate_cons_cons, List.append_assoc]; rfl

/-- A line of words does not begin with a space. -/
theorem unwords_start (hw : w ≠ [] ∧ chSpace ∉ w) (ws : List (List UInt8)) :
    unwords (w :: ws) ≠ [] ∧ (unwords (w :: ws)).dropWhile (· = chSpace) = unwords (w :: ws) := by
  obtain ⟨hne, hspace⟩ := hw
  obtain ⟨r, hr⟩ : ∃ r, unwords (w :: ws) = w ++ r := by
    by_cases hws : ws = []
    · exact ⟨[], by rw [hws, unwords, List.intercalate_singleton, List.append_nil]⟩
    · exact ⟨_, unwords_cons w hws⟩
  rw [hr]
  cases w with
  | nil => exact absurd rfl hne
  | cons c w =>
      refine ⟨List.cons_ne_nil _ _, List.dropWhile_cons_of_neg ?_⟩
      rw [decide_eq_true_eq]
      rintro rfl
      exact hspace List.mem_cons_self

theorem argsOf_unwords (hw : w ≠ [] ∧ chSpace ∉ w) (ws : List (List UInt8)) (hm : m ≠ 0) :
    argsOf (m + 1) (unwords (w :: ws)) = w :: argsOf m (unwords ws) := by
  obtain ⟨hne, hstart⟩ := unwords_start hw ws
  have hword : ∀ c ∈ w, decide (c ≠ chSpace) = true := by
    intro c hc
    rw [decide_eq_true_eq]
    rintro rfl
    exact hw.2 hc
  rw [argsOf, hstart, if_neg hne, if_neg hm]
  by_cases hws : ws = []
  · have hline : unwords (w :: ws) = w ++ [] := by
      rw [hws, unwords, List.intercalate_singleton, List.append_nil]
    rw [hline, takeWhile_append_stop hword (by simp),
      dropWhile_append_stop hword (by simp), hws]
    rfl
  · have hstop : ∀ c ∈ (chSpace :: unwords ws).head?, decide (c ≠ chSpace) = false := by simp
    rw [unwords_cons w hws, takeWhile_append_stop hword hstop, dropWhile_append_stop hword hstop]
    rfl

/-- The arguments of a line of words make up the line, however many words there are. -/
theorem unwords_argsOf (hws : IsWords ws) : unwords (argsOf (m + 1) (unwords ws)) = unwords ws := by
  induction m generalizing ws with
  | zero =>
      cases ws with
      | nil => rfl
      | cons w ws =>
          obtain ⟨hne, hstart⟩ := unwords_start (hws w List.mem_cons_self) ws
          rw [argsOf, hstart, if_neg hne, if_pos rfl]
          exact List.intercalate_singleton
  | succ m ih =>
      cases ws with
      | nil => rfl
      | cons w ws =>
          have hrest := ih fun x hx ↦ hws x (List.mem_cons_of_mem w hx)
          rw [argsOf_unwords (hws w List.mem_cons_self) ws (Nat.succ_ne_zero m)]
          cases ws with
          | nil => rfl
          | cons w' ws =>
              obtain ⟨hne, -⟩ := unwords_start (hws w' (by simp)) ws
              rw [unwords_cons w fun hnil ↦ hne (by rw [← hrest, hnil]; rfl), hrest,
                unwords_cons w (List.cons_ne_nil w' ws)]

end Words

/-! ## The text of `write` -/

section Write

variable {st st' : State} {path : List UInt8} {ws : List (List UInt8)} {out : String}

/-- Unless it fails before, `cmd_write` hands its buffer to `fat32_write_file`. -/
theorem cmdWrite_stores (hws : ws ≠ []) (hrun : cmdWrite st (path :: ws) = .done (out, st')) :
    out = notMounted ∨ out = "write: out of heap\n" ∨ out = "write: invalid path\n" ∨
      ∃ r data q, pathToParentAndBase st.vol path = .done r ∧
        fat32WriteFile r.vol r.base data (writeText ws).length = .done q ∧
        (∀ i < (writeText ws).length, data i = (writeText ws).getD i 0) ∧
        st'.vol = fat32SetCwdCluster q.2 r.saved := by
  rw [cmdWrite] at hrun
  swap
  · exact hws
  by_cases hmounted : st.vol.mounted = true
  swap
  · rw [if_pos hmounted] at hrun
    cases hrun
    exact Or.inl rfl
  rw [if_neg (not_not_intro hmounted)] at hrun
  obtain ⟨⟨buf, h₁⟩, -, hrun⟩ := Outcome.bind_eq_done_iff.mp hrun
  dsimp only at hrun
  split_ifs at hrun with hbuf
  · cases hrun
    exact Or.inr (Or.inl rfl)
  obtain ⟨r, hpath, hrun⟩ := Outcome.bind_eq_done_iff.mp hrun
  split_ifs at hrun with hcode
  · obtain ⟨h₂, -, hrun⟩ := Outcome.bind_eq_done_iff.mp hrun
    cases hrun
    exact Or.inr (Or.inr (Or.inl rfl))
  obtain ⟨q, hwrite, hrun⟩ := Outcome.bind_eq_done_iff.mp hrun
  obtain ⟨h₂, -, hrun⟩ := Outcome.bind_eq_done_iff.mp hrun
  refine Or.inr (Or.inr (Or.inr ⟨r, _, q, hpath, hwrite, fun i hi ↦ ?_, ?_⟩))
  · rw [Bytes.blit_apply (by omega) (by omega), Nat.add_sub_cancel_left]
  · split_ifs at hrun <;> cases hrun <;> rfl

theorem writeText_eq (ws : List (List UInt8)) (hfits : (unwords ws).length < writeBufSize) :
    writeText ws = unwords ws ++ [0x0A] := by
  rw [writeText]
  refine List.take_of_length_le ?_
  rw [List.length_append, List.length_singleton]
  exact hfits

end Write

/-- A line is split without loss: with at most fifteen words its arguments are the words, and a
line of single-spaced words is its arguments with spaces between them.  So `write` stores the text
behind the path and a newline. -/
theorem parse_without_loss {mem : Bytes} {line fuel : ℕ} {s : List UInt8}
    (hline : IsString mem line s) (hfuel : s.length < fuel) :
    ∃ argv mem' args, parse fuel mem line = .done (argv, mem') ∧
      List.Forall₂ (IsString mem') argv args ∧
      ((words s).length ≤ 15 → args = words s) ∧
      ∀ ws, IsWords ws → s = unwords ws →
        unwords args = s ∧
        ∀ name path rest, ws = name :: path :: rest → rest ≠ [] →
          (unwords rest).length < writeBufSize →
          ∀ st st' out, cmdWrite st args.tail = .done (out, st') →
            out = notMounted ∨ out = "write: out of heap\n" ∨ out = "write: invalid path\n" ∨
              ∃ r data q, pathToParentAndBase st.vol path = .done r ∧
                fat32WriteFile r.vol r.base data ((unwords rest).length + 1) = .done q ∧
                (∀ i < (unwords rest).length + 1, data i = (unwords rest ++ [0x0A]).getD i 0) ∧
                st'.vol = fat32SetCwdCluster q.2 r.saved := by
  obtain ⟨argv, mem', hparse, hargs⟩ := parse_spec hline hfuel
  refine ⟨argv, mem', argsOf argsMax s, hparse, hargs, argsOf_eq_words, ?_⟩
  rintro ws hws rfl
  refine ⟨unwords_argsOf hws, ?_⟩
  rintro name path rest rfl hrest hfits st st' out hrun
  have htwo : argsOf argsMax (unwords (name :: path :: rest)) =
      name :: path :: argsOf 14 (unwords rest) := by
    rw [argsMax, argsOf_unwords (hws name (by simp)) _ (by decide),
      argsOf_unwords (hws path (by simp)) _ (by decide)]
  have hrest' : unwords (argsOf 14 (unwords rest)) = unwords rest :=
    unwords_argsOf fun w hw ↦ hws w (by simp [hw])
  have hargs' : argsOf 14 (unwords rest) ≠ [] := by
    intro hnil
    cases rest with
    | nil => exact hrest rfl
    | cons w rest =>
        rw [hnil] at hrest'
        exact (unwords_start (hws w (by simp)) rest).1 hrest'.symm
  rw [htwo] at hrun
  have hstores := cmdWrite_stores hargs' hrun
  have htext := writeText_eq (argsOf 14 (unwords rest)) (by rwa [hrest'])
  rw [hrest'] at htext
  rwa [htext, List.length_append, List.length_singleton] at hstores

/-- `w B a … a`, a line of seventeen words. -/
def longLine : List UInt8 := unwords ([0x77] :: [0x42] :: List.replicate 15 [0x61])

/-- The shell on a volume with an empty root and one free cluster. -/
def freshShell : State :=
  ⟨smallVol 2 [(2, 0x0FFFFFFF)] [], Heap.kheapInit Heap.lowArena fun _ ↦ 0, [chSlash]⟩

/-- The last of the sixteen arguments has two words, and the file `B` gets all fifteen. -/
theorem parse_without_loss_long : (words longLine).length = 17 ∧
    ∃ argv mem' args, parse 36 (fun i ↦ longLine.getD i 0) 0 = .done (argv, mem') ∧
      List.Forall₂ (IsString mem') argv args ∧ args.length = 16 ∧ unwords args = longLine ∧
      ∃ out st' r data q, cmdWrite freshShell args.tail = .done (out, st') ∧
        pathToParentAndBase freshShell.vol [0x42] = .done r ∧
        fat32WriteFile r.vol r.base data 30 = .done q ∧
        (∀ i < 30, data i = (longLine.drop 4 ++ [0x0A]).getD i 0) ∧
        st'.vol = fat32SetCwdCluster q.2 r.saved := by
  have hline : IsString (fun i ↦ longLine.getD i 0) 0 longLine :=
    IsString.of_list (t := []) (by decide)
  obtain ⟨argv, mem', args, hparse, hargs, -, hsplit⟩ :=
    parse_without_loss hline (show longLine.length < 36 by decide)
  -- the arguments are those of `argsOf`, which can be computed
  obtain ⟨argv', mem'', hparse', hargs'⟩ := parse_spec hline (show longLine.length < 36 by decide)
  rw [hparse] at hparse'
  cases hparse'
  have hone : Relator.RightUnique (IsString mem') := fun _ _ _ hs ht ↦ hs.unique ht
  obtain rfl : args = argsOf argsMax longLine := hone.forall₂ hargs hargs'
  obtain ⟨hunwords, hwrite⟩ :=
    hsplit ([0x77] :: [0x42] :: List.replicate 15 [0x61]) (by unfold IsWords; decide) rfl
  have hcalls : (cmdWrite freshShell (argsOf argsMax longLine).tail).value?.map (fun a ↦
      decide (a.1 ∈ [notMounted, "write: out of heap\n", "write: invalid path\n"])) =
        some false := by decide +kernel
  obtain ⟨⟨out, st'⟩, hvalue, hout⟩ := Option.map_eq_some_iff.mp hcalls
  have hrun := Outcome.value?_eq_some.mp hvalue
  have hnot := of_decide_eq_false hout
  rcases hwrite [0x77] [0x42] (List.replicate 15 [0x61]) rfl (by decide) (by decide) freshShell st'
    out hrun with rfl | rfl | rfl | ⟨r, data, q, hpath, hfile, hdata, hvol⟩
  · exact absurd (by simp) hnot
  · exact absurd (by simp) hnot
  · exact absurd (by simp) hnot
  · exact ⟨by decide +kernel, argv, mem', _, hparse, hargs, by decide +kernel, hunwords, out, st',
      r, data, q, hrun, hpath, hfile, hdata, hvol⟩

end MyOS.Shell
