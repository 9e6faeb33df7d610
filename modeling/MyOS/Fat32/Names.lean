import MyOS.Fat32.Dirent
import Mathlib.Data.List.GetD

/-!
# Names and short names

The read path formats the short name of an entry and compares it with the given string; the
write path turns the string into a short name and compares the eleven bytes.  Both ignore
case.  They agree on the plain names: those that come back, up to case, when they are turned
into a short name and formatted again.
-/

namespace MyOS.Fat32

open Bytes

variable {a b name base ext n : List UInt8} {k : ℕ}

/-! ## Case -/

theorem toUpper_toUpper : ∀ c : UInt8, toUpper (toUpper c) = toUpper c := by
  apply forall_byte
  decide +kernel

theorem strEqCi_iff : strEqCi a b = true ↔ a.map toUpper = b.map toUpper := by
  induction a generalizing b with
  | nil => cases b <;> simp [strEqCi]
  | cons x a ih =>
      cases b with
      | nil => simp [strEqCi]
      | cons y b =>
          by_cases hxy : toUpper x = toUpper y
          · simp [strEqCi, hxy, ih]
          · simp [strEqCi, hxy]

theorem map_takeWhile_dot (s : List UInt8) :
    (s.map toUpper).takeWhile (· ≠ chDot) = (s.takeWhile (· ≠ chDot)).map toUpper := by
  rw [List.takeWhile_map]
  congr 2
  funext c
  simp [toUpper_eq_dot]

theorem map_dropWhile_dot (s : List UInt8) :
    (s.map toUpper).dropWhile (· ≠ chDot) = (s.dropWhile (· ≠ chDot)).map toUpper := by
  rw [List.dropWhile_map]
  congr 2
  funext c
  simp [toUpper_eq_dot]

theorem map_toUpper_map_toUpper (s : List UInt8) :
    (s.map toUpper).map toUpper = s.map toUpper := by
  rw [List.map_map]
  exact List.map_congr_left fun c _ ↦ toUpper_toUpper c

/-- A short name does not depend on the case of the name. -/
theorem toShortName_map_toUpper (name : List UInt8) :
    toShortName (name.map toUpper) = toShortName name := by
  simp only [toShortName, map_takeWhile_dot, map_dropWhile_dot, ← List.map_take, ← List.map_drop,
    map_toUpper_map_toUpper]

theorem toShortName_congr (h : strEqCi a b = true) : toShortName a = toShortName b := by
  rw [← toShortName_map_toUpper a, strEqCi_iff.mp h, toShortName_map_toUpper]

/-! ## Plain names -/

/-- The name is the formatted short name that it is turned into, up to case. -/
def Plain (name : List UInt8) : Prop := strEqCi (formatShortName (toShortName name)) name = true

instance (name : List UInt8) : Decidable (Plain name) := inferInstanceAs (Decidable (_ = true))

/-- Of two names with one short name, one of them plain, the other is plain exactly when it
is the same name. -/
theorem plain_iff_of_shortName_eq (ha : Plain a) (hab : toShortName a = toShortName b) :
    Plain b ↔ strEqCi a b = true := by
  have ha' := strEqCi_iff.mp ha
  rw [Plain, strEqCi_iff, strEqCi_iff, ← hab, ha']

/-! ## Parts of a name -/

/-- At most `k` characters, none of them a space or a dot. -/
def IsPart (k : ℕ) (s : List UInt8) : Prop :=
  s.length ≤ k ∧ Ascii s ∧ ∀ c ∈ s, c ≠ chSpace ∧ c ≠ chDot

/-- At most `k` characters that end neither a string nor a part of a name. -/
def IsWord (k : ℕ) (s : List UInt8) : Prop :=
  s.length ≤ k ∧ ∀ c ∈ s, c ≠ 0 ∧ c ≠ chSpace ∧ c ≠ chDot

instance (k : ℕ) (s : List UInt8) : Decidable (IsPart k s) :=
  inferInstanceAs (Decidable (_ ∧ (∀ c ∈ s, c ≠ 0 ∧ c < 0x80) ∧ _))

instance (k : ℕ) (s : List UInt8) : Decidable (IsWord k s) := inferInstanceAs (Decidable (_ ∧ _))

theorem IsPart.word (h : IsPart k base) : IsWord k base :=
  ⟨h.1, fun c hc ↦ ⟨(h.2.1 c hc).1, h.2.2 c hc⟩⟩

def joinName (base ext : List UInt8) : List UInt8 :=
  if ext = [] then base else base ++ chDot :: ext

/-- One to eight characters, and up to three behind a dot. -/
def Valid83 (name : List UInt8) : Prop :=
  ∃ base ext, IsPart 8 base ∧ base ≠ [] ∧ IsPart 3 ext ∧ name = joinName base ext

theorem IsPart.valid83 (h : IsPart 8 base) (hne : base ≠ []) : Valid83 base :=
  ⟨base, [], h, hne, by decide, rfl⟩

/-- An upper-case short name of that form. -/
def CanonicalName (n : List UInt8) : Prop :=
  ∃ base ext, IsPart 8 base ∧ base ≠ [] ∧ IsPart 3 ext ∧ base.map toUpper = base ∧
    ext.map toUpper = ext ∧ n = padTo 8 base ++ padTo 3 ext

theorem toUpper_part : ∀ c : UInt8, (c ≠ 0 ∧ c < 0x80) ∧ c ≠ chSpace ∧ c ≠ chDot →
    (toUpper c ≠ 0 ∧ toUpper c < 0x80) ∧ toUpper c ≠ chSpace ∧ toUpper c ≠ chDot := by
  apply forall_byte
  decide +kernel

theorem IsPart.upper (h : IsPart k base) : IsPart k (base.map toUpper) := by
  obtain ⟨hlen, hascii, hchars⟩ := h
  have hall : ∀ c ∈ base.map toUpper, (c ≠ 0 ∧ c < 0x80) ∧ c ≠ chSpace ∧ c ≠ chDot := by
    intro c hc
    obtain ⟨x, hx, rfl⟩ := List.mem_map.mp hc
    exact toUpper_part x ⟨hascii x hx, hchars x hx⟩
  exact ⟨by simpa using hlen, fun c hc ↦ (hall c hc).1, fun c hc ↦ (hall c hc).2⟩

theorem map_joinName (base ext : List UInt8) :
    (joinName base ext).map toUpper = joinName (base.map toUpper) (ext.map toUpper) := by
  have hdot : toUpper chDot = chDot := by decide
  by_cases hnil : ext = []
  · simp [joinName, hnil]
  · simp [joinName, hnil, hdot]

theorem ascii_joinName (hbase : IsPart 8 base) (hext : IsPart 3 ext) :
    Ascii (joinName base ext) := by
  rw [joinName]
  split
  · exact hbase.2.1
  · intro x hx
    rcases List.mem_append.mp hx with hx | hx
    · exact hbase.2.1 x hx
    · rcases List.mem_cons.mp hx with rfl | hx
      · decide
      · exact hext.2.1 x hx

theorem nul_notMem_joinName (hbase : IsWord 8 base) (hext : IsWord 3 ext) :
    ∀ c ∈ joinName base ext, c ≠ 0 := by
  rw [joinName]
  split
  · exact fun c hc ↦ (hbase.2 c hc).1
  · intro c hc
    rcases List.mem_append.mp hc with hc | hc
    · exact (hbase.2 c hc).1
    · rcases List.mem_cons.mp hc with rfl | hc
      · decide
      · exact (hext.2 c hc).1

theorem takeWhile_append_stop {P : UInt8 → Bool} {s t : List UInt8} (hs : ∀ c ∈ s, P c = true)
    (ht : ∀ c ∈ t.head?, P c = false) : (s ++ t).takeWhile P = s := by
  rw [List.takeWhile_append_of_pos hs]
  cases t with
  | nil => simp
  | cons c t => simp [ht c rfl]

theorem dropWhile_append_stop {P : UInt8 → Bool} {s t : List UInt8} (hs : ∀ c ∈ s, P c = true)
    (ht : ∀ c ∈ t.head?, P c = false) : (s ++ t).dropWhile P = t := by
  rw [List.dropWhile_append_of_pos hs]
  cases t with
  | nil => simp
  | cons c t => simp [ht c rfl]

theorem toShortName_joinName (hbase : IsWord 8 base) (hext : IsWord 3 ext) :
    toShortName (joinName base ext) = padTo 8 (base.map toUpper) ++ padTo 3 (ext.map toUpper) := by
  have hdot : ∀ c ∈ base, (decide (c ≠ chDot)) = true := fun c hc ↦ by
    simpa using (hbase.2 c hc).2.2
  have hsplit : joinName base ext = base ++ if ext = [] then [] else chDot :: ext := by
    rw [joinName]
    split <;> simp
  have hstop : ∀ c ∈ (if ext = [] then [] else chDot :: ext).head?, decide (c ≠ chDot) = false := by
    split <;> simp
  rw [toShortName, hsplit, takeWhile_append_stop hdot hstop, dropWhile_append_stop hdot hstop,
    List.take_of_length_le hbase.1]
  by_cases hnil : ext = []
  · simp [hnil]
  · simp [hnil, List.take_of_length_le hext.1]

theorem padTo_takeWhile (h : IsWord k base) : (padTo k base).takeWhile (· ≠ chSpace) = base := by
  refine takeWhile_append_stop (fun c hc ↦ by simpa using (h.2 c hc).2.1) ?_
  intro c hc
  have hmem := List.mem_of_mem_head? hc
  simp [List.eq_of_mem_replicate hmem]

theorem formatShortName_pad (hbase : IsWord 8 base) (hext : IsWord 3 ext) :
    formatShortName (padTo 8 base ++ padTo 3 ext) = joinName base ext := by
  have hlen : (padTo 8 base).length = 8 := padTo_length hbase.1
  have htake : (padTo 8 base ++ padTo 3 ext).take 8 = padTo 8 base := List.take_left' hlen
  have hdrop : (padTo 8 base ++ padTo 3 ext).drop 8 = padTo 3 ext := List.drop_left' hlen
  have hget : (padTo 8 base ++ padTo 3 ext).getD 8 0 = (padTo 3 ext).getD 0 0 := by
    rw [List.getD_append_right _ _ _ _ hlen.le, hlen]
  have hnul : (joinName base ext).takeWhile (· ≠ 0) = joinName base ext := by
    refine List.takeWhile_eq_self_iff.mpr fun c hc ↦ ?_
    simpa using nul_notMem_joinName hbase hext c hc
  simp only [formatShortName, htake, hdrop, hget, padTo_takeWhile hbase, padTo_takeWhile hext]
  cases ext with
  | nil =>
      have hblank : (padTo 3 []).getD 0 0 = chSpace := rfl
      rw [if_neg (not_not_intro hblank)]
      exact hnul
  | cons c ext =>
      have hc : c ≠ chSpace := (hext.2 c List.mem_cons_self).2.1
      have hhead : (padTo 3 (c :: ext)).getD 0 0 = c := rfl
      have hjoin : joinName base (c :: ext) = base ++ chDot :: c :: ext := if_neg (by simp)
      rw [if_pos (by rwa [hhead]), ← hjoin, hnul]

/-- A valid 8.3 name comes back in upper case. -/
theorem Valid83.format_toShortName (h : Valid83 name) :
    formatShortName (toShortName name) = name.map toUpper := by
  obtain ⟨base, ext, hbase, -, hext, rfl⟩ := h
  rw [toShortName_joinName hbase.word hext.word,
    formatShortName_pad hbase.upper.word hext.upper.word, map_joinName]

theorem Valid83.plain (h : Valid83 name) : Plain name := by
  rw [Plain, strEqCi_iff, h.format_toShortName, map_toUpper_map_toUpper]

theorem Valid83.ascii (h : Valid83 name) : Ascii name := by
  obtain ⟨base, ext, hbase, -, hext, rfl⟩ := h
  exact ascii_joinName hbase hext

/-- An upper-case short name is the one that its formatted form is turned into. -/
theorem toShortName_format_pad (hbase : IsWord 8 base) (hext : IsWord 3 ext)
    (hub : base.map toUpper = base) (hue : ext.map toUpper = ext) :
    toShortName (formatShortName (padTo 8 base ++ padTo 3 ext)) = padTo 8 base ++ padTo 3 ext := by
  rw [formatShortName_pad hbase hext, toShortName_joinName hbase hext, hub, hue]

theorem CanonicalName.toShortName_format (h : CanonicalName n) :
    toShortName (formatShortName n) = n := by
  obtain ⟨base, ext, hbase, -, hext, hub, hue, rfl⟩ := h
  exact toShortName_format_pad hbase.word hext.word hub hue

/-- Among canonical names, a plain name matches its own short name and no other. -/
theorem CanonicalName.matches_iff (h : CanonicalName n) (hname : Plain name) :
    strEqCi (formatShortName n) name = true ↔ n = toShortName name := by
  constructor
  · intro hmatch
    rw [← toShortName_congr hmatch, h.toShortName_format]
  · rintro rfl
    exact hname

/-! ## Round trips -/

/-- Eleven bytes: one to eight characters and up to three more, both padded with spaces, and no
lower-case letter among them. -/
def RawName (raw : List UInt8) : Prop :=
  ∃ base ext, IsWord 8 base ∧ base ≠ [] ∧ IsWord 3 ext ∧
    (∀ c ∈ base ++ ext, ¬(0x61 ≤ c ∧ c ≤ 0x7A)) ∧ raw = padTo 8 base ++ padTo 3 ext

theorem map_toUpper_eq_self (h : ∀ c ∈ base, ¬(0x61 ≤ c ∧ c ≤ 0x7A)) :
    base.map toUpper = base := by
  have hid : base.map toUpper = base.map id := List.map_congr_left fun c hc ↦ if_neg (h c hc)
  rw [hid, List.map_id]

theorem short_names_round_trip :
    (∀ name, Valid83 name → formatShortName (toShortName name) = name.map toUpper) ∧
      (∀ raw, RawName raw → toShortName (formatShortName raw) = raw) ∧
      ∀ a b, Valid83 a → Valid83 b → (toShortName a = toShortName b ↔ strEqCi a b = true) := by
  refine ⟨fun name h ↦ h.format_toShortName, ?_, fun a b ha hb ↦ ⟨fun hab ↦ ?_, toShortName_congr⟩⟩
  · rintro raw ⟨base, ext, hbase, -, hext, hupper, rfl⟩
    refine toShortName_format_pad hbase hext (map_toUpper_eq_self fun c hc ↦ ?_)
      (map_toUpper_eq_self fun c hc ↦ ?_)
    · exact hupper c (List.mem_append_left ext hc)
    · exact hupper c (List.mem_append_right base hc)
  · exact (plain_iff_of_shortName_eq ha.plain hab).mp hb.plain

/-- The name `a.b`, and a raw name that fills all eleven bytes, one of them not ASCII. -/
theorem short_names_round_trip_examples :
    formatShortName (toShortName [0x61, chDot, 0x62]) = [0x61, chDot, 0x62].map toUpper ∧
      toShortName (formatShortName (List.replicate 10 0x41 ++ [0xE9])) =
        List.replicate 10 0x41 ++ [0xE9] ∧
      (toShortName [0x61, chDot, 0x62] = toShortName [0x41, chDot, 0x62] ↔
        strEqCi [0x61, chDot, 0x62] [0x41, chDot, 0x62] = true) := by
  have hlower : Valid83 [0x61, chDot, 0x62] :=
    ⟨[0x61], [0x62], by decide, by decide, by decide, rfl⟩
  have hupper : Valid83 [0x41, chDot, 0x62] :=
    ⟨[0x41], [0x62], by decide, by decide, by decide, rfl⟩
  refine ⟨short_names_round_trip.1 _ hlower, short_names_round_trip.2.1 _ ?_,
    short_names_round_trip.2.2 _ _ hlower hupper⟩
  exact ⟨List.replicate 8 0x41, [0x41, 0x41, 0xE9], by decide, by decide, by decide, by decide, rfl⟩

/-! ## The dot entries -/

/-- Dots have no case. -/
theorem eq_of_dots (h : a.map toUpper = b.map toUpper) (hdots : ∀ c ∈ a, c = chDot) : b = a := by
  have hlen : a.length = b.length := by simpa using congrArg List.length h
  refine List.ext_getElem hlen.symm fun i hi hi' ↦ ?_
  have hget : toUpper (a.get ⟨i, hi'⟩) = toUpper (b.get ⟨i, hi⟩) := by
    have := congrArg (fun t ↦ t[i]?) h
    simpa [hi, hi'] using this
  have hdot : a.get ⟨i, hi'⟩ = chDot := hdots _ (List.get_mem a _)
  rw [hdot, (toUpper_eq_dot chDot).mpr rfl] at hget
  have hb := (toUpper_eq_dot _).mp hget.symm
  simp only [List.get_eq_getElem] at hb hdot
  rw [hb, hdot]

/-- A name that matches one of the dot entries is `.` or `..`. -/
theorem matches_dot {e : Dirent} (he : e.IsDot)
    (h : strEqCi (formatShortName e.name) name = true) :
    e.name = dotName ∧ name = [chDot] ∨ e.name = dotdotName ∧ name = [chDot, chDot] := by
  rw [strEqCi_iff] at h
  rcases he with hname | hname
  · rw [hname] at h
    exact Or.inl ⟨hname, eq_of_dots h (by decide)⟩
  · rw [hname] at h
    exact Or.inr ⟨hname, eq_of_dots h (by decide)⟩

theorem not_plain_dot : ¬Plain [chDot] := by decide

theorem Valid83.ne_dots (h : Valid83 name) : name ≠ [chDot, chDot] := by
  rintro rfl
  obtain ⟨base, ext, hbase, hne, -, hjoin⟩ := h
  cases base with
  | nil => exact hne rfl
  | cons c base =>
      have hc : c = chDot := by
        rw [joinName] at hjoin
        split at hjoin
        · exact (List.cons.inj hjoin).1.symm
        · exact (List.cons.inj hjoin).1.symm
      exact (hbase.2.2 c List.mem_cons_self).2 hc

/-- The short name of `..` is not canonical: it has no base. -/
theorem not_canonical_dots : ¬CanonicalName (toShortName [chDot, chDot]) := by
  rintro ⟨base, ext, hbase, hne, -, -, -, hpad⟩
  cases base with
  | nil => exact hne rfl
  | cons c base =>
      have hc : chSpace = c := (List.cons.inj hpad).1
      exact (hbase.2.2 c List.mem_cons_self).1 hc.symm

end MyOS.Fat32
