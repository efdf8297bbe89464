import Retrace.Java.Numeral

/-! Where number literals end.

A character that no number literal has in it ends one: how a literal is measured does not depend on
what stands behind such a character (`numeral?_halts`). -/
namespace Retrace.Java.Numeral

/-- Behind so many characters the measure halts at the character, whatever follows. -/
def Halts (d : Char) (least : Nat) (f : List Char → Option Nat) : Prop :=
  ∀ u v, least ≤ u.length → f (u ++ d :: v) = f u

/-- What is measured is part of the text. -/
def Fits (f : List Char → Option Nat) : Prop := ∀ u n, f u = some n → n ≤ u.length

section Parts
variable {d : Char} {least : Nat} {f g : List Char → Option Nat}

theorem Halts.both (hf : Halts d least f) (hfits : Fits f) (hg : Halts d 0 g) :
    Halts d least (both f g) := by
  intro u v hu
  unfold Numeral.both
  rw [hf u v hu]
  cases hn : f u with
  | none => rfl
  | some n =>
    rw [Option.bind_some, Option.bind_some, List.drop_append_of_le_length (hfits _ _ hn),
      hg _ v (Nat.zero_le _)]

theorem Fits.both (hf : Fits f) (hg : Fits g) : Fits (both f g) := by
  intro u n h
  unfold Numeral.both at h
  obtain ⟨m, hm, h⟩ := Option.bind_eq_some_iff.mp h
  obtain ⟨k, hk, rfl⟩ := Option.map_eq_some_iff.mp h
  have hm := hf _ _ hm
  have hk := hg _ _ hk
  rw [List.length_drop] at hk
  omega

theorem Halts.maybe (hf : Halts d least f) : Halts d least (maybe f) := fun u v hu =>
  congrArg (fun n : Option Nat => some (n.getD 0)) (hf u v hu)

theorem Fits.maybe (hf : Fits f) : Fits (maybe f) := by
  intro u n h
  unfold Numeral.maybe at h
  obtain rfl := Option.some.inj h
  cases hn : f u with
  | none => exact Nat.zero_le _
  | some m => exact hf _ _ hn

theorem halts_oneOf {chars : List Char} (h : chars.contains d = false) :
    Halts d 0 (oneOf? chars) := by
  intro u v _
  cases u with
  | nil =>
    unfold oneOf? one
    rw [List.nil_append]
    dsimp only
    rw [h]
    rfl
  | cons c u => rfl

theorem fits_oneOf (chars : List Char) : Fits (oneOf? chars) := by
  intro u n h
  unfold oneOf? positive? at h
  split at h
  · cases h
    cases u with
    | nil =>
      rename_i hpos
      exact absurd hpos (Nat.lt_irrefl 0)
    | cons c u =>
      unfold one
      dsimp only
      rw [List.length_cons]
      split <;> omega
  · cases h

theorem separatedFrom_halts {p : Char → Bool} (hp : p d = false) (hunder : d ≠ '_') (many : Bool)
    (seen best gap : Nat) (u v : List Char) :
    separatedFrom p many seen best gap (u ++ d :: v) = separatedFrom p many seen best gap u := by
  induction u generalizing seen best gap with
  | nil =>
    rw [List.nil_append, separatedFrom, separatedFrom, hp]
    simp [hunder]
  | cons c u ih =>
    rw [List.cons_append, separatedFrom, separatedFrom, ih, ih]

theorem separatedFrom_le {p : Char → Bool} {many : Bool} {seen best gap : Nat} (h : best ≤ seen)
    (u : List Char) : separatedFrom p many seen best gap u ≤ seen + u.length := by
  induction u generalizing seen best gap with
  | nil =>
    rw [separatedFrom]
    exact Nat.le_trans h (Nat.le_add_right _ _)
  | cons c u ih =>
    rw [separatedFrom, List.length_cons]
    split
    · exact Nat.le_trans (ih (Nat.le_refl _)) (by omega)
    · split
      · exact Nat.le_trans (ih (by omega)) (by omega)
      · omega

theorem halts_digits {p : Char → Bool} (hp : p d = false) (hunder : d ≠ '_') :
    Halts d 0 (digits? p) := fun u v _ =>
  congrArg positive? (separatedFrom_halts hp hunder false 0 0 0 u v)

theorem fits_digits (p : Char → Bool) : Fits (digits? p) := by
  intro u n h
  unfold digits? positive? at h
  split at h
  · cases h
    exact Nat.le_trans (separatedFrom_le (Nat.le_refl 0) u) (by omega)
  · cases h

theorem halts_plain (hd : d.isDigit = false) (hunder : d ≠ '_') : Halts d 0 plain? := by
  intro u v _
  rcases u with _ | ⟨c, _ | ⟨c', u⟩⟩
  · have hzero : (d == '0') = false := by
      rw [beq_eq_false_iff_ne]
      rintro rfl
      cases hd
    unfold plain?
    simp [hzero, hd]
  · have hrest : separatedFrom Char.isDigit true 0 0 0 (d :: v) = 0 :=
      separatedFrom_halts hd hunder true 0 0 0 [] v
    unfold plain?
    simp only [List.cons_append, List.nil_append, hrest]
    split
    · rfl
    · split
      · rfl
      · simp [hunder, separatedFrom]
  · unfold plain?
    simp only [List.cons_append]
    rw [← List.cons_append, separatedFrom_halts hd hunder, List.cons_append]
    split
    · rfl
    · split
      · rfl
      · split
        · rfl
        · by_cases hc : c' = '_'
          · subst hc
            simp [separatedFrom_halts hd hunder]
          · simp [hc]

theorem fits_plain : Fits plain? := by
  intro u n h
  unfold plain? at h
  split at h
  · cases h
  · rename_i c cs
    rw [List.length_cons]
    split at h
    · cases h
      omega
    · split at h
      · cases h
      · have hle : ∀ cs : List Char, separatedFrom Char.isDigit true 0 0 0 cs ≤ 0 + cs.length :=
          fun cs => separatedFrom_le (Nat.le_refl 0) cs
        have hdirect := hle cs
        dsimp only at h
        split at h
        · cases h
          omega
        · split at h
          · rename_i rest _
            have hlater := hle rest
            rw [List.length_cons]
            split at h <;> cases h <;> omega
          · cases h
            omega

theorem Halts.longest {f g : List Char → Option Nat} (hf : Halts d least f)
    (hg : Halts d least g) : Halts d least fun cs => longest (f cs) (g cs) := fun u v hu => by
  dsimp only
  rw [hf u v hu, hg u v hu]

theorem Halts.weaken (hf : Halts d 0 f) (least : Nat) : Halts d least f := fun u v _ =>
  hf u v (Nat.zero_le _)

end Parts

/-- The characters of number literals, but for the mark of octal ones. -/
def isPart (c : Char) : Bool :=
  isHexDigit c || isOctalDigit c || isBinaryDigit c ||
    ['_', '.', '+', '-', 'l', 'L', 'x', 'X', 'p', 'P'].contains c

/-- No number literal has the character in it, unless as the second one. -/
structure Ending (d : Char) (least : Nat) : Prop where
  none : isPart d = false
  mark : ['o', 'O'].contains d = false ∨ 2 ≤ least

section Literals
variable {d : Char} {least : Nat}

/-- A zero and a mark are the first two characters. -/
theorem halts_zeroAnd (marks : List Char) (h : 2 ≤ least) : Halts d least (zeroAnd marks) := by
  intro u v hu
  rcases u with _ | ⟨a, _ | ⟨b, u⟩⟩
  · simp at hu
    omega
  · simp at hu
    omega
  · unfold zeroAnd both oneOf? one
    simp only [List.cons_append]
    cases hn : positive? (if ['0'].contains a = true then 1 else 0) with
    | none => rfl
    | some n =>
      unfold positive? at hn
      split at hn
      · cases hn
        rfl
      · cases hn

theorem fits_sign : Fits sign := (fits_oneOf _).maybe

theorem fits_exponent : Fits exponent := (fits_oneOf _).both (fits_sign.both (fits_digits _))

theorem fits_zeroAnd (marks : List Char) : Fits (zeroAnd marks) := (fits_oneOf _).both (fits_oneOf _)

variable (h : Ending d least)
include h

theorem Ending.digits : isHexDigit d = false ∧ isOctalDigit d = false ∧ isBinaryDigit d = false ∧
    d.isDigit = false := by
  have hnone := h.none
  unfold isPart at hnone
  simp only [Bool.or_eq_false_iff] at hnone
  obtain ⟨⟨⟨hhex, hoctal⟩, hbinary⟩, _⟩ := hnone
  refine ⟨hhex, hoctal, hbinary, ?_⟩
  unfold isHexDigit at hhex
  simp only [Bool.or_eq_false_iff] at hhex
  exact hhex.1.1

theorem Ending.under : d ≠ '_' := by
  rintro rfl
  exact nomatch h.none

theorem Ending.contains {chars : List Char} (hchars : chars.all isPart = true) :
    chars.contains d = false := by
  cases hd : chars.contains d with
  | false => rfl
  | true =>
    have hpart := List.all_eq_true.mp hchars d (by simpa using hd)
    rw [h.none] at hpart
    cases hpart

theorem Ending.oneOf {chars : List Char} (hchars : chars.all isPart = true) :
    Halts d 0 (oneOf? chars) := halts_oneOf (h.contains hchars)

theorem Ending.zeroAnd {marks : List Char}
    (hmarks : marks.contains d = false ∨ 2 ≤ least) : Halts d least (zeroAnd marks) := by
  rcases hmarks with hmarks | hleast
  · exact ((h.oneOf rfl).both (fits_oneOf _) (halts_oneOf hmarks)).weaken least
  · exact halts_zeroAnd marks hleast

theorem Ending.long : Halts d 0 long := (h.oneOf rfl).maybe

theorem Ending.sign : Halts d 0 sign := (h.oneOf rfl).maybe

theorem Ending.size : Halts d 0 size := h.oneOf rfl

theorem Ending.decimalDigits : Halts d 0 (digits? Char.isDigit) :=
  halts_digits h.digits.2.2.2 h.under

theorem Ending.hexDigits : Halts d 0 (digits? isHexDigit) := halts_digits h.digits.1 h.under

theorem Ending.plain : Halts d 0 plain? := halts_plain h.digits.2.2.2 h.under

theorem Ending.exponent : Halts d 0 exponent :=
  (h.oneOf rfl).both (fits_oneOf _) (h.sign.both fits_sign h.decimalDigits)

theorem Ending.decimal : Halts d 0 decimal? := h.plain.both fits_plain h.long

theorem Ending.hexadecimal : Halts d least hexadecimal? :=
  (h.zeroAnd (.inl (h.contains rfl))).both (fits_zeroAnd _)
    (h.hexDigits.both (fits_digits _) h.long)

theorem Ending.octal : Halts d least octal? := by
  have hdigits : Halts d 0 (digits? isOctalDigit) := halts_digits h.digits.2.1 h.under
  exact ((h.zeroAnd h.mark).both (fits_zeroAnd _) (hdigits.both (fits_digits _) h.long)).longest
    (((h.oneOf rfl).both (fits_oneOf _) (hdigits.both (fits_digits _) h.long)).weaken least)

theorem Ending.binary : Halts d least binary? :=
  (h.zeroAnd (.inl (h.contains rfl))).both (fits_zeroAnd _)
    ((halts_digits h.digits.2.2.1 h.under).both (fits_digits _) h.long)

theorem Ending.decimalFraction : Halts d 0 decimalFraction? := by
  have htail : Halts d 0 (Numeral.both (maybe Numeral.exponent) (maybe Numeral.size)) :=
    h.exponent.maybe.both fits_exponent.maybe h.size.maybe
  have hpoint : Halts d 0 (oneOf? ['.']) := h.oneOf rfl
  exact (h.decimalDigits.both (fits_digits _) (hpoint.both (fits_oneOf _)
    (h.decimalDigits.maybe.both (fits_digits _).maybe htail))).longest
    ((hpoint.both (fits_oneOf _) (h.decimalDigits.both (fits_digits _) htail)).longest
      ((h.plain.both fits_plain (h.exponent.both fits_exponent h.size.maybe)).longest
        (h.plain.both fits_plain (h.exponent.maybe.both fits_exponent.maybe h.size))))

theorem Ending.hexFraction : Halts d least hexFraction? := by
  have hmark : Halts d least (Numeral.zeroAnd ['x', 'X']) := h.zeroAnd (.inl (h.contains rfl))
  have hpoint : Halts d 0 (oneOf? ['.']) := h.oneOf rfl
  have hpower : Halts d 0 (both (oneOf? ['p', 'P'])
      (both Numeral.sign (both plain? (maybe Numeral.size)))) :=
    (h.oneOf rfl).both (fits_oneOf _)
      (h.sign.both fits_sign (h.plain.both fits_plain h.size.maybe))
  exact (hmark.both (fits_zeroAnd _) (h.hexDigits.both (fits_digits _)
    (hpoint.maybe.both (fits_oneOf _).maybe hpower.maybe))).longest
    (hmark.both (fits_zeroAnd _) (h.hexDigits.maybe.both (fits_digits _).maybe
      (hpoint.both (fits_oneOf _) (h.hexDigits.both (fits_digits _) hpower.maybe))))

/-- What stands behind such a character does not matter to a number literal in front of it. -/
theorem numeral?_halts (u v : List Char) (hu : least ≤ u.length) :
    numeral? (u ++ d :: v) = numeral? u := by
  unfold numeral?
  simp only [List.foldl_cons, List.foldl_nil]
  rw [h.decimal u v (Nat.zero_le _), h.hexadecimal u v hu, h.octal u v hu, h.binary u v hu,
    h.decimalFraction u v (Nat.zero_le _), h.hexFraction u v hu]

end Literals

end Retrace.Java.Numeral
