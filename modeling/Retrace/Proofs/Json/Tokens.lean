import Mathlib.Data.List.Basic
import Retrace.Json.Printer
import Retrace.Json.Token

/-! The tokens of a text.

`Spells` says which texts spell a list of tokens: marks, words, strings as they are written, and
whole numbers behind which no number goes on, with blanks in between. The tokens of such a text are
the ones that it spells (`tokens_of_spells`). What is escaped in a string is read back piece by
piece (`scanString_escape`). -/
namespace Retrace.Json.Token

/-! ### Strings -/

/-- The piece is put together as the character. -/
def StandsFor (p : Piece) (c : Char) : Prop :=
  ∀ fault done rest, assemble fault done (p :: rest) = assemble fault (c :: done) rest

theorem char_standsFor (c : Char) : StandsFor (.char c) c := fun _ _ _ => rfl

theorem unit_standsFor {c : Char} (h : c.toNat < 32) : StandsFor (.unit c.toNat) c := by
  intro fault done rest
  have hlow : isLow c.toNat = false := by
    unfold isLow
    simp only [Bool.and_eq_false_iff, decide_eq_false_iff_not]
    omega
  have hhigh : isHigh c.toNat = false := by
    unfold isHigh
    simp only [Bool.and_eq_false_iff, decide_eq_false_iff_not]
    omega
  rw [assemble.eq_def]
  dsimp only
  rw [hlow, hhigh, Char.ofNat_toNat]
  rfl

theorem hexValue?_hexDigit {n : Nat} (h : n < 16) : hexValue? (hexDigit n) = some n := by
  have hall : ∀ n < 16, hexValue? (hexDigit n) = some n := by decide
  exact hall n h

theorem hexUnit?_control {n : Nat} (h : n < 32) :
    hexUnit? ['0', '0', hexDigit (n / 16), hexDigit (n % 16)] = some n := by
  have hzero : hexValue? '0' = some 0 := rfl
  have hhigh := hexValue?_hexDigit (n := n / 16) (by omega)
  have hlow := hexValue?_hexDigit (n := n % 16) (by omega)
  simp only [hexUnit?, hzero, hhigh, hlow, Option.bind_eq_bind, Option.bind_some, Option.pure_def]
  congr 1
  omega

/-- A character is read back from the way it is written in a string. -/
theorem scanString_escape (c : Char) (pieces : List Piece) (seen : Nat) (rest : List Char) :
    ∃ p, StandsFor p c ∧ scanString pieces seen (escape c ++ rest) =
      scanString (p :: pieces) (seen + (escape c).length) rest := by
  unfold escape
  split
  · exact ⟨_, char_standsFor _, by simp [scanString, shortEscape?]⟩
  · exact ⟨_, char_standsFor _, by simp [scanString, shortEscape?]⟩
  · exact ⟨_, char_standsFor _, by simp [scanString, shortEscape?]⟩
  · exact ⟨_, char_standsFor _, by simp [scanString, shortEscape?]⟩
  · exact ⟨_, char_standsFor _, by simp [scanString, shortEscape?]⟩
  · exact ⟨_, char_standsFor _, by simp [scanString, shortEscape?]⟩
  · exact ⟨_, char_standsFor _, by simp [scanString, shortEscape?]⟩
  · rename_i hquote hbackslash _ _ _ _ _
    split
    · rename_i hcontrol
      refine ⟨_, unit_standsFor hcontrol, ?_⟩
      show scanString pieces seen ('\\' :: 'u' :: '0' :: '0' :: hexDigit (c.toNat / 16) ::
        hexDigit (c.toNat % 16) :: rest) = _
      rw [scanString, hexUnit?_control hcontrol]
      rfl
    · rename_i hcontrol
      refine ⟨_, char_standsFor c, ?_⟩
      show scanString pieces seen (c :: rest) = _
      rw [scanString, if_neg hcontrol]
      · rfl
      all_goals
        intros
        first | exact hquote ‹_› | exact hbackslash ‹_›

theorem scanString_escaped (cs : List Char) (pieces : List Piece) (seen : Nat) (rest : List Char) :
    ∃ ps, (∀ done, assemble none done ps = .ok (done.reverse ++ cs)) ∧
      scanString pieces seen (cs.flatMap escape ++ '"' :: rest) =
        ⟨pieces.reverse ++ ps, seen + (cs.flatMap escape).length + 1, none⟩ := by
  induction cs generalizing pieces seen with
  | nil =>
    refine ⟨[], fun done => congrArg Except.ok (List.append_nil _).symm, ?_⟩
    rw [List.append_nil]
    rfl
  | cons c cs ih =>
    obtain ⟨p, hp, hscan⟩ := scanString_escape c pieces seen (cs.flatMap escape ++ '"' :: rest)
    obtain ⟨ps, hps, hrest⟩ := ih (p :: pieces) (seen + (escape c).length)
    refine ⟨p :: ps, fun done => ?_, ?_⟩
    · rw [hp, hps, List.reverse_cons, List.append_assoc]
      rfl
    · rw [List.flatMap_cons, List.append_assoc, hscan, hrest, List.reverse_cons, List.append_assoc,
        List.length_append, Nat.add_assoc seen]
      rfl

/-- A string token that is well formed. -/
def ofString (s : String) : Token := string ⟨.ok s, none⟩

theorem first_string (s : String) (rest : List Char) :
    first '"' (s.toList.flatMap escape ++ '"' :: rest) =
      (ofString s, (s.toList.flatMap escape).length + 1) := by
  obtain ⟨ps, hps, hscan⟩ := scanString_escaped s.toList [] 0 rest
  show (string (scanString [] 0 (s.toList.flatMap escape ++ '"' :: rest)).toScan, _) = _
  rw [hscan]
  unfold StringScan.toScan
  dsimp only
  rw [List.reverse_nil, List.nil_append, hps]
  show (string ⟨.ok (String.ofList s.toList), none⟩, _) = _
  rw [String.ofList_toList, Nat.zero_add]
  rfl

/-! ### Numbers -/

/-- No number goes on at the front of the text. -/
def Stops (cs : List Char) : Prop :=
  ∀ c ∈ cs.head?, c.isDigit = false ∧ c ≠ '.' ∧ Numeral.isExponentMark c = false

theorem isDigit_digitChars {n : Nat} : ∀ c ∈ digitChars n, c.isDigit = true :=
  fun _ hc => Nat.isDigit_of_mem_toDigits (by decide) (by decide) hc

theorem digitChars_ne_nil {n : Nat} : digitChars n ≠ [] := Nat.toDigits_ne_nil

/-- Only zero begins with a zero. -/
theorem head_digitChars {n : Nat} (h : 10 ≤ n) : (digitChars n).head? ≠ some '0' := by
  induction n using Nat.strongRecOn with
  | ind n ih =>
    unfold digitChars at ih ⊢
    rw [Nat.toDigits_of_base_le (by decide) h, List.head?_append_of_ne_nil _ Nat.toDigits_ne_nil]
    by_cases hsmall : n / 10 < 10
    · rw [Nat.toDigits_of_lt_base hsmall]
      have hdigit : ∀ d < 10, 0 < d → Nat.digitChar d ≠ '0' := by decide
      exact fun heq => hdigit _ hsmall (by omega) (Option.some.inj heq)
    · exact ih (n / 10) (by omega) (by omega)

theorem digitsAt_digitChars (n : Nat) {rest : List Char} (h : Stops rest) :
    Numeral.digitsAt (digitChars n ++ rest) = digitChars n := by
  unfold Numeral.digitsAt
  rw [List.takeWhile_append_of_pos isDigit_digitChars]
  cases rest with
  | nil => exact List.append_nil _
  | cons c rest =>
    rw [List.takeWhile_cons_of_neg (by simp [(h c rfl).1]), List.append_nil]

theorem scanWhole_digitChars (n : Nat) {rest : List Char} (h : Stops rest) :
    Numeral.scanWhole (digitChars n ++ rest) = .ok (digitChars n, rest) := by
  unfold Numeral.scanWhole
  rw [digitsAt_digitChars n h]
  dsimp only
  have hnil : (digitChars n).isEmpty = false := by
    rw [List.isEmpty_eq_false_iff]
    exact digitChars_ne_nil
  have hzero : ((digitChars n).head? == some '0' && 1 < (digitChars n).length) = false := by
    by_cases hn : 10 ≤ n
    · simp [head_digitChars hn]
    · have hlength : (digitChars n).length = 1 := by
        unfold digitChars
        rw [Nat.toDigits_of_lt_base (by omega)]
        rfl
      simp [hlength]
  rw [hnil, hzero, List.drop_left]
  rfl

theorem scan_digitChars (n : Nat) {rest : List Char} (h : Stops rest) :
    Numeral.scan (digitChars n ++ rest) = .ok (⟨false, digitChars n, none, none⟩, rest) := by
  have hsign : ((digitChars n ++ rest).head? == some '-') = false := by
    rw [List.head?_append_of_ne_nil _ digitChars_ne_nil]
    cases hhead : (digitChars n).head? with
    | none => rfl
    | some c =>
      have hdigit := isDigit_digitChars c (List.mem_of_head? hhead)
      rw [beq_eq_false_iff_ne]
      intro heq
      cases heq
      cases hdigit
  have hfraction : Numeral.scanFraction rest = .ok (none, rest) := by
    unfold Numeral.scanFraction
    split
    · exact absurd rfl (h '.' rfl).2.1
    · rfl
  have hexponent : Numeral.scanExponent rest = .ok (none, rest) := by
    cases rest with
    | nil => rfl
    | cons c rest =>
      unfold Numeral.scanExponent
      dsimp only
      rw [(h c rfl).2.2]
      rfl
  unfold Numeral.scan
  dsimp only
  rw [hsign]
  show ((Numeral.scanWhole (digitChars n ++ rest)).bind _) = _
  rw [scanWhole_digitChars n h]
  show ((Numeral.scanFraction rest).bind _) = _
  rw [hfraction]
  show ((Numeral.scanExponent rest).bind _) = _
  rw [hexponent]
  rfl

theorem foldl_takeWhole {cs : List Char} {n : Nat}
    (h : Nat.ofDigitChars 10 cs n < Limit.long) :
    cs.foldl Numeral.takeWhole ⟨n, 0⟩ = ⟨Nat.ofDigitChars 10 cs n, 0⟩ := by
  induction cs generalizing n with
  | nil => rfl
  | cons c cs ih =>
    rw [Nat.ofDigitChars_cons] at h ⊢
    have hle : 10 * n + (c.toNat - '0'.toNat) < Limit.long := by
      rw [Nat.ofDigitChars_eq_ofDigitChars_zero] at h
      have hpow := Nat.le_mul_of_pos_left (10 * n + (c.toNat - '0'.toNat))
        (Nat.pow_pos (Nat.succ_pos 9) : 0 < 10 ^ cs.length)
      omega
    rw [List.foldl_cons, ← ih h]
    congr 1
    exact if_pos (decide_eq_true hle)

theorem value?_digitChars {n : Nat} (h : n < Limit.long) :
    Numeral.value? ⟨false, digitChars n, none, none⟩ = some (.whole n) := by
  have hread : Nat.ofDigitChars 10 (digitChars n) 0 = n := Nat.ofDigitChars_ten_toDigits
  unfold Numeral.value?
  dsimp only
  rw [foldl_takeWhole (by rw [hread]; exact h), hread]
  rfl

/-- A number token that is well formed. -/
def ofNumber (n : Number) : Token := number ⟨.ok n, none⟩

theorem first_number {n : Nat} (hn : n < Limit.long) {c : Char} {cs rest : List Char}
    (hcs : digitChars n = c :: cs) (h : Stops rest) :
    first c (cs ++ rest) = (ofNumber (.whole n), cs.length) := by
  have hdigit : c.isDigit = true := isDigit_digitChars c (by rw [hcs]; exact List.mem_cons_self)
  have hscan := scan_digitChars n h
  rw [hcs, List.cons_append] at hscan
  unfold first
  split
  all_goals first | cases hdigit | skip
  rw [hdigit, Bool.or_true, if_pos rfl]
  dsimp only
  rw [hscan]
  dsimp only
  unfold numberScan
  dsimp only
  rw [← hcs, value?_digitChars hn]
  simp [ofNumber]

/-! ### Texts -/

/-- The characters that are a token each. -/
def mark? : Char → Option Token
  | '[' => some openArray
  | ']' => some closeArray
  | '{' => some openObject
  | '}' => some closeObject
  | ',' => some comma
  | ':' => some colon
  | _ => none

/-- The text is spelt with these tokens. -/
inductive Spells : List Char → List Token → Prop
  | nil : Spells [] []
  | blank {c : Char} {cs : List Char} {ts : List Token} (blank : isBlank c = true)
    (rest : Spells cs ts) : Spells (c :: cs) ts
  | mark {c : Char} {t : Token} {cs : List Char} {ts : List Token} (mark : mark? c = some t)
    (rest : Spells cs ts) : Spells (c :: cs) (t :: ts)
  | null {cs : List Char} {ts : List Token} (rest : Spells cs ts) :
    Spells (wordChars "null" ++ cs) (null :: ts)
  | bool (b : Bool) {cs : List Char} {ts : List Token} (rest : Spells cs ts) :
    Spells (wordChars (if b then "true" else "false") ++ cs) (bool b :: ts)
  | string (s : String) {cs : List Char} {ts : List Token} (rest : Spells cs ts) :
    Spells (stringChars s ++ cs) (ofString s :: ts)
  | number {n : Nat} {cs : List Char} {ts : List Token} (bound : n < Limit.long) (stops : Stops cs)
    (rest : Spells cs ts) : Spells (digitChars n ++ cs) (ofNumber (.whole n) :: ts)

theorem tokensFrom_cons {c : Char} {cs : List Char} {t : Token} {n : Nat} {ts : List Token}
    (hblank : isBlank c = false) (h : first c cs = (t, n))
    (hrest : ∀ found, tokensFrom found (cs.drop n) = found.reverse ++ ts) (found : List Token) :
    tokensFrom found (c :: cs) = found.reverse ++ t :: ts := by
  rw [tokensFrom, hblank, h]
  show tokensFrom (t :: found) (cs.drop n) = _
  rw [hrest, List.reverse_cons, List.append_assoc]
  rfl

theorem first_mark {c : Char} {t : Token} (h : mark? c = some t) (cs : List Char) :
    isBlank c = false ∧ first c cs = (t, 0) := by
  unfold mark? at h
  split at h <;> cases h <;> exact ⟨rfl, rfl⟩

theorem isBlank_of_isDigit {c : Char} (h : c.isDigit = true) : isBlank c = false := by
  refine Bool.eq_false_iff.mpr fun hblank => ?_
  unfold isBlank at hblank
  simp only [Bool.or_eq_true, beq_iff_eq] at hblank
  rcases hblank with ((rfl | rfl) | rfl) | rfl <;> cases h

/-- The tokens of a text are those that it is spelt with. -/
theorem tokensFrom_of_spells {cs : List Char} {ts : List Token} (h : Spells cs ts)
    (found : List Token) : tokensFrom found cs = found.reverse ++ ts := by
  induction h generalizing found with
  | nil => rw [tokensFrom, List.append_nil]
  | blank hblank _ ih =>
    rw [tokensFrom, if_pos hblank]
    exact ih found
  | mark hmark _ ih =>
    obtain ⟨hblank, hfirst⟩ := first_mark hmark _
    exact tokensFrom_cons hblank hfirst ih found
  | @null cs _ _ ih =>
    have hfirst : first 'n' ('u' :: 'l' :: 'l' :: cs) = (null, 3) := rfl
    exact tokensFrom_cons rfl hfirst ih found
  | @bool b cs _ _ ih =>
    cases b with
    | true =>
      have hfirst : first 't' ('r' :: 'u' :: 'e' :: cs) = (bool true, 3) := rfl
      exact tokensFrom_cons rfl hfirst ih found
    | false =>
      have hfirst : first 'f' ('a' :: 'l' :: 's' :: 'e' :: cs) = (bool false, 4) := rfl
      exact tokensFrom_cons rfl hfirst ih found
  | @string s cs _ _ ih =>
    have hchars : stringChars s ++ cs = '"' :: (s.toList.flatMap escape ++ '"' :: cs) := by
      show '"' :: (s.toList.flatMap escape ++ ['"'] ++ cs) = _
      rw [List.append_assoc]
      rfl
    rw [hchars]
    refine tokensFrom_cons rfl (first_string s cs) (fun found => ?_) found
    rw [List.drop_length_add_append]
    exact ih found
  | @number n cs _ hn hstops _ ih =>
    obtain ⟨c, ds, hds⟩ := List.exists_cons_of_ne_nil (digitChars_ne_nil (n := n))
    have hdigit := isDigit_digitChars (n := n) c (by rw [hds]; exact List.mem_cons_self)
    rw [hds, List.cons_append]
    refine tokensFrom_cons (isBlank_of_isDigit hdigit) (first_number hn hds hstops)
      (fun found => ?_) found
    rw [List.drop_left]
    exact ih found

theorem tokens_of_spells {cs : List Char} {ts : List Token} (h : Spells cs ts) :
    tokens (String.ofList cs) = ts := by
  unfold tokens
  rw [String.toList_ofList]
  exact tokensFrom_of_spells h []

end Retrace.Json.Token
