import Retrace.Proofs.Java.Exchange

/-! Where a text may be cut.

Some lexemes end as they do whatever stands behind them: closing parentheses, semicolons, closing
braces and the words `else` and `do`. Chunks up to such a lexeme, and the white space and comments
behind it, are taken alike in front of another text (`Takes.cut`, `Takes.gap`). -/
namespace Retrace.Java.Lexer

/-! ### Code -/

/-- The text goes on with code. -/
def Code : List Mode → Prop
  | [] => True
  | .hole _ :: _ => True
  | _ => False

section Code
variable {c : Char} {cs : List Char} {m : List Mode}

theorem step_code (h : Code m) (c : Char) (cs : List Char) :
    step c cs m = (readCode c cs).step c m := by
  rw [← codeStep_eq]
  cases m with
  | nil => rfl
  | cons mode m =>
    cases mode with
    | hole _ => rfl
    | _ => exact h.elim

/-- White space, comments, words and symbols are read as code. -/
theorem code_of_kind (h : (step c cs m).kind = none ∨ (step c cs m).kind = some .word ∨
    (step c cs m).kind = some .symbol) : Code m := by
  have hquote : ∀ m, (stringStep c cs m).kind ≠ none ∧ (stringStep c cs m).kind ≠ some .word ∧
      (stringStep c cs m).kind ≠ some .symbol := by
    unfold stringStep
    grind
  have hblock : ∀ m, (blockStep c cs m).kind ≠ none ∧ (blockStep c cs m).kind ≠ some .word ∧
      (blockStep c cs m).kind ≠ some .symbol := by
    unfold blockStep
    grind
  cases m with
  | nil => trivial
  | cons mode m =>
    cases mode with
    | hole _ => trivial
    | quote =>
      obtain ⟨hnone, hword, hsymbol⟩ := hquote (.quote :: m)
      rcases h with h | h | h
      · exact absurd h hnone
      · exact absurd h hword
      · exact absurd h hsymbol
    | block =>
      obtain ⟨hnone, hword, hsymbol⟩ := hblock (.block :: m)
      rcases h with h | h | h
      · exact absurd h hnone
      · exact absurd h hword
      · exact absurd h hsymbol

end Code

/-! ### Lexemes in front of a seam -/

/-- The lexemes that end as they do whatever stands behind them. -/
def cuts : List Chunk :=
  [⟨[')'], some .symbol⟩, ⟨[';'], some .symbol⟩, ⟨['\x7d'], some .symbol⟩,
    ⟨['e', 'l', 's', 'e'], some .word⟩, ⟨['d', 'o'], some .word⟩]

theorem exchange_cut {k : Chunk} (hk : k ∈ cuts) {z z' : List Char} (h : Uncommented z z') :
    Exchange (k.text ++ z) (k.text ++ z') := by
  have hsymbol : ∀ d, isCalm d = true → Numeral.isPart d = false ∧ ['o', 'O'].contains d = false →
      Exchange ([d] ++ z) ([d] ++ z') := fun d hcalm hpart =>
    ⟨⟨d, z, z', rfl, rfl, hcalm⟩, fun u _ => by
      have hending : Numeral.Ending d 0 := ⟨hpart.1, .inl hpart.2⟩
      rw [List.singleton_append, List.singleton_append,
        Numeral.numeral?_halts hending u z' (Nat.zero_le _),
        Numeral.numeral?_halts hending u z (Nat.zero_le _)], h.front [d]⟩
  simp only [cuts, List.mem_cons, List.not_mem_nil, or_false] at hk
  rcases hk with rfl | rfl | rfl | rfl | rfl
  · exact hsymbol ')' (by decide) (by decide)
  · exact hsymbol ';' (by decide) (by decide)
  · exact hsymbol '\x7d' (by decide) (by decide)
  · refine ⟨⟨'e', _, _, rfl, rfl, by decide⟩, fun u _ => ?_, h.front _⟩
    -- No number has an `s` in it.
    have hending : Numeral.Ending 's' 0 := ⟨by decide, .inl (by decide)⟩
    have hhalts := fun v =>
      Numeral.numeral?_halts hending (u ++ ['e', 'l']) ('e' :: v) (Nat.zero_le _)
    simp only [List.append_assoc, List.cons_append, List.nil_append] at hhalts ⊢
    rw [hhalts, hhalts]
  · refine ⟨⟨'d', _, _, rfl, rfl, by decide⟩, fun u hu => ?_, h.front _⟩
    -- Only the second character of a number may be an `o`.
    have hending : Numeral.Ending 'o' 2 := ⟨by decide, .inr (Nat.le_refl 2)⟩
    have hlength : 2 ≤ (u ++ ['d']).length := by
      have hpos := List.length_pos_iff.mpr hu
      rw [List.length_append, List.length_singleton]
      omega
    have hhalts := fun v => Numeral.numeral?_halts hending (u ++ ['d']) v hlength
    simp only [List.append_assoc, List.cons_append, List.nil_append] at hhalts ⊢
    rw [hhalts, hhalts]

/-- What a step takes of a text. -/
structure Takes (c : Char) (t z : List Char) (m : List Mode) (s : Step) : Prop where
  step : Lexer.step c (t ++ z) m = s
  text : (t ++ z).take s.more = t

section Seams
variable {c : Char} {t z z' : List Char} {m : List Mode} {s : Step}

/-- No step in front of the texts, nor in front of what is in front of them, tells them apart. -/
def Far (z z' : List Char) : Prop :=
  z = z' ∨ ∃ x v v', z = x ++ v ∧ z' = x ++ v' ∧ Exchange v v'

/-- No lexeme that ends as it does whatever stands behind it tells the texts apart. -/
structure Near (z z' : List Char) : Prop where
  comments : Uncommented z z'
  word : ∀ d, z'.head? = some d → Text.isIdentifierPart d = false

/-- No white space and no comment tells the texts apart either. -/
structure Gap (z z' : List Char) : Prop extends Near z z' where
  ne : z ≠ []
  line : z.head? = some '\n' → z'.head? = some '\n'

theorem Far.comments (h : Far z z') : Uncommented z z' := by
  rcases h with rfl | ⟨x, v, v', rfl, rfl, hv⟩
  · exact .refl _
  · exact hv.comments.front x

theorem Far.front (h : Far z z') (x : List Char) : Far (x ++ z) (x ++ z') := by
  rcases h with rfl | ⟨y, v, v', rfl, rfl, hv⟩
  · exact .inl rfl
  · exact .inr ⟨x ++ y, v, v', (List.append_assoc _ _ _).symm, (List.append_assoc _ _ _).symm, hv⟩

theorem eq_length_of_take {n : Nat} {t rest : List Char} (h : (t ++ rest).take n = t)
    (hne : rest ≠ []) : n = t.length := by
  have hlength := congrArg List.length h
  have hpos := List.length_pos_iff.mpr hne
  rw [List.length_take, List.length_append] at hlength
  omega

theorem Takes.far (h : Takes c t z m s) (hz : Far z z') (hstray : s.kind ≠ some .stray) :
    Takes c t z' m s := by
  rcases hz with rfl | ⟨x, v, v', rfl, rfl, hv⟩
  · exact h
  obtain ⟨hstep, htext⟩ := h
  have hne : x ++ v ≠ [] := by
    obtain ⟨d, w, _, rfl, _, _⟩ := hv.head
    exact List.append_ne_nil_of_right_ne_nil _ (List.cons_ne_nil d w)
  have hmore := eq_length_of_take htext hne
  refine ⟨?_, by rw [hmore]; exact List.take_left' rfl⟩
  rw [← List.append_assoc] at hstep ⊢
  rw [step_exchange hv (by rw [hstep]; exact hstray) (by rw [hstep, hmore]; simp), hstep]

/-! White space and comments -/

theorem countWhile_of_all {p : Char → Bool} {x w : List Char} (hx : ∀ d ∈ x, p d = true)
    (hw : ∀ d, w.head? = some d → p d = false) : countWhile p (x ++ w) = x.length := by
  unfold countWhile
  rw [List.takeWhile_append_of_pos hx]
  cases w with
  | nil => simp
  | cons d w => rw [List.takeWhile_cons_of_neg (by simp [hw d rfl]), List.append_nil]

theorem all_of_countWhile {p : Char → Bool} {x w : List Char}
    (h : countWhile p (x ++ w) = x.length) :
    (∀ d ∈ x, p d = true) ∧ ∀ d, w.head? = some d → p d = false := by
  induction x with
  | nil =>
    refine ⟨(fun _ hd => nomatch hd), fun d hd => ?_⟩
    obtain ⟨w, rfl⟩ := List.head?_eq_some_iff.mp hd
    by_contra hp
    unfold countWhile at h
    rw [List.nil_append, List.takeWhile_cons_of_pos (by simpa using hp)] at h
    cases h
  | cons b x ih =>
    unfold countWhile at h ih
    cases hb : p b with
    | false =>
      rw [List.cons_append, List.takeWhile_cons_of_neg (by simp [hb])] at h
      simp at h
    | true =>
      rw [List.cons_append, List.takeWhile_cons_of_pos hb] at h
      obtain ⟨hx, hw⟩ := ih (by simpa using h)
      exact ⟨List.forall_mem_cons.mpr ⟨hb, hx⟩, hw⟩

theorem not_part_of_space (h : isSpace c = true) : Text.isIdentifierPart c = false := by
  unfold isSpace at h
  have hsmall : c ∈ [' ', '\t', '\n', '\u000b', '\u000c', '\r'] := by
    simp only [Bool.or_eq_true, beq_iff_eq, Bool.and_eq_true, decide_eq_true_eq] at h
    rcases h with rfl | ⟨hlow, hhigh⟩
    · exact List.mem_cons_self
    · have hlow' : 9 ≤ c.toNat := hlow
      have hhigh' : c.toNat ≤ 13 := hhigh
      rw [← Char.ofNat_toNat c]
      generalize c.toNat = n at hlow' hhigh'
      obtain rfl | rfl | rfl | rfl | rfl : n = 9 ∨ n = 10 ∨ n = 11 ∨ n = 12 ∨ n = 13 := by omega
      all_goals decide
  simp only [List.mem_cons, List.not_mem_nil, or_false] at hsmall
  rcases hsmall with rfl | rfl | rfl | rfl | rfl | rfl <;> decide

/-- What is no lexeme is a character of white space or a comment. -/
theorem readCode_none {n : Nat} (h : readCode c z = .plain none n) :
    isSpace c = true ∧ n = 0 ∨ c = '/' ∧ comment? c z = some n := by
  unfold readCode readQuote readCharacter readMark at h
  split at h
  · rename_i hspace
    cases h
    exact .inl ⟨hspace, rfl⟩
  · obtain hcomment : comment? c z = some n := by grind
    refine .inr ⟨?_, hcomment⟩
    unfold comment? at hcomment
    grind

theorem comment?_gap {n : Nat} (h : comment? c (t ++ z) = some n) (hn : n = t.length)
    (hz : Gap z z') : comment? c (t ++ z') = some n := by
  have hne := hz.ne
  subst hn
  rcases t with _ | ⟨b, t⟩
  · -- A comment has more than one character.
    unfold comment? at h
    split at h
    · have hlength := Option.some.inj h
      rw [List.length_nil] at hlength
      omega
    · obtain ⟨e, _, hlength⟩ := Option.map_eq_some_iff.mp h
      rw [List.length_nil] at hlength
      omega
    · cases h
  rw [List.length_cons, Nat.add_comm] at h ⊢
  rw [List.cons_append] at h ⊢
  unfold comment? at h
  split at h
  · rename_i heq
    cases heq
    have hcount := Nat.add_left_cancel (Option.some.inj h)
    obtain ⟨hall, hend⟩ := all_of_countWhile hcount
    refine congrArg (fun n => some (1 + n)) (countWhile_of_all hall fun d hd => ?_)
    obtain ⟨e, w, rfl⟩ := List.exists_cons_of_ne_nil hne
    have hline : e = '\n' := by simpa using hend e rfl
    rw [hz.line (by rw [hline]; rfl)] at hd
    cases hd
    rfl
  · rename_i heq
    cases heq
    obtain ⟨e, he, hlength⟩ := Option.map_eq_some_iff.mp h
    obtain rfl := Nat.add_left_cancel hlength
    exact congrArg (Option.map (1 + ·)) (commentEnd?_exchange he (by omega))
  · cases h

theorem Takes.gap (h : Takes c t z m s) (hz : Gap z z') (hkind : s.kind = none) :
    Takes c t z' m s ∧ Gap (c :: t ++ z) (c :: t ++ z') := by
  obtain ⟨hstep, htext⟩ := h
  have hmore := eq_length_of_take htext hz.ne
  have hm : Code m := code_of_kind (.inl (by rw [hstep]; exact hkind))
  rw [step_code hm] at hstep
  obtain ⟨n, hread⟩ : ∃ n, readCode c (t ++ z) = .plain none n := by
    rw [← hstep] at hkind
    unfold Reading.step at hkind
    grind
  rw [hread] at hstep
  obtain rfl : ⟨none, n, m⟩ = s := hstep
  obtain rfl : n = t.length := hmore
  have hread' : readCode c (t ++ z') = .plain none t.length ∧ Text.isIdentifierPart c = false := by
    rcases readCode_none hread with ⟨hspace, hlength⟩ | ⟨rfl, hcomment⟩
    · refine ⟨?_, not_part_of_space hspace⟩
      rw [readCode, if_pos hspace, hlength]
    · refine ⟨?_, by decide⟩
      rw [readCode, if_neg (by decide), if_neg (by decide), if_neg (by decide), if_neg (by decide),
        readMark, comment?_gap hcomment rfl hz]
  refine ⟨⟨?_, List.take_left' rfl⟩, ⟨hz.comments.front (c :: t), ?_⟩, List.cons_ne_nil _ _,
    fun h => h⟩
  · rw [step_code hm, hread'.1]
    rfl
  · rintro d ⟨⟩
    exact hread'.2

/-! Cuts and braces -/

theorem readCode_mark (hc : c ∈ [')', ';', '\x7b', '\x7d']) (z : List Char) :
    readCode c z = .symbol 0 := by
  simp only [List.mem_cons, List.not_mem_nil, or_false] at hc
  rcases hc with rfl | rfl | rfl | rfl <;> rfl

theorem readCode_word (hc : isSpace c = false) (hc' : Text.isIdentifierStart c = true)
    (z : List Char) :
    readCode c z = .plain (some .word) (countWhile Text.isIdentifierPart z) := by
  rw [readCode, if_neg (by simp [hc]), if_pos hc']

theorem Takes.mark (h : Takes c [] z m s) (hc : c ∈ [')', ';', '\x7d'])
    (hkind : s.kind = some .symbol) (z' : List Char) : Takes c [] z' m s := by
  have hm : Code m := code_of_kind (.inr (.inr (by rw [h.step]; exact hkind)))
  have hc' : c ∈ [')', ';', '\x7b', '\x7d'] := by grind
  have hstep := h.step
  rw [step_code hm, readCode_mark hc'] at hstep
  have hmore : s.more = 0 := by
    rw [← hstep]
    unfold Reading.step
    dsimp only
    cases afterBrace c m <;> rfl
  refine ⟨?_, by rw [hmore]; exact List.take_zero⟩
  rw [step_code hm, readCode_mark hc', hstep]

theorem Takes.word (h : Takes c t z m s) (hc : isSpace c = false)
    (hc' : Text.isIdentifierStart c = true) (hkind : s.kind = some .word)
    (hz : ∀ d, z'.head? = some d → Text.isIdentifierPart d = false) : Takes c t z' m s := by
  have hm : Code m := code_of_kind (.inr (.inl (by rw [h.step]; exact hkind)))
  obtain ⟨hstep, htext⟩ := h
  rw [step_code hm, readCode_word hc hc'] at hstep
  obtain rfl : ⟨some .word, countWhile Text.isIdentifierPart (t ++ z), m⟩ = s := hstep
  have hcount : countWhile Text.isIdentifierPart (t ++ z) = t.length := by
    have hlength := congrArg List.length htext
    rw [List.length_take] at hlength
    dsimp only at hlength
    have hle := (List.takeWhile_prefix Text.isIdentifierPart (l := t ++ z)).length_le
    unfold countWhile at hlength ⊢
    omega
  rw [hcount]
  refine ⟨?_, List.take_left' rfl⟩
  rw [step_code hm, readCode_word hc hc', countWhile_of_all (all_of_countWhile hcount).1 hz]
  rfl

theorem Takes.cut (h : Takes c t z m s) (hk : ⟨c :: t, s.kind⟩ ∈ cuts) (hz : Near z z') :
    Takes c t z' m s := by
  simp only [cuts, List.mem_cons, List.not_mem_nil, or_false, Chunk.mk.injEq] at hk
  obtain ⟨⟨rfl, rfl⟩, hkind⟩ | ⟨⟨rfl, rfl⟩, hkind⟩ | ⟨⟨rfl, rfl⟩, hkind⟩ | ⟨⟨rfl, rfl⟩, hkind⟩ |
    ⟨⟨rfl, rfl⟩, hkind⟩ := hk
  · exact h.mark (by decide) hkind z'
  · exact h.mark (by decide) hkind z'
  · exact h.mark (by decide) hkind z'
  · exact h.word (by decide) (by decide) hkind hz.word
  · exact h.word (by decide) (by decide) hkind hz.word

/-- What is put in front of a text in braces. -/
def openingText : List Char := ['\x7b', ' ']

/-- What is put behind a text in braces. -/
def closingText : List Char := [' ', '\x7d']

theorem near_opening (h : Uncommented z z') : Near z (openingText ++ z') :=
  ⟨h.insert (List.cons_ne_nil _ _) (by simp [openingText]), by rintro d ⟨⟩; decide⟩

theorem near_closing (h : Uncommented z z') : Near z (closingText ++ z') :=
  ⟨h.insert (List.cons_ne_nil _ _) (by simp [closingText]), by rintro d ⟨⟩; decide⟩

theorem gap_opening (h : Uncommented z z') (hne : z ≠ []) (hline : z.head? ≠ some '\n') :
    Gap z (openingText ++ z') :=
  ⟨near_opening h, hne, fun hz => absurd hz hline⟩

end Seams

end Retrace.Java.Lexer
