import Mathlib.Data.List.Find
import Retrace.Proofs.Java.Chunks
import Retrace.Proofs.Java.Numerals

/-! What stands behind a step of the lexer.

A step looks at some characters that it does not take. If two texts begin with the same calm
character and close the same comments, no step that ends in front of them tells them apart
(`step_exchange`). -/
namespace Retrace.Java.Lexer

/-- No step stops in front of the character because of it, or takes it for a part of what it has
begun. -/
def isCalm (d : Char) : Bool :=
  !(['"', '\\', '/', '*'].contains d || Numeral.isOctalDigit d) &&
    longSymbols.all fun s => !s.contains d

/-- What makes a character calm. -/
structure Calm (d : Char) : Prop where
  quote : d ≠ '"'
  back : d ≠ '\\'
  slash : d ≠ '/'
  star : d ≠ '*'
  octal : Numeral.isOctalDigit d = false
  symbols : (longSymbols.all fun s => !s.contains d) = true

theorem calm_of_isCalm {d : Char} (h : isCalm d = true) : Calm d := by
  unfold isCalm at h
  simp only [Bool.and_eq_true, Bool.not_eq_true', List.contains_cons, List.contains_nil,
    Bool.or_false, Bool.or_eq_false_iff, beq_eq_false_iff_ne] at h
  obtain ⟨⟨⟨hquote, hback, hslash, hstar⟩, hoctal⟩, hsymbols⟩ := h
  exact ⟨hquote, hback, hslash, hstar, hoctal, hsymbols⟩

section Behind
variable {c d : Char} {x w w' v v' : List Char} {k n : Nat}

theorem countWhile_le {p : Char → Bool} (hd : p d = false) :
    countWhile p (x ++ d :: w) ≤ x.length := by
  unfold countWhile
  rw [List.takeWhile_append, List.takeWhile_cons_of_neg (by simp [hd]), List.append_nil]
  split
  · exact Nat.le_refl _
  · exact (List.takeWhile_sublist _).length_le

theorem countWhile_exchange {p : Char → Bool} (h : countWhile p (x ++ d :: w) ≤ x.length) :
    countWhile p (x ++ d :: w') = countWhile p (x ++ d :: w) := by
  unfold countWhile at h ⊢
  rw [List.takeWhile_append] at h ⊢
  rw [List.takeWhile_append]
  split
  · rename_i hall
    rw [if_pos hall, List.length_append] at h
    cases hd : p d with
    | false =>
      rw [List.takeWhile_cons_of_neg (by simp [hd]), List.takeWhile_cons_of_neg (by simp [hd])]
    | true =>
      rw [List.takeWhile_cons_of_pos hd, List.length_cons] at h
      omega
  · rfl

/-! Character literals -/

theorem lt_of_characterEnd? {cs : List Char} (h : characterEnd? k cs = some n) : k < n := by
  fun_induction characterEnd? k cs <;> grind

theorem characterEnd?_cons (hback : c ≠ '\\') (hquote : c ≠ '\'') (hline : c ≠ '\n')
    (cs : List Char) : characterEnd? k (c :: cs) = characterEnd? (k + 1) cs := by
  rw [characterEnd?]
  · exact fun _ _ h => absurd h hback
  · exact hquote
  · exact hline
  · exact fun h => absurd h hback

theorem characterEnd?_exchange (h : characterEnd? k (x ++ v) = some n) (hn : n ≤ k + x.length) :
    characterEnd? k (x ++ v') = some n := by
  fun_induction characterEnd? k x with
  | case5 =>
    have hlt := @lt_of_characterEnd?
    cases v <;> grind [characterEnd?]
  | case6 _ c cs hpair hquote hline hlone ih =>
    have hback : c ≠ '\\' := fun hc => by cases cs <;> grind
    rw [List.cons_append, characterEnd?_cons hback hquote hline] at h ⊢
    exact ih h (by rw [List.length_cons] at hn; omega)
  | case7 =>
    have hlt := lt_of_characterEnd? h
    exact absurd hn (Nat.not_le.mpr hlt)
  | _ => grind [characterEnd?]

/-! Comments -/

theorem le_of_commentEnd? {cs : List Char} (h : commentEnd? k cs = some n) : k + 2 ≤ n := by
  fun_induction commentEnd? k cs <;> grind

theorem commentEnd?_cons {cs : List Char} (h : c ≠ '*' ∨ cs.head? ≠ some '/') :
    commentEnd? k (c :: cs) = commentEnd? (k + 1) cs := by
  rw [commentEnd?]
  rintro tail rfl rfl
  rcases h with h | h
  · exact h rfl
  · exact h rfl

theorem goes_on {cs : List Char} (h : ∀ tail, c = '*' → cs = '/' :: tail → False) :
    c ≠ '*' ∨ cs.head? ≠ some '/' := by
  by_cases hc : c = '*'
  · refine .inr fun hhead => ?_
    obtain ⟨tail, rfl⟩ := List.head?_eq_some_iff.mp hhead
    exact h tail hc rfl
  · exact .inl hc

theorem commentEnd?_exchange (h : commentEnd? k (x ++ v) = some n) (hn : n ≤ k + x.length) :
    commentEnd? k (x ++ v') = some n := by
  fun_induction commentEnd? k x with
  | case1 => exact h
  | case2 _ c cs hopen ih =>
    cases cs with
    | nil =>
      have hle := le_of_commentEnd? h
      rw [List.length_singleton] at hn
      omega
    | cons b cs =>
      have hopen' : ∀ u, c ≠ '*' ∨ (b :: cs ++ u).head? ≠ some '/' := fun _ =>
        (goes_on hopen : c ≠ '*' ∨ (b :: cs).head? ≠ some '/')
      rw [List.cons_append, commentEnd?_cons (hopen' _)] at h ⊢
      exact ih h (by rw [List.length_cons] at hn; omega)
  | case3 =>
    have hle := le_of_commentEnd? h
    rw [List.length_nil] at hn
    omega

theorem commentEnd?_add (cs : List Char) (k j : Nat) :
    commentEnd? (k + j) cs = (commentEnd? k cs).map (· + j) := by
  fun_induction commentEnd? k cs with
  | case1 => grind [commentEnd?]
  | case2 seen c cs hopen ih =>
    rw [commentEnd?_cons (goes_on hopen), ← ih, Nat.add_right_comm]
  | case3 => rfl

/-- No comment that does not end in the one text ends in the other. -/
structure Uncommented (v v' : List Char) : Prop where
  none : ∀ n, commentEnd? n v = none → commentEnd? n v' = none
  head : v'.head? = some '/' → v.head? = some '/'

theorem Uncommented.refl (v : List Char) : Uncommented v v := ⟨fun _ h => h, fun h => h⟩

theorem Uncommented.cons (h : Uncommented v v') (c : Char) : Uncommented (c :: v) (c :: v') := by
  refine ⟨fun n hn => ?_, fun h => h⟩
  have hopen : c ≠ '*' ∨ v.head? ≠ some '/' := by
    cases v <;> grind [commentEnd?]
  rw [commentEnd?_cons hopen] at hn
  rw [commentEnd?_cons (hopen.imp_right fun hv hv' => hv (h.head hv'))]
  exact h.none _ hn

theorem Uncommented.front (h : Uncommented v v') (x : List Char) :
    Uncommented (x ++ v) (x ++ v') := by
  induction x with
  | nil => exact h
  | cons c x ih => exact ih.cons c

/-- What is put in front of a text begins and ends no comment. -/
theorem Uncommented.insert (h : Uncommented v v') {y : List Char} (hne : y ≠ [])
    (hy : ∀ c ∈ y, c ≠ '*' ∧ c ≠ '/') : Uncommented v (y ++ v') := by
  have hshift : ∀ n, commentEnd? n (y ++ v') = commentEnd? (n + y.length) v' := by
    clear hne
    induction y with
    | nil => exact fun _ => rfl
    | cons c y ih =>
      intro n
      obtain ⟨hc, hy⟩ := List.forall_mem_cons.mp hy
      rw [List.cons_append, commentEnd?_cons (.inl hc.1), ih hy, List.length_cons]
      congr 1
      omega
  refine ⟨fun n hn => ?_, fun hhead => ?_⟩
  · rw [hshift]
    refine h.none _ ?_
    rw [commentEnd?_add, hn]
    rfl
  · obtain ⟨c, y, rfl⟩ := List.exists_cons_of_ne_nil hne
    exact absurd (Option.some.inj hhead) (hy c List.mem_cons_self).2

/-! Symbols and strings -/

theorem symbol?_exchange (hd : (longSymbols.all fun s => !s.contains d) = true) :
    symbol? c (x ++ d :: w') = symbol? c (x ++ d :: w) := by
  have hstarts : ∀ s y w : List Char, d ∉ s → s.isPrefixOf (y ++ d :: w) = s.isPrefixOf y := by
    intro s
    induction s with
    | nil => exact fun _ _ _ => rfl
    | cons a s ih =>
      intro y w hs
      cases y with
      | nil =>
        have hne : (a == d) = false := beq_eq_false_iff_ne.mpr fun h => hs (h ▸ List.mem_cons_self)
        show (a == d && s.isPrefixOf w) = false
        rw [hne]
        rfl
      | cons b y =>
        rw [List.cons_append, List.isPrefixOf, List.isPrefixOf,
          ih y w fun h => hs (List.mem_cons_of_mem a h)]
  unfold symbol?
  rw [List.find?_congr fun s hs => ?_]
  have hnot : d ∉ s := by simpa using List.all_eq_true.mp hd s hs
  exact (hstarts s (c :: x) w' hnot).trans (hstarts s (c :: x) w hnot).symm

theorem escape?_pos {cs : List Char} (h : escape? cs = some n) : 0 < n := by
  unfold escape? at h
  grind

theorem escape?_exchange (hoctal : Numeral.isOctalDigit d = false)
    (h : escape? (x ++ d :: w) = some n) (hn : n ≤ x.length) :
    escape? (x ++ d :: w') = some n := by
  have hpos := escape?_pos h
  rcases x with _ | ⟨a, x⟩
  · simp at hn
    omega
  have hcount : countWhile escape?.isOctal (x ++ d :: w') =
      countWhile escape?.isOctal (x ++ d :: w) := countWhile_exchange (countWhile_le hoctal)
  rw [List.cons_append] at h ⊢
  rw [List.length_cons] at hn
  unfold escape? at h
  split at h
  · rename_i heq
    rw [List.cons.injEq] at heq
    obtain ⟨rfl, heq⟩ := heq
    obtain rfl : 3 = n := by grind
    obtain ⟨p, q, x, rfl⟩ : ∃ p q y, x = p :: q :: y := by
      rcases x with _ | ⟨p, _ | ⟨q, x⟩⟩ <;> simp at hn ⊢
    grind [escape?]
  · rename_i heq
    rw [List.cons.injEq] at heq
    obtain ⟨rfl, heq⟩ := heq
    dsimp only at h
    split at h
    · rename_i hrun
      cases h
      rcases x with _ | ⟨b, x⟩
      · rw [List.length_nil] at hn
        omega
      rw [List.cons_append, List.cons.injEq] at heq
      obtain ⟨rfl, rfl⟩ := heq
      rw [List.length_cons] at hn
      rw [List.cons_append, escape?]
      have hcount' : countWhile escape?.isHex (x ++ d :: w') =
          countWhile escape?.isHex (x ++ d :: w) := countWhile_exchange (by omega)
      rw [hcount', List.drop_append_of_le_length (by omega)]
      rw [List.drop_append_of_le_length (by omega)] at hrun
      obtain ⟨e, rest, hdrop⟩ : ∃ e rest,
          x.drop (countWhile escape?.isHex (x ++ d :: w)) = e :: rest :=
        List.exists_cons_of_length_pos (by rw [List.length_drop]; omega)
      rw [hdrop] at hrun ⊢
      exact if_pos hrun
    · cases h
  · rename_i heq
    rw [List.cons.injEq] at heq
    obtain ⟨rfl, heq⟩ := heq
    obtain rfl : 5 = n := by grind
    obtain ⟨p, q, r, s, x, rfl⟩ : ∃ p q r s y, x = p :: q :: r :: s :: y := by
      rcases x with _ | ⟨p, _ | ⟨q, _ | ⟨r, _ | ⟨s, x⟩⟩⟩⟩ <;> simp at hn ⊢
    grind [escape?]
  · rename_i heq
    rw [List.cons.injEq] at heq
    obtain ⟨rfl, rfl⟩ := heq
    have hmark : a ≠ 'x' ∧ a ≠ 'u' := by
      constructor <;> rintro rfl <;> cases h
    rw [← hcount] at h
    rw [escape?]
    · exact h
    · exact fun _ _ _ ha => absurd ha hmark.1
    · exact fun _ ha => absurd ha hmark.2
    · exact fun _ _ _ _ _ ha => absurd ha hmark.2
  · cases h

theorem le_quotedRun (k : Nat) (cs : List Char) : k ≤ quotedRun k cs := by
  fun_induction quotedRun k cs <;> omega

theorem quotedRun_cons (hquote : c ≠ '"') (hback : c ≠ '\\') (k : Nat) (cs : List Char) :
    quotedRun k (c :: cs) = quotedRun (k + 1) cs := by
  rw [quotedRun]
  · exact fun _ h => absurd h hback
  · exact hback
  · exact hquote

theorem quotedRun_back {cs : List Char} (h : cs.head? ≠ some '"') (k : Nat) :
    quotedRun k ('\\' :: cs) = k := by
  rw [quotedRun]
  rintro cs rfl
  exact h rfl

theorem quotedRun_exchange (hquote : d ≠ '"') (hback : d ≠ '\\')
    (h : quotedRun k (x ++ d :: w) ≤ k + x.length) :
    quotedRun k (x ++ d :: w') = quotedRun k (x ++ d :: w) := by
  fun_induction quotedRun k x with
  | case1 seen cs ih =>
    exact ih (by rw [List.length_cons, List.length_cons] at h; exact Nat.le_trans h (by omega))
  | case2 seen cs hescape =>
    have hhead : ∀ v, (cs ++ d :: v).head? ≠ some '"' := by
      intro v hv
      cases cs with
      | nil => exact hquote (Option.some.inj hv)
      | cons b cs => exact hescape cs (by rw [Option.some.inj hv])
    exact (quotedRun_back (hhead w') seen).trans (quotedRun_back (hhead w) seen).symm
  | case3 => rfl
  | case4 seen b cs _ hb hb' ih =>
    rw [List.cons_append, quotedRun_cons hb' hb] at h
    rw [List.cons_append, List.cons_append, quotedRun_cons hb' hb, quotedRun_cons hb' hb]
    exact ih (by rw [List.length_cons] at h; omega)
  | case5 seen =>
    rw [List.nil_append, quotedRun_cons hquote hback] at h
    have hle := le_quotedRun (seen + 1) w
    rw [List.length_nil] at h
    omega

/-! Steps -/

/-- The two texts begin with the same calm character, and nothing that a step in front of them might
look for tells them apart. -/
structure Exchange (v v' : List Char) : Prop where
  head : ∃ d w w', v = d :: w ∧ v' = d :: w' ∧ isCalm d = true
  numeral : ∀ u, u ≠ [] → Numeral.numeral? (u ++ v') = Numeral.numeral? (u ++ v)
  comments : Uncommented v v'

theorem comment?_exchange (h : Uncommented (d :: w) (d :: w')) (hslash : d ≠ '/') (hstar : d ≠ '*')
    (hn : ∀ n, comment? c (x ++ d :: w) = some n → n ≤ x.length) :
    comment? c (x ++ d :: w') = comment? c (x ++ d :: w) := by
  by_cases hc : c = '/'
  swap
  · unfold comment?
    split <;> split <;> first | rfl | exact absurd rfl hc
  subst hc
  cases x with
  | nil =>
    unfold comment?
    split <;> split <;> grind
  | cons b x =>
    rw [List.cons_append, List.cons_append]
    by_cases hline : b = '/'
    · subst hline
      have hle := hn _ rfl
      rw [List.length_cons, Nat.add_comm] at hle
      exact congrArg some (congrArg (1 + ·) (countWhile_exchange (Nat.le_of_succ_le_succ hle)))
    by_cases hblock : b = '*'
    · subst hblock
      show (commentEnd? 0 (x ++ d :: w')).map (1 + ·) = (commentEnd? 0 (x ++ d :: w)).map (1 + ·)
      cases hend : commentEnd? 0 (x ++ d :: w) with
      | none => rw [(h.front x).none 0 hend]
      | some n =>
        have hle := hn (1 + n) (congrArg (Option.map (1 + ·)) hend)
        rw [List.length_cons] at hle
        rw [commentEnd?_exchange hend (by omega)]
    · unfold comment?
      split <;> split <;> grind

theorem readQuote_exchange (hquote : d ≠ '"') :
    readQuote (x ++ d :: w') = readQuote (x ++ d :: w) := by
  unfold readQuote
  rcases x with _ | ⟨a, _ | ⟨b, x⟩⟩ <;> grind

theorem readCode_exchange (h : Exchange v v')
    (hstray : readCode c (x ++ v) ≠ .plain (some .stray) 0)
    (hn : ∀ kind n, readCode c (x ++ v) = .plain kind n → n ≤ x.length) :
    readCode c (x ++ v') = readCode c (x ++ v) := by
  obtain ⟨d, w, w', rfl, rfl, hcalm⟩ := h.head
  replace hcalm := calm_of_isCalm hcalm
  unfold readCode at hstray hn ⊢
  split
  · rfl
  rename_i hspace
  simp only [if_neg hspace] at hstray hn
  split
  · rename_i hword
    simp only [if_pos hword] at hn
    rw [countWhile_exchange (hn _ _ rfl)]
  rename_i hword
  simp only [if_neg hword] at hstray hn
  split
  · exact readQuote_exchange hcalm.quote
  rename_i hmark
  simp only [if_neg hmark] at hstray hn
  split
  · rename_i hchar
    simp only [if_pos hchar] at hstray hn
    unfold readCharacter at hstray hn ⊢
    cases hend : characterEnd? 0 (x ++ d :: w) with
    | none =>
      rw [hend] at hstray
      exact absurd rfl hstray
    | some n =>
      rw [hend] at hn
      rw [characterEnd?_exchange hend (by rw [Nat.zero_add]; exact hn _ _ rfl)]
  rename_i hchar
  simp only [if_neg hchar] at hn
  unfold readMark at hn ⊢
  have hcomment : comment? c (x ++ d :: w') = comment? c (x ++ d :: w) :=
    comment?_exchange h.comments hcalm.slash hcalm.star fun n hend => hn none n (by rw [hend])
  have hnumber : number? c (x ++ d :: w') = number? c (x ++ d :: w) := by
    unfold number?
    rw [← List.cons_append, h.numeral (c :: x) (List.cons_ne_nil _ _)]
    rfl
  rw [hcomment, hnumber, symbol?_exchange hcalm.symbols]

theorem stringStep_exchange (hd : Calm d) {m : List Mode}
    (hstray : (stringStep c (x ++ d :: w) m).kind ≠ some .stray)
    (hn : (stringStep c (x ++ d :: w) m).more ≤ x.length) :
    stringStep c (x ++ d :: w') m = stringStep c (x ++ d :: w) m := by
  have hhead : (x ++ d :: w').head? = (x ++ d :: w).head? := by cases x <;> rfl
  unfold stringStep at hstray hn ⊢
  split
  · rfl
  rename_i hquote
  simp only [if_neg hquote] at hstray hn
  split
  · rename_i hback
    simp only [if_pos hback] at hstray hn
    rw [hhead]
    split
    · rfl
    rename_i hhole
    simp only [if_neg hhole] at hstray hn
    cases hescape : escape? (x ++ d :: w) with
    | none =>
      rw [hescape] at hstray
      exact absurd rfl hstray
    | some n =>
      rw [hescape] at hn
      rw [escape?_exchange hd.octal hescape hn]
  · rename_i hback
    simp only [if_neg hback] at hn
    rw [countWhile_exchange hn]

theorem blockStep_exchange (hd : Calm d) {m : List Mode}
    (hn : (blockStep c (x ++ d :: w) m).more ≤ x.length) :
    blockStep c (x ++ d :: w') m = blockStep c (x ++ d :: w) m := by
  have hhead : (x ++ d :: w').head? = (x ++ d :: w).head? := by cases x <;> rfl
  unfold blockStep at hn ⊢
  split
  · rename_i hquote
    simp only [if_pos hquote] at hn
    have hpair : ∀ u u' t, x ++ d :: u = '"' :: '"' :: t →
        ∃ t', x ++ d :: u' = '"' :: '"' :: t' := by
      intro u u' t heq
      rcases x with _ | ⟨a, _ | ⟨b, x⟩⟩
      · exact absurd (List.cons.inj heq).1 hd.quote
      · exact absurd (List.cons.inj (List.cons.inj heq).2).1 hd.quote
      · rw [List.cons_append, List.cons_append, List.cons.injEq, List.cons.injEq] at heq
        obtain ⟨rfl, rfl, -⟩ := heq
        exact ⟨_, rfl⟩
    split at hn
    · rename_i heq
      obtain ⟨t, ht⟩ := hpair _ w' _ heq
      rw [ht]
      rfl
    · rename_i hother
      split
      · rename_i heq
        obtain ⟨t, ht⟩ := hpair _ w _ heq
        exact absurd ht (hother t)
      · rw [quotedRun_exchange hd.quote hd.back (by rw [Nat.zero_add]; exact hn)]
  rename_i hquote
  simp only [if_neg hquote] at hn
  split
  · rw [hhead]
  · rename_i hback
    simp only [if_neg hback] at hn
    rw [countWhile_exchange hn]

/-- A step that ends in front of two texts does not tell them apart. -/
theorem step_exchange (h : Exchange v v') {m : List Mode}
    (hstray : (step c (x ++ v) m).kind ≠ some .stray) (hn : (step c (x ++ v) m).more ≤ x.length) :
    step c (x ++ v') m = step c (x ++ v) m := by
  have hcode : (codeStep c (x ++ v) m).kind ≠ some .stray →
      (codeStep c (x ++ v) m).more ≤ x.length → codeStep c (x ++ v') m = codeStep c (x ++ v) m := by
    intro hstray hn
    rw [codeStep_eq] at hstray hn
    rw [codeStep_eq, codeStep_eq, readCode_exchange h]
    · intro heq
      rw [heq] at hstray
      exact hstray rfl
    · intro kind n heq
      rw [heq] at hn
      exact hn
  cases m with
  | nil => exact hcode hstray hn
  | cons mode modes =>
    cases mode with
    | hole _ => exact hcode hstray hn
    | quote =>
      obtain ⟨d, w, w', rfl, rfl, hcalm⟩ := h.head
      exact stringStep_exchange (calm_of_isCalm hcalm) hstray hn
    | block =>
      obtain ⟨d, w, w', rfl, rfl, hcalm⟩ := h.head
      exact blockStep_exchange (calm_of_isCalm hcalm) hn

end Behind

end Retrace.Java.Lexer
