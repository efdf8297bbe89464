import Retrace.Proofs.Java.Brackets
import Retrace.Proofs.Java.Weaving

/-! Modes around a text.

What a step takes depends on the modes around it only when a brace closes a hole. So a text that
closes nothing but its own brackets is taken alike whatever the modes around it (`step_frame`), and
so is a text with paired braces woven into it (`scans_woven`). -/
namespace Retrace.Java.Lexer

/-! ### Brackets among chunks -/

/-- How many braces and holes are open behind a chunk. -/
def Chunk.after (d : Nat) (k : Chunk) : Option Nat :=
  match k.kind with
  | some kind => Bracket.curly.after d ⟨kind, String.ofList k.text, .origin, .origin⟩
  | none => some d

section After
variable {d : Nat} {p : Point} {k : Chunk} {ks js : List Chunk} {cs : List Char}

theorem depth?_locate_cons : Bracket.curly.depth? d (locate p (k :: ks)) =
    (k.after d).bind fun e => Bracket.curly.depth? e (locate (p.advance k.text) ks) := by
  rw [locate, Bracket.depth?_append]
  unfold Chunk.lexeme? Chunk.after
  cases k.kind with
  | none => rfl
  | some kind =>
    exact congrArg (fun e => Option.bind e _) (Option.bind_fun_some _)

/-- Where the chunks stand does not matter to their brackets. -/
theorem depth?_locate (p q : Point) : Bracket.curly.depth? d (locate p ks) =
    Bracket.curly.depth? d (locate q ks) := by
  induction ks generalizing d p q with
  | nil => rfl
  | cons k ks ih =>
    rw [depth?_locate_cons, depth?_locate_cons]
    exact congrArg _ (funext fun e => ih _ _)

def isBracket : LexemeKind → Bool
  | .symbol | .openHole | .closeHole => true
  | _ => false

theorem after_of_not_bracket {kind : LexemeKind} (h : isBracket kind = false) :
    Chunk.after d ⟨cs, some kind⟩ = some d := by
  unfold Chunk.after Bracket.after
  cases kind <;> first | rfl | cases h

theorem after_symbol (hopen : cs ≠ ['\x7b']) (hclose : cs ≠ ['\x7d']) :
    Chunk.after d ⟨cs, some .symbol⟩ = some d := by
  have hsymbol : ∀ b : List Char, cs ≠ b → Lexeme.isSymbol (String.ofList b)
      ⟨.symbol, String.ofList cs, .origin, .origin⟩ = false := fun b hb =>
    beq_eq_false_iff_ne.mpr fun h => hb (String.ofList_injective h)
  unfold Chunk.after Bracket.after Bracket.opens Bracket.closes
  dsimp only
  rw [if_neg, if_neg]
  · simpa using hsymbol _ hclose
  · simpa using hsymbol _ hopen

end After

/-! ### Steps -/

/-- The modes with more braces open in the hole at hand, if it is one. -/
def raise (d : Nat) : List Mode → List Mode
  | .hole n :: m => .hole (n + d) :: m
  | m => m

/-- Two stacks of modes that are the same down to where so many brackets have been opened, and there
stand on these two. -/
inductive Frame (t u : List Mode) : Nat → List Mode → List Mode → Prop
  | ground (d : Nat) : Frame t u d (raise d t) (raise d u)
  | text {d : Nat} {mode : Mode} {m n : List Mode} : mode = .quote ∨ mode = .block →
    Frame t u d m n → Frame t u d (mode :: m) (mode :: n)
  | hole {d : Nat} {m n : List Mode} (braces : Nat) : Frame t u d m n →
    Frame t u (d + 1 + braces) (.hole braces :: m) (.hole braces :: n)

section Steps
variable {t u m n : List Mode} {d e : Nat} {c : Char} {cs x : List Char} {s : Step}

theorem code_raise (h : Code m) (d : Nat) : Code (raise d m) := by
  cases m with
  | nil => trivial
  | cons mode m =>
    cases mode with
    | hole _ => trivial
    | _ => exact h.elim

theorem afterBrace_other (hopen : c ≠ '\x7b') (hclose : c ≠ '\x7d') (h : Code m) :
    afterBrace c m = some m := by
  cases m with
  | nil => rfl
  | cons mode m =>
    cases mode with
    | hole k => simp [afterBrace, hopen, hclose]
    | _ => exact h.elim

theorem afterBrace_open (h : Code m) : afterBrace '\x7b' m = some (raise 1 m) := by
  cases m with
  | nil => rfl
  | cons mode m =>
    cases mode with
    | hole k => rfl
    | _ => exact h.elim

theorem afterBrace_close (h : Code m) (d : Nat) :
    afterBrace '\x7d' (raise (d + 1) m) = some (raise d m) := by
  cases m with
  | nil => rfl
  | cons mode m =>
    cases mode with
    | hole k => rfl
    | _ => exact h.elim

theorem raise_raise (d e : Nat) (m : List Mode) : raise e (raise d m) = raise (d + e) m := by
  cases m with
  | nil => rfl
  | cons mode m =>
    cases mode with
    | hole k => exact congrArg (fun k => Mode.hole k :: m) (Nat.add_assoc k d e)
    | _ => rfl

theorem raise_zero (m : List Mode) : raise 0 m = m := by
  cases m with
  | nil => rfl
  | cons mode m => cases mode <;> rfl

theorem readCode_plain {kind : LexemeKind} {k : Nat} (h : readCode c cs = .plain (some kind) k) :
    isBracket kind = false := by
  unfold readCode readQuote readCharacter readMark at h
  grind [isBracket]

theorem readCode_opening {kind : LexemeKind} {k : Nat} {mode : Mode}
    (h : readCode c cs = .opening kind k mode) :
    isBracket kind = false ∧ (mode = .quote ∨ mode = .block) := by
  unfold readCode readQuote readCharacter readMark at h
  grind [isBracket]

theorem after_openHole (cs : List Char) : Chunk.after d ⟨cs, some .openHole⟩ = some (d + 1) := rfl

theorem after_close (kind : LexemeKind) (h : kind = .symbol ∨ kind = .closeHole)
    (hafter : Chunk.after d ⟨['\x7d'], some kind⟩ = some e) : d = e + 1 := by
  cases d with
  | zero => rcases h with rfl | rfl <;> cases hafter
  | succ d => rcases h with rfl | rfl <;> cases hafter <;> rfl

theorem step_symbol (more : Nat) (h : afterBrace c m = some n) :
    (Reading.symbol more).step c m = ⟨some .symbol, more, n⟩ := by
  unfold Reading.step
  rw [h]

theorem step_hole (more : Nat) (h : afterBrace c m = none) :
    (Reading.symbol more).step c m = ⟨some .closeHole, 0, m.tail⟩ := by
  unfold Reading.step
  rw [h]

section Frame
variable (ht : Code t) (hu : Code u) (h : Frame t u d m n)
include ht hu h

omit ht in
theorem code_of_frame (hm : Code m) : Code n := by
  cases h with
  | ground d => exact code_raise hu d
  | text hmode _ => rcases hmode with rfl | rfl <;> exact hm.elim
  | hole _ _ => trivial

omit ht hu in
theorem frame_open (hm : Code m) : Frame t u (d + 1) (raise 1 m) (raise 1 n) := by
  cases h with
  | ground d =>
    rw [raise_raise, raise_raise]
    exact .ground (d + 1)
  | text hmode _ => rcases hmode with rfl | rfl <;> exact hm.elim
  | hole braces h => exact .hole (braces + 1) h

/-- A closing brace closes the hole at hand in both stacks, or in neither. -/
theorem frame_close (hm : Code m) (hd : d = e + 1) :
    (∃ m' n', afterBrace '\x7d' m = some m' ∧ afterBrace '\x7d' n = some n' ∧ Frame t u e m' n') ∨
      afterBrace '\x7d' m = none ∧ afterBrace '\x7d' n = none ∧ Frame t u e m.tail n.tail := by
  subst hd
  generalize hd : e + 1 = d at h
  cases h with
  | ground d =>
    subst hd
    exact .inl ⟨_, _, afterBrace_close ht e, afterBrace_close hu e, .ground e⟩
  | text hmode _ => rcases hmode with rfl | rfl <;> exact hm.elim
  | @hole d m n braces h =>
    cases braces with
    | zero =>
      obtain rfl : e = d := by omega
      exact .inr ⟨rfl, rfl, h⟩
    | succ braces =>
      obtain rfl : e = d + 1 + braces := by omega
      exact .inl ⟨_, _, rfl, rfl, .hole braces h⟩

theorem codeStep_frame (hm : Code m) (hs : step c cs m = s)
    (hafter : Chunk.after d ⟨c :: cs.take s.more, s.kind⟩ = some e) :
    ∃ n', step c cs n = { s with modes := n' } ∧ Frame t u e s.modes n' := by
  have hn := code_of_frame hu h hm
  rw [step_code hm] at hs
  rw [step_code hn]
  subst hs
  cases hread : readCode c cs with
  | plain kind more =>
    rw [hread] at hafter
    refine ⟨n, rfl, ?_⟩
    have hkind : Chunk.after d ⟨c :: cs.take more, kind⟩ = some d := by
      cases kind with
      | none => rfl
      | some kind => exact after_of_not_bracket (readCode_plain hread)
    obtain rfl := Option.some.inj (hkind.symm.trans hafter)
    exact h
  | opening kind more mode =>
    rw [hread] at hafter
    obtain ⟨hkind, hmode⟩ := readCode_opening hread
    obtain rfl := Option.some.inj ((after_of_not_bracket hkind).symm.trans hafter)
    exact ⟨mode :: n, rfl, .text hmode h⟩
  | symbol more =>
    rw [hread] at hafter
    by_cases hopen : c = '\x7b'
    · subst hopen
      cases hread.symm.trans (readCode_mark (by decide) cs)
      rw [step_symbol 0 (afterBrace_open hm)] at hafter ⊢
      rw [step_symbol 0 (afterBrace_open hn)]
      cases hafter
      exact ⟨_, rfl, frame_open h hm⟩
    by_cases hclose : c = '\x7d'
    · subst hclose
      cases hread.symm.trans (readCode_mark (by decide) cs)
      have hd : d = e + 1 := by
        cases hbrace : afterBrace '\x7d' m with
        | none =>
          rw [step_hole 0 hbrace] at hafter
          exact after_close _ (.inr rfl) hafter
        | some m' =>
          rw [step_symbol 0 hbrace] at hafter
          exact after_close _ (.inl rfl) hafter
      rcases frame_close ht hu h hm hd with ⟨m', n', hm', hn', h'⟩ | ⟨hm', hn', h'⟩
      · rw [step_symbol 0 hm', step_symbol 0 hn']
        exact ⟨n', rfl, h'⟩
      · rw [step_hole 0 hm', step_hole 0 hn']
        exact ⟨n.tail, rfl, h'⟩
    · rw [step_symbol more (afterBrace_other hopen hclose hm)] at hafter ⊢
      rw [step_symbol more (afterBrace_other hopen hclose hn)]
      have hsame : Chunk.after d ⟨c :: cs.take more, some .symbol⟩ = some d :=
        after_symbol (fun h => hopen (List.cons.inj h).1) fun h => hclose (List.cons.inj h).1
      obtain rfl := Option.some.inj (hsame.symm.trans hafter)
      exact ⟨n, rfl, h⟩

omit ht hu h in
/-- What a step in a string does to the modes around the string. -/
theorem step_text {mode : Mode} (hmode : mode = .quote ∨ mode = .block) (c : Char)
    (cs : List Char) :
    (∃ kind more, isBracket kind = false ∧ ((∀ m, step c cs (mode :: m) = ⟨some kind, more, m⟩) ∨
      ∀ m, step c cs (mode :: m) = ⟨some kind, more, mode :: m⟩)) ∨
    ∃ more, ∀ m, step c cs (mode :: m) = ⟨some .openHole, more, .hole 0 :: mode :: m⟩ := by
  rcases hmode with rfl | rfl
  · have hstep : ∀ m, step c cs (.quote :: m) = stringStep c cs (.quote :: m) := fun _ => rfl
    simp only [hstep, stringStep]
    split
    · exact .inl ⟨_, _, rfl, .inl fun _ => rfl⟩
    split
    · split
      · exact .inr ⟨_, fun _ => rfl⟩
      · cases escape? cs <;> exact .inl ⟨_, _, rfl, .inr fun _ => rfl⟩
    · exact .inl ⟨_, _, rfl, .inr fun _ => rfl⟩
  · have hstep : ∀ m, step c cs (.block :: m) = blockStep c cs (.block :: m) := fun _ => rfl
    simp only [hstep, blockStep]
    split
    · split
      · exact .inl ⟨_, _, rfl, .inl fun _ => rfl⟩
      · exact .inl ⟨_, _, rfl, .inr fun _ => rfl⟩
    split
    · cases cs.head? with
      | none => exact .inl ⟨_, _, rfl, .inr fun _ => rfl⟩
      | some d =>
        refine .inl ⟨_, _, ?_, .inr fun _ => rfl⟩
        split <;> rfl
    · exact .inl ⟨_, _, rfl, .inr fun _ => rfl⟩

/-- A step that closes no bracket of the modes around it is taken whatever these modes are. -/
theorem step_frame (hs : step c cs m = s)
    (hafter : Chunk.after d ⟨c :: cs.take s.more, s.kind⟩ = some e) :
    ∃ n', step c cs n = { s with modes := n' } ∧ Frame t u e s.modes n' := by
  by_cases hm : Code m
  · exact codeStep_frame ht hu h hm hs hafter
  subst hs
  cases h with
  | ground d => exact absurd (code_raise ht d) hm
  | hole _ _ => exact absurd trivial hm
  | @text _ mode m n hmode h =>
    rcases step_text hmode c cs with ⟨kind, more, hkind, hstep | hstep⟩ | ⟨more, hstep⟩
    all_goals
      rw [hstep] at hafter ⊢
      rw [hstep]
    · obtain rfl := Option.some.inj ((after_of_not_bracket hkind).symm.trans hafter)
      exact ⟨n, rfl, h⟩
    · obtain rfl := Option.some.inj ((after_of_not_bracket hkind).symm.trans hafter)
      exact ⟨mode :: n, rfl, .text hmode h⟩
    · obtain rfl := Option.some.inj ((after_openHole _).symm.trans hafter)
      exact ⟨_, rfl, .hole 0 (.text hmode h)⟩

end Frame

end Steps

/-! ### Paired braces -/

/-- What stands between braces begins with code, ends with a symbol and closes its own brackets
only. -/
structure Wraps (ks : List Chunk) : Prop where
  level : ∀ p, Bracket.curly.depth? 0 (locate p ks) = some 0
  head : ∃ k kind, ks.head? = some k ∧ k.kind = some kind ∧ ofCode kind = true
  last : ∃ k, ks.getLast? = some k ∧ k.kind = some .symbol

inductive Paired : List Item → Prop
  | nil : Paired []
  | kept (k : Chunk) {is : List Item} : Paired is → Paired (.kept k :: is)
  | pair {inside rest : List Item} : Wraps (source inside) → Paired inside → Paired rest →
    Paired (.opening :: (inside ++ .closing :: rest))

section Woven
variable {is js : List Item} {back : List Char} {m m' n : List Mode} {k : Chunk}

theorem Paired.append (h : Paired is) (h' : Paired js) : Paired (is ++ js) := by
  induction h with
  | nil => exact h'
  | kept k _ ih => exact .kept k ih
  | pair hwraps hinside _ _ ih =>
    rw [List.cons_append, List.append_assoc, List.cons_append]
    exact .pair hwraps hinside ih

theorem code_of_head (h : Fits back m is m') {kind : LexemeKind}
    (hhead : (source is).head? = some k) (hkind : k.kind = some kind)
    (hcode : ofCode kind = true) : Code m := by
  induction h with
  | done => cases hhead
  | kept htakes _ _ =>
    cases hhead
    exact code_of_ofCode (by rw [htakes.step]; exact hkind) hcode
  | opening _ ih | closing _ ih => exact ih hhead

/-- Behind a symbol the text goes on with code. -/
theorem code_after_symbol {c : Char} {cs : List Char} (h : (step c cs m).kind = some .symbol) :
    Code (step c cs m).modes := by
  have hm : Code m := code_of_kind (.inr (.inr h))
  rw [step_code hm] at h ⊢
  cases hread : readCode c cs with
  | plain kind more => exact hm
  | opening kind more mode =>
    rw [hread] at h
    cases h
    cases (readCode_opening hread).1
  | symbol more =>
    rw [hread] at h
    cases hbrace : afterBrace c m with
    | none =>
      rw [step_hole more hbrace] at h
      cases h
    | some n =>
      rw [step_symbol more hbrace]
      cases m with
      | nil =>
        cases hbrace
        trivial
      | cons mode m =>
        cases mode with
        | hole k =>
          unfold afterBrace at hbrace
          grind [Code]
        | _ => exact hm.elim

theorem eq_of_bare (h : Fits back m is m') (his : source is = []) : m' = m := by
  induction h with
  | done => rfl
  | kept _ _ _ => cases his
  | opening _ ih | closing _ ih => exact ih his

theorem code_of_last (h : Fits back m is m') (hlast : (source is).getLast? = some k)
    (hkind : k.kind = some .symbol) : Code m' := by
  induction h with
  | done => cases hlast
  | kept htakes h ih =>
    rename_i is
    rw [source_kept] at hlast
    cases his : source is with
    | cons j js =>
      rw [his, List.getLast?_cons_cons, ← his] at hlast
      exact ih hlast
    | nil =>
      rw [his] at hlast
      cases hlast
      rw [eq_of_bare h his, ← htakes.step]
      exact code_after_symbol (by rw [htakes.step]; exact hkind)
  | opening _ ih | closing _ ih => exact ih hlast

theorem scans_opening (h : Code n) :
    Scans back n [⟨['\x7b'], some .symbol⟩, ⟨[' '], none⟩] (raise 1 n) := by
  have hopen : step '\x7b' ([' '] ++ ([] ++ back)) n = ⟨some .symbol, 0, raise 1 n⟩ := by
    rw [step_code h, readCode_mark (by decide)]
    exact step_symbol 0 (afterBrace_open h)
  have hspace : step ' ' ([] ++ back) (raise 1 n) = ⟨none, 0, raise 1 n⟩ := by
    rw [step_code (code_raise h 1), readCode, if_pos (by decide)]
    rfl
  exact .step (t := []) hopen rfl (.step (t := []) hspace rfl (.done _))

theorem scans_closing (h : Code n) :
    Scans back (raise 1 n) [⟨[' '], none⟩, ⟨['\x7d'], some .symbol⟩] n := by
  have hcode := code_raise h 1
  have hclose : afterBrace '\x7d' (raise 1 n) = some n := by
    rw [afterBrace_close h 0, raise_zero]
  have hspace : step ' ' ([] ++ (['\x7d'] ++ back)) (raise 1 n) = ⟨none, 0, raise 1 n⟩ := by
    rw [step_code hcode, readCode, if_pos (by decide)]
    rfl
  have hbrace : step '\x7d' ([] ++ back) (raise 1 n) = ⟨some .symbol, 0, n⟩ := by
    rw [step_code hcode, readCode_mark (by decide)]
    exact step_symbol 0 hclose
  exact .step (t := []) hspace rfl (.step (t := []) hbrace rfl (.done _))

theorem eq_of_ground {t u : List Mode} (h : Frame t u 0 m n) (hm : Code m) : m = t ∧ n = u := by
  generalize hd : 0 = d at h
  cases h with
  | ground d =>
    subst hd
    exact ⟨raise_zero t, raise_zero u⟩
  | text hmode _ => rcases hmode with rfl | rfl <;> exact hm.elim
  | hole _ _ => omega

/-- With paired braces woven into it, a text is taken as without them. -/
theorem scans_woven (hpaired : Paired is) {t u : List Mode} (ht : Code t) (hu : Code u) {d e : Nat}
    (hframe : Frame t u d m n) (hfits : Fits back m is m') {p : Point}
    (hdepth : Bracket.curly.depth? d (locate p (source is)) = some e) :
    ∃ n', Scans back n (woven is) n' ∧ Frame t u e m' n' := by
  induction hpaired generalizing t u d e m n m' back p with
  | nil =>
    cases hfits
    cases hdepth
    exact ⟨n, .done n, hframe⟩
  | kept k _ ih =>
    cases hfits with
    | @kept c t _ _ s _ htakes hfits =>
      rw [source_kept, depth?_locate_cons] at hdepth
      obtain ⟨d', hafter, hdepth⟩ := Option.bind_eq_some_iff.mp hdepth
      rw [← htakes.text] at hafter
      obtain ⟨n', hstep, hframe'⟩ := step_frame ht hu hframe htakes.step hafter
      obtain ⟨n'', hscans, hframe''⟩ := ih ht hu hframe' hfits hdepth
      exact ⟨n'', .step (s := { s with modes := n' }) hstep htakes.text hscans, hframe''⟩
  | @pair inside rest hwraps _ _ ih ih' =>
    cases hfits with
    | opening hfits =>
      obtain ⟨m₁, hinside, hfits⟩ := hfits.append
      cases hfits with
      | closing hrest =>
        obtain ⟨k, kind, hhead, hkind, hcode⟩ := hwraps.head
        obtain ⟨j, hlast, hsymbol⟩ := hwraps.last
        have hm := code_of_head hinside hhead hkind hcode
        have hn := code_of_frame hu hframe hm
        -- What is between the braces takes the modes at its beginning for its ground.
        have hground : Frame m (raise 1 n) 0 m (raise 1 n) := by
          have h := Frame.ground (t := m) (u := raise 1 n) 0
          rwa [raise_zero, raise_zero] at h
        obtain ⟨n₁, hscans, hframe₁⟩ := ih hm (code_raise hn 1) hground hinside (hwraps.level p)
        obtain ⟨rfl, rfl⟩ := eq_of_ground hframe₁ (code_of_last hinside hlast hsymbol)
        have hlevel := Bracket.depth?_add d (hwraps.level p)
        rw [Nat.zero_add] at hlevel
        rw [source_opening, source_append, source_closing, locate_append, Bracket.depth?_append,
          hlevel] at hdepth
        obtain ⟨n', hscans', hframe'⟩ := ih' ht hu hframe hrest hdepth
        have hclosed : Scans back (raise 1 n) (woven (.closing :: rest)) n' :=
          (scans_closing hn).append hscans'
        have hbody := hscans.append hclosed
        rw [← woven_append] at hbody
        exact ⟨n', (scans_opening hn).append hbody, hframe'⟩

/-- The lexemes of a text with braces sewn in are those of its chunks and the braces. -/
theorem lexFrom_woven (hsewn : Sewn is) (hpaired : Paired is) (h : Scans [] [] (source is) m)
    (hstray : ∀ k ∈ source is, k.kind ≠ some .stray) {p : Point} {e : Nat}
    (hdepth : Bracket.curly.depth? 0 (locate p (source is)) = some e) (q : Point) :
    lexFrom [] q [] (chars (woven is)) = locate q (woven is) := by
  obtain ⟨hfits, _⟩ := fits_of_sewn hsewn (a := []) rfl h hstray
  obtain ⟨_, hscans, _⟩ :=
    scans_woven hpaired (t := []) (u := []) trivial trivial (.ground 0) hfits hdepth
  exact lexFrom_chars hscans

end Woven

end Retrace.Java.Lexer
