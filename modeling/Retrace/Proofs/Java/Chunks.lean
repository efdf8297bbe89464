import Retrace.Proofs.Java.Lexing

/-! The steps of the lexer one by one.

A chunk is what one step takes. `Scans` says that the lexer takes these chunks one after the other
in front of some text, and `lexFrom_chars` that the lexemes of a text are those of its chunks. What
a step takes from code does not depend on the modes, but for the brace that closes a hole
(`codeStep_eq`). -/
namespace Retrace.Java.Lexer

/-! ### Chunks -/

structure Chunk where
  text : List Char
  kind : Option LexemeKind

def chars (ks : List Chunk) : List Char := ks.flatMap Chunk.text

def Chunk.lexeme? (p : Point) (k : Chunk) : Option Lexeme :=
  k.kind.map fun kind => ⟨kind, String.ofList k.text, p, p.advance k.text⟩

/-- The lexemes among the chunks of a text that begins at the point. -/
def locate (p : Point) : List Chunk → List Lexeme
  | [] => []
  | k :: ks => (k.lexeme? p).toList ++ locate (p.advance k.text) ks

/-- In front of `back`, the lexer takes the chunks and goes from the first modes to the second. -/
inductive Scans (back : List Char) : List Mode → List Chunk → List Mode → Prop
  | done (modes : List Mode) : Scans back modes [] modes
  | step {modes after : List Mode} {c : Char} {t : List Char} {ks : List Chunk} {s : Step} :
    Lexer.step c (t ++ (chars ks ++ back)) modes = s →
    (t ++ (chars ks ++ back)).take s.more = t → Scans back s.modes ks after →
    Scans back modes (⟨c :: t, s.kind⟩ :: ks) after

section Chunks
variable {p : Point} {ks js : List Chunk} {back : List Char} {m m' m'' : List Mode}

@[simp] theorem chars_nil : chars [] = [] := rfl

@[simp] theorem chars_cons (k : Chunk) : chars (k :: ks) = k.text ++ chars ks := rfl

@[simp] theorem chars_append : chars (ks ++ js) = chars ks ++ chars js := List.flatMap_append

theorem locate_append : locate p (ks ++ js) = locate p ks ++ locate (p.advance (chars ks)) js := by
  induction ks generalizing p with
  | nil => rfl
  | cons k ks ih =>
    rw [List.cons_append, locate, locate, ih, chars_cons, Point.advance_append, List.append_assoc]

theorem eq_drop_of_take {n : Nat} {t rest : List Char} (h : (t ++ rest).take n = t) :
    (t ++ rest).drop n = rest := by
  have hsplit := List.take_append_drop n (t ++ rest)
  rw [h] at hsplit
  exact List.append_cancel_left hsplit

theorem Scans.append (h : Scans (chars js ++ back) m ks m') (h' : Scans back m' js m'') :
    Scans back m (ks ++ js) m'' := by
  induction h with
  | done => exact h'
  | @step _ _ _ _ ks _ hs htake _ ih =>
    rw [← List.append_assoc (chars ks), ← chars_append] at hs htake
    exact .step hs htake (ih h')

/-- Every text has its chunks. -/
theorem exists_scans (m : List Mode) (cs : List Char) :
    ∃ ks m', chars ks = cs ∧ Scans [] m ks m' := by
  induction hn : cs.length using Nat.strongRecOn generalizing m cs with
  | ind n ih =>
    cases cs with
    | nil => exact ⟨[], m, rfl, .done m⟩
    | cons c cs =>
      obtain ⟨ks, m', hchars, hscans⟩ := ih (cs.drop (step c cs m).more).length
        (by rw [← hn, List.length_drop, List.length_cons]; omega) (step c cs m).modes _ rfl
      have hsplit : cs.take (step c cs m).more ++ (chars ks ++ []) = cs := by
        rw [List.append_nil, hchars, List.take_append_drop]
      refine ⟨⟨c :: cs.take (step c cs m).more, (step c cs m).kind⟩ :: ks, m', ?_,
        .step (by rw [hsplit]) (by rw [hsplit]) hscans⟩
      rw [chars_cons, hchars, List.cons_append, List.take_append_drop]

theorem lexFrom_chars (h : Scans [] m ks m') : lexFrom m p [] (chars ks) = locate p ks := by
  induction h generalizing p with
  | done => rw [chars_nil, lexFrom]; rfl
  | @step m m' c t ks s hs htake _ ih =>
    rw [List.append_nil] at hs htake
    rw [chars_cons, List.cons_append, lexFrom, hs, htake, eq_drop_of_take htake, lexFrom_found, ih,
      locate]
    unfold Chunk.lexeme?
    dsimp only
    cases s.kind <;> rfl

end Chunks

/-! ### Code -/

/-- What a step that reads code takes: a chunk that leaves the modes alone, the opening of a string,
or a symbol. -/
inductive Reading
  | plain (kind : Option LexemeKind) (more : Nat)
  | opening (kind : LexemeKind) (more : Nat) (mode : Mode)
  | symbol (more : Nat)

def Reading.step (c : Char) (modes : List Mode) : Reading → Step
  | plain kind more => ⟨kind, more, modes⟩
  | opening kind more mode => ⟨some kind, more, mode :: modes⟩
  | symbol more =>
    match afterBrace c modes with
    | some modes => ⟨some .symbol, more, modes⟩
    | none => ⟨some .closeHole, 0, modes.tail⟩

def readQuote (cs : List Char) : Reading :=
  match cs with
  | '"' :: '"' :: _ => .opening .openBlock 2 .block
  | _ => .opening .openQuote 0 .quote

def readCharacter (cs : List Char) : Reading :=
  match characterEnd? 0 cs with
  | some n => .plain (some (.literal .characterLiteral)) n
  | none => .plain (some .stray) 0

/-- A comment, a number or a symbol. -/
def readMark (c : Char) (cs : List Char) : Reading :=
  match comment? c cs with
  | some n => .plain none n
  | none =>
    match number? c cs with
    | some (form, n) => .plain (some (.literal form)) n
    | none =>
      match symbol? c cs with
      | some n => .symbol n
      | none => .plain (some .stray) 0

def readCode (c : Char) (cs : List Char) : Reading :=
  if isSpace c then .plain none 0
  else if Text.isIdentifierStart c then
    .plain (some .word) (countWhile Text.isIdentifierPart cs)
  else if c == '"' then readQuote cs
  else if c == '\'' then readCharacter cs
  else readMark c cs

theorem quoteStart_eq {c : Char} (cs : List Char) (m : List Mode) :
    quoteStart cs m = (readQuote cs).step c m := by
  unfold quoteStart readQuote
  split <;> grind [Reading.step]

theorem codeStep_eq (c : Char) (cs : List Char) (m : List Mode) :
    codeStep c cs m = (readCode c cs).step c m := by
  unfold codeStep readCode codeStep.isIdentifierStart codeStep.isIdentifierPart
  split
  · rfl
  split
  · rfl
  split
  · exact quoteStart_eq cs m
  split
  · unfold readCharacter
    cases characterEnd? 0 cs <;> rfl
  unfold readMark
  cases comment? c cs with
  | some n => rfl
  | none =>
    cases number? c cs with
    | some found => rfl
    | none => cases symbol? c cs <;> rfl

end Retrace.Java.Lexer
