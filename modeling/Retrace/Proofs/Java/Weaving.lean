import Retrace.Proofs.Java.Seams

/-! Braces woven into a text.

A text with braces put into it is a list of the chunks of the text and of the braces between them.
If the braces stand behind lexemes that end as they do whatever follows, each chunk is taken as it
is without the braces (`fits_of_sewn`). -/
namespace Retrace.Java.Lexer

/-! ### Lexemes of code -/

/-- Such a lexeme stands in no string. -/
def ofCode : LexemeKind → Bool
  | .word | .symbol | .literal _ | .openQuote | .openBlock | .closeHole => true
  | _ => false

section OfCode
variable {c : Char} {cs : List Char} {m : List Mode} {kind : LexemeKind}

theorem code_of_ofCode (h : (step c cs m).kind = some kind) (hkind : ofCode kind = true) :
    Code m := by
  cases m with
  | nil => trivial
  | cons mode m =>
    cases mode with
    | hole _ => trivial
    | quote =>
      have hstep : (stringStep c cs (.quote :: m)).kind = some kind := h
      unfold stringStep at hstep
      grind [ofCode]
    | block =>
      have hstep : (blockStep c cs (.block :: m)).kind = some kind := h
      unfold blockStep at hstep
      grind [ofCode]

theorem ne_newline_of_ofCode (h : (step c cs m).kind = some kind) (hkind : ofCode kind = true) :
    c ≠ '\n' := by
  rintro rfl
  rw [step_code (code_of_ofCode h hkind), readCode, if_pos (by decide)] at h
  cases h

end OfCode

/-! ### Items -/

inductive Item
  | kept (chunk : Chunk)
  | opening
  | closing

namespace Item

def kept? : Item → Option Chunk
  | kept k => some k
  | _ => none

def chunks : Item → List Chunk
  | kept k => [k]
  | opening => [⟨['\x7b'], some .symbol⟩, ⟨[' '], none⟩]
  | closing => [⟨[' '], none⟩, ⟨['\x7d'], some .symbol⟩]

end Item

/-- The chunks without the braces. -/
def source (is : List Item) : List Chunk := is.filterMap Item.kept?

/-- The chunks with the braces. -/
def woven (is : List Item) : List Chunk := is.flatMap Item.chunks

/-- Between the braces, the lexer takes the chunks that are kept and goes from the first modes to
the second. -/
inductive Fits (back : List Char) : List Mode → List Item → List Mode → Prop
  | done (m : List Mode) : Fits back m [] m
  | kept {c : Char} {t : List Char} {m m' : List Mode} {s : Step} {is : List Item} :
    Takes c t (chars (woven is) ++ back) m s → Fits back s.modes is m' →
    Fits back m (.kept ⟨c :: t, s.kind⟩ :: is) m'
  | opening {m m' : List Mode} {is : List Item} :
    Fits back m is m' → Fits back m (.opening :: is) m'
  | closing {m m' : List Mode} {is : List Item} :
    Fits back m is m' → Fits back m (.closing :: is) m'

section Items
variable {is js : List Item} {k : Chunk} {back : List Char} {m m' m'' : List Mode}

@[simp] theorem source_nil : source [] = [] := rfl
@[simp] theorem source_kept : source (.kept k :: is) = k :: source is := rfl
@[simp] theorem source_opening : source (.opening :: is) = source is := rfl
@[simp] theorem source_closing : source (.closing :: is) = source is := rfl
@[simp] theorem source_append : source (is ++ js) = source is ++ source js :=
  List.filterMap_append
@[simp] theorem woven_nil : woven [] = [] := rfl
@[simp] theorem woven_kept : woven (.kept k :: is) = k :: woven is := rfl
@[simp] theorem woven_append : woven (is ++ js) = woven is ++ woven js := List.flatMap_append

@[simp] theorem chars_woven_opening :
    chars (woven (.opening :: is)) = openingText ++ chars (woven is) := rfl

@[simp] theorem chars_woven_closing :
    chars (woven (.closing :: is)) = closingText ++ chars (woven is) := rfl

theorem Fits.append (h : Fits back m (is ++ js) m'') :
    ∃ m', Fits (chars (woven js) ++ back) m is m' ∧ Fits back m' js m'' := by
  induction is generalizing m with
  | nil => exact ⟨m, .done m, h⟩
  | cons i is ih =>
    cases h with
    | kept htakes h =>
      obtain ⟨m', his, hjs⟩ := ih h
      rw [List.append_eq, woven_append, chars_append, List.append_assoc] at htakes
      exact ⟨m', .kept htakes his, hjs⟩
    | opening h =>
      obtain ⟨m', his, hjs⟩ := ih h
      exact ⟨m', .opening his, hjs⟩
    | closing h =>
      obtain ⟨m', his, hjs⟩ := ih h
      exact ⟨m', .closing his, hjs⟩

end Items

/-! ### Braces behind cuts -/

/-- Only white space and comments stand between an opening brace and a cut in front of it, and code
stands behind it. A closing brace stands directly behind a cut. -/
structure Sewn (is : List Item) : Prop where
  opening : ∀ a b, is = a ++ .opening :: b →
    (∃ front k gap, source a = front ++ k :: gap ∧ k ∈ cuts ∧ ∀ g ∈ gap, g.kind = none) ∧
      ∃ k kind, (source b).head? = some k ∧ k.kind = some kind ∧ ofCode kind = true
  closing : ∀ a b, is = a ++ .closing :: b → ∃ front k, source a = front ++ [k] ∧ k ∈ cuts

/-- How far what stands in front of the items can tell them from their chunks alone. -/
inductive Reach (is : List Item) : Prop
  | far : Far (chars (source is)) (chars (woven is)) → Reach is
  | gap {g b : List Item} : Gap (chars (source is)) (chars (woven is)) → is = g ++ .opening :: b →
    (∀ k ∈ source g, k.kind = none) → Reach is
  | near {b : List Item} : Near (chars (source is)) (chars (woven is)) → is = .closing :: b →
    Reach is

theorem Reach.comments {is : List Item} (h : Reach is) :
    Uncommented (chars (source is)) (chars (woven is)) := by
  cases h with
  | far h => exact h.comments
  | gap h _ _ => exact h.comments
  | near h _ => exact h.comments

theorem kind_of_mem_cuts {k : Chunk} (hk : k ∈ cuts) : k.kind ≠ none := by
  simp only [cuts, List.mem_cons, List.not_mem_nil, or_false] at hk
  rcases hk with rfl | rfl | rfl | rfl | rfl <;> exact Option.some_ne_none _

/-- Of the chunks in front of white space and comments, a cut is the last one. -/
theorem eq_of_gaps {a front g gap : List Chunk} {k cut : Chunk}
    (h : a ++ k :: g = front ++ cut :: gap) (hg : ∀ k ∈ g, k.kind = none)
    (hgap : ∀ k ∈ gap, k.kind = none) (hcut : cut.kind ≠ none) : k.kind = none ∨ k = cut := by
  rcases List.append_eq_append_iff.mp h with ⟨x, _, hx⟩ | ⟨x, _, hx⟩ <;> cases x with
  | nil =>
    cases hx
    exact .inr rfl
  | cons y x =>
    cases hx
    first
    | exact absurd (hg cut (List.mem_append_right x List.mem_cons_self)) hcut
    | exact .inl (hgap k (List.mem_append_right x List.mem_cons_self))

/-- Text that begins with a lexeme of code. -/
theorem scans_head {back : List Char} {m m' : List Mode} {ks : List Chunk} {k : Chunk}
    {kind : LexemeKind} (h : Scans back m ks m') (hhead : ks.head? = some k)
    (hkind : k.kind = some kind) (hcode : ofCode kind = true) :
    chars ks ≠ [] ∧ (chars ks).head? ≠ some '\n' := by
  cases h with
  | done => cases hhead
  | step hstep _ _ =>
    cases hhead
    refine ⟨List.cons_ne_nil _ _, ?_⟩
    rintro ⟨⟩
    exact ne_newline_of_ofCode (by rw [hstep]; exact hkind) hcode rfl

theorem fits_kept {all : List Item} (hsewn : Sewn all) {a is : List Item} {c : Char} {t : List Char}
    {s : Step} (hall : all = a ++ .kept ⟨c :: t, s.kind⟩ :: is) {m : List Mode}
    (htakes : Takes c t (chars (source is)) m s) (hstray : s.kind ≠ some .stray)
    (hreach : Reach is) :
    Takes c t (chars (woven is)) m s ∧ Reach (.kept ⟨c :: t, s.kind⟩ :: is) := by
  have hcut : Near (chars (source is)) (chars (woven is)) → ⟨c :: t, s.kind⟩ ∈ cuts →
      Takes c t (chars (woven is)) m s ∧ Reach (.kept ⟨c :: t, s.kind⟩ :: is) := fun hz hk =>
    ⟨htakes.cut hk hz, .far (.inr ⟨[], _, _, rfl, rfl, exchange_cut hk hz.comments⟩)⟩
  cases hreach with
  | far hz => exact ⟨htakes.far hz hstray, .far (hz.front (c :: t))⟩
  | @gap g b hz his hg =>
    obtain ⟨⟨front, k, gap, hsource, hk, hgap⟩, _⟩ :=
      hsewn.opening (a ++ .kept ⟨c :: t, s.kind⟩ :: g) b (by rw [hall, his, List.append_assoc]; rfl)
    rw [source_append, source_kept] at hsource
    rcases eq_of_gaps hsource hg hgap (kind_of_mem_cuts hk) with hnone | heq
    · obtain ⟨htakes', hz'⟩ := htakes.gap hz hnone
      exact ⟨htakes', .gap (g := .kept ⟨c :: t, s.kind⟩ :: g) hz' (by rw [his]; rfl)
        (List.forall_mem_cons.mpr ⟨hnone, hg⟩)⟩
    · exact hcut hz.toNear (heq ▸ hk)
  | @near b hz his =>
    obtain ⟨front, k, hsource, hk⟩ :=
      hsewn.closing (a ++ [.kept ⟨c :: t, s.kind⟩]) b (by rw [hall, his, List.append_assoc]; rfl)
    rw [source_append] at hsource
    obtain ⟨_, heq⟩ := List.append_inj' hsource rfl
    cases heq
    exact hcut hz hk

/-- Braces that are sewn in do not change what the lexer takes between them. -/
theorem fits_of_sewn {all : List Item} (hsewn : Sewn all) {a is : List Item} (hall : all = a ++ is)
    {m m' : List Mode} (h : Scans [] m (source is) m')
    (hstray : ∀ k ∈ source is, k.kind ≠ some .stray) : Fits [] m is m' ∧ Reach is := by
  induction is generalizing a m with
  | nil =>
    cases h
    exact ⟨.done _, .far (.inl rfl)⟩
  | cons i is ih =>
    have hrest := @ih (a ++ [i]) (by rw [hall, List.append_assoc]; rfl)
    cases i with
    | opening =>
      obtain ⟨hfits, hreach⟩ := hrest h hstray
      obtain ⟨_, k, kind, hhead, hkind, hcode⟩ := hsewn.opening a is hall
      obtain ⟨hne, hline⟩ := scans_head h hhead hkind hcode
      exact ⟨.opening hfits, .gap (g := []) (gap_opening hreach.comments hne hline) rfl
        fun _ hk => nomatch hk⟩
    | closing =>
      obtain ⟨hfits, hreach⟩ := hrest h hstray
      exact ⟨.closing hfits, .near (near_closing hreach.comments) rfl⟩
    | kept k =>
      rw [source_kept] at h hstray
      obtain ⟨hkind, hbehind⟩ := List.forall_mem_cons.mp hstray
      cases h with
      | step hstep htake h =>
        obtain ⟨hfits, hreach⟩ := hrest h hbehind
        rw [List.append_nil] at hstep htake
        obtain ⟨htakes, hreach'⟩ := fits_kept hsewn hall ⟨hstep, htake⟩ hkind hreach
        rw [← List.append_nil (chars (woven is))] at htakes
        exact ⟨.kept htakes hfits, hreach'⟩

end Retrace.Java.Lexer
