import Mathlib.Data.List.Nodup
import Retrace.Instrument.Braces
import Retrace.Proofs.Java.Parsing

/-! Braces by walking the tree.

`walk` goes through the tree of a file and puts braces around every branch and loop body that is a
single statement. What it writes is the normalized text, although that is made by insertions which
are sorted by offset and depth only: the sorted insertions are the braces of the walk, in the order
in which it writes them. `Writes` is what each part of the walk keeps, whatever it is put
together of. -/
namespace Retrace.Instrument.Braces
open Java Source

/-- Plain text, or a body in braces, and the passage behind it. -/
inductive Passage
  | done
  | plain (text : List Char) (rest : Passage)
  | braced (body : Nat) (inside rest : Passage)

namespace Passage

def append : Passage → Passage → Passage
  | done, q => q
  | plain text rest, q => plain text (rest.append q)
  | braced b inside rest, q => braced b inside (rest.append q)

def write : Passage → List Char
  | done => []
  | plain text rest => text ++ rest.write
  | braced _ inside rest => "\x7b ".toList ++ inside.write ++ " \x7d".toList ++ rest.write

/-- The text without the braces. -/
def erase : Passage → List Char
  | done => []
  | plain text rest => text ++ rest.erase
  | braced _ inside rest => inside.erase ++ rest.erase

/-- The bodies in braces, outer ones first. -/
def bodies : Passage → List Nat
  | done => []
  | plain _ rest => rest.bodies
  | braced b inside rest => b :: (inside.bodies ++ rest.bodies)

end Passage

/-- A body stands in braces with this passage inside of them. -/
inductive Encloses (b : Nat) (inside : Passage) : Passage → Prop
  | here (rest : Passage) : Encloses b inside (.braced b inside rest)
  | later (text : List Char) {rest : Passage} :
    Encloses b inside rest → Encloses b inside (.plain text rest)
  | inner (c : Nat) {p : Passage} (rest : Passage) :
    Encloses b inside p → Encloses b inside (.braced c p rest)
  | behind (c : Nat) (p : Passage) {rest : Passage} :
    Encloses b inside rest → Encloses b inside (.braced c p rest)

/-! ### The walk -/

/-- `b` is a branch or the body of `i`, and not a block. -/
def isSingle (f : File) (i b : Nat) : Bool :=
  f.form b != .block &&
    if f.form i == .ifStatement then
      f.child? i .consequence == some b || f.child? i .alternative == some b
    else (f.form i).isLoop && f.child? i .body == some b

def between (f : File) (lower upper : Nat) : List Char := File.slice lower upper 0 f.text.toList

/-- The text of a node from an offset on, behind which these children stand. -/
def passageFrom (f : File) (child : Nat → Passage) (i offset : Nat) : List Nat → Passage
  | [] => .plain (between f offset (f.node i).stop) .done
  | c :: cs =>
    let rest := passageFrom f child i (f.node c).stop cs
    .plain (between f offset (f.node c).start)
      (if isSingle f i c then .braced c (child c) rest else (child c).append rest)

/-- The text of a node with braces around the single statements in it. -/
def passage (f : File) (i : Nat) : Passage :=
  passageFrom f (fun c => if i < c ∧ c < f.nodes.size then passage f c else .done) i
    (f.node i).start (f.children i)
termination_by f.nodes.size - i

/-- The whole text with its braces. -/
def walk (f : File) : Passage :=
  .plain (between f 0 (f.node 0).start)
    ((passage f 0).append (.plain (between f (f.node 0).stop (bytes f.text.toList)) .done))

def opening (f : File) (b : Nat) : Insertion := ⟨(f.node b).start, "\x7b ", f.depth b⟩

def closing (f : File) (b : Nat) : Insertion := ⟨(f.node b).stop, " \x7d", -f.depth b - 1⟩

def pieces (f : File) : Passage → List Piece
  | .done => []
  | .plain text rest => Piece.keep text ++ pieces f rest
  | .braced b inside rest =>
    .added (opening f b) :: (pieces f inside ++ .added (closing f b) :: pieces f rest)

/-- The braces of a passage from left to right. -/
def marks (f : File) (p : Passage) : List Insertion := Piece.insertions (pieces f p)

section Passage
variable (f : File) (p q : Passage)

theorem pieces_append : pieces f (p.append q) = pieces f p ++ pieces f q := by
  induction p with
  | done => rfl
  | plain text rest ih => rw [Passage.append, pieces, pieces, ih, List.append_assoc]
  | braced b inside rest _ ih => simp [Passage.append, pieces, ih]

theorem marks_append : marks f (p.append q) = marks f p ++ marks f q := by
  unfold marks
  rw [pieces_append, Piece.insertions_append]

theorem marks_plain (text : List Char) (rest : Passage) :
    marks f (.plain text rest) = marks f rest := by
  unfold marks
  rw [pieces, Piece.insertions_append, Piece.insertions_keep, List.nil_append]

theorem marks_braced (b : Nat) (inside rest : Passage) : marks f (.braced b inside rest) =
    opening f b :: (marks f inside ++ closing f b :: marks f rest) := by
  simp [marks, pieces]

theorem erase_append : (p.append q).erase = p.erase ++ q.erase := by
  induction p with
  | done => rfl
  | plain text rest ih => rw [Passage.append, Passage.erase, Passage.erase, ih, List.append_assoc]
  | braced b inside rest _ ih =>
    rw [Passage.append, Passage.erase, Passage.erase, ih, List.append_assoc]

theorem bodies_append : (p.append q).bodies = p.bodies ++ q.bodies := by
  induction p with
  | done => rfl
  | plain text rest ih => exact ih
  | braced b inside rest _ ih =>
    rw [Passage.append, Passage.bodies, Passage.bodies, ih, List.cons_append, List.append_assoc]

theorem source_pieces : Piece.source (pieces f p) = p.erase := by
  induction p with
  | done => rfl
  | plain text rest ih => simp [pieces, Passage.erase, ih]
  | braced b inside rest ih ih' => simp [pieces, Passage.erase, ih, ih']

theorem text_pieces : Piece.text (pieces f p) = p.write := by
  induction p with
  | done => rfl
  | plain text rest ih => simp [pieces, Passage.write, ih]
  | braced b inside rest ih ih' => simp [pieces, Passage.write, ih, ih', opening, closing]

/-- The braces of a passage are those of its bodies. -/
theorem marks_perm : (marks f p).Perm (p.bodies.flatMap (around f)) := by
  induction p with
  | done => exact .refl _
  | plain text rest ih =>
    rw [marks_plain]
    exact ih
  | braced b inside rest ih ih' =>
    rw [marks_braced, Passage.bodies, List.flatMap_cons, List.flatMap_append]
    refine (List.Perm.cons _ (List.perm_middle.trans ?_))
    exact List.Perm.cons _ (ih.append ih')

/-- The opening ones among them are the bodies in their order. -/
theorem openings_marks : (marks f p).filter (fun m => 0 ≤ m.order) = p.bodies.map (opening f) := by
  induction p with
  | done => rfl
  | plain text rest ih =>
    rw [marks_plain]
    exact ih
  | braced b inside rest ih ih' =>
    have hopening : 0 ≤ (opening f b).order := Int.natCast_nonneg _
    have hclosing : ¬0 ≤ (closing f b).order := by
      unfold closing
      dsimp only
      omega
    rw [marks_braced, Passage.bodies]
    simp [hopening, hclosing, ih, ih']

end Passage

/-! ### What each part of the walk keeps -/

/-- A brace between two offsets whose body lies at least so deep. An opening one has its body behind
it, a closing one in front of it. -/
def Inside (lower upper depth : Nat) (m : Insertion) : Prop :=
  (depth : Int) ≤ m.order ∧ lower ≤ m.offset ∧ m.offset < upper ∨
    m.order ≤ -(depth : Int) - 1 ∧ lower < m.offset ∧ m.offset ≤ upper

/-- The passage is the text between the offsets, and its braces are in the order in which they
are inserted. -/
structure Writes (f : File) (lower upper depth : Nat) (p : Passage) : Prop where
  start : Boundary 0 f.text.toList lower
  stop : Boundary 0 f.text.toList upper
  le : lower ≤ upper
  erase : p.erase = between f lower upper
  aligned : Piece.Aligned lower (pieces f p)
  inside : ∀ m ∈ marks f p, Inside lower upper depth m
  sorted : (marks f p).Pairwise Insertion.Before

section Writes
variable {f : File} {a b c d : Nat} {p q : Passage}

theorem writes_plain (ha : Boundary 0 f.text.toList a) (hb : Boundary 0 f.text.toList b)
    (hab : a ≤ b) : Writes f a b d (.plain (between f a b) .done) where
  start := ha
  stop := hb
  le := hab
  erase := List.append_nil _
  aligned := by
    rw [pieces, pieces, List.append_nil]
    exact Piece.aligned_keep _ _
  inside m hm := by
    rw [marks_plain] at hm
    cases hm
  sorted := by
    rw [marks_plain]
    exact List.Pairwise.nil

theorem Writes.append (hp : Writes f a b d p) (hq : Writes f b c d q) :
    Writes f a c d (p.append q) where
  start := hp.start
  stop := hq.stop
  le := Nat.le_trans hp.le hq.le
  erase := by
    rw [erase_append, hp.erase, hq.erase]
    exact slice_append hp.start hp.stop hq.stop hp.le hq.le
  aligned := by
    rw [pieces_append, Piece.aligned_append, source_pieces, hp.erase]
    unfold between
    rw [bytes_slice hp.start hp.stop hp.le]
    exact ⟨hp.aligned, hq.aligned⟩
  inside m hm := by
    have hab := hp.le
    have hbc := hq.le
    rw [marks_append] at hm
    unfold Inside
    rcases List.mem_append.mp hm with hm | hm
    · rcases hp.inside m hm with h | h <;> omega
    · rcases hq.inside m hm with h | h <;> omega
  sorted := by
    rw [marks_append]
    refine List.pairwise_append.mpr ⟨hp.sorted, hq.sorted, fun m hm n hn => ?_⟩
    -- Where the two meet, the first closes and the second opens.
    unfold Insertion.Before
    rcases hp.inside m hm with hm | hm <;> rcases hq.inside n hn with hn | hn <;> omega

theorem Writes.shallow (h : Writes f a b (d + 1) p) : Writes f a b d p :=
  ⟨h.start, h.stop, h.le, h.erase, h.aligned, fun m hm => by
    have hinside := h.inside m hm
    unfold Inside at hinside ⊢
    omega, h.sorted⟩

theorem Writes.braced {body : Nat} (hfilled : (f.node body).start < (f.node body).stop)
    (hp : Writes f (f.node body).start (f.node body).stop (f.depth body + 1) p) :
    Writes f (f.node body).start (f.node body).stop (f.depth body) (.braced body p .done) := by
  have hmarks : marks f (.braced body p .done) =
      opening f body :: (marks f p ++ [closing f body]) := marks_braced f body p .done
  have hopening : Inside (f.node body).start (f.node body).stop (f.depth body) (opening f body) :=
    .inl ⟨Int.le_refl _, Nat.le_refl _, hfilled⟩
  have hclosing : Inside (f.node body).start (f.node body).stop (f.depth body) (closing f body) :=
    .inr ⟨Int.le_refl _, hfilled, Nat.le_refl _⟩
  refine ⟨hp.start, hp.stop, hp.le, (List.append_nil _).trans hp.erase, ?_, ?_, ?_⟩
  · rw [pieces, pieces]
    refine ⟨rfl, Piece.aligned_append.mpr ⟨hp.aligned, ?_, trivial⟩⟩
    rw [source_pieces, hp.erase]
    exact (bytes_slice hp.start hp.stop hp.le).symm
  · rw [hmarks]
    refine List.forall_mem_cons.mpr ⟨hopening, List.forall_mem_append.mpr
      ⟨fun m hm => ?_, List.forall_mem_singleton.mpr hclosing⟩⟩
    have hinside := hp.inside m hm
    unfold Inside at hinside ⊢
    omega
  · rw [hmarks]
    -- The braces inside belong to deeper bodies: they open behind the outer one and close before.
    refine List.pairwise_cons.mpr ⟨List.forall_mem_append.mpr ⟨fun m hm => ?_, ?_⟩,
      List.pairwise_append.mpr ⟨hp.sorted, List.pairwise_singleton _ _, fun m hm n hn => ?_⟩⟩
    · have hinside := hp.inside m hm
      unfold Inside at hinside
      unfold Insertion.Before opening
      dsimp only
      omega
    · exact List.forall_mem_singleton.mpr (.inl hfilled)
    · rw [List.mem_singleton.mp hn]
      have hinside := hp.inside m hm
      unfold Inside at hinside
      unfold Insertion.Before closing
      dsimp only
      omega

end Writes

/-! ### The whole walk -/

theorem mem_bare {f : File} {i b : Nat} : b ∈ bare f i ↔ isSingle f i b = true := by
  unfold bare bodies isSingle
  rw [List.mem_filter, Bool.and_eq_true, and_comm]
  refine and_congr_right fun _ => ?_
  split
  · simp
  · split
    · rename_i hloop
      simp [hloop]
    · rename_i hloop
      simp [hloop]

section Walk
variable {f : File} (hlinked : f.Linked)
include hlinked

theorem child_of_isSingle {i b : Nat} (h : isSingle f i b = true) : b ∈ f.children i := by
  unfold isSingle at h
  obtain ⟨_, h⟩ := Bool.and_eq_true_iff.mp h
  split at h
  · rcases Bool.or_eq_true_iff.mp h with h | h
    · exact hlinked.child_of_child? (beq_iff_eq.mp h)
    · exact hlinked.child_of_child? (beq_iff_eq.mp h)
  · exact hlinked.child_of_child? (beq_iff_eq.mp (Bool.and_eq_true_iff.mp h).2)

theorem passage_eq (i : Nat) :
    passage f i = passageFrom f (passage f) i (f.node i).start (f.children i) := by
  have hcongr : ∀ {child : Nat → Passage} {cs : List Nat} {offset : Nat},
      (∀ c ∈ cs, child c = passage f c) →
      passageFrom f child i offset cs = passageFrom f (passage f) i offset cs := by
    intro child cs
    induction cs with
    | nil => exact fun _ => rfl
    | cons c cs ih =>
      intro offset h
      obtain ⟨hc, hcs⟩ := List.forall_mem_cons.mp h
      rw [passageFrom, passageFrom, hc, ih hcs]
  rw [passage]
  exact hcongr fun c hc => if_pos (hlinked.bounds hc)

/-- What holds of a node when it holds of its children holds of every node. -/
theorem of_children {P : Nat → Prop} (h : ∀ i, (∀ c ∈ f.children i, P c) → P i) (i : Nat) :
    P i := by
  induction hn : f.nodes.size - i using Nat.strongRecOn generalizing i with
  | ind n ih =>
    refine h i fun c hc => ?_
    obtain ⟨hlt, hsize⟩ := hlinked.bounds hc
    exact ih (f.nodes.size - c) (by omega) c rfl

/-- The walk puts braces around the single statements below a node. -/
theorem mem_bodies {i b : Nat} :
    b ∈ (passage f i).bodies ↔ ∃ j, f.Below i j ∧ isSingle f j b = true := by
  have hfrom : ∀ {i : Nat} {cs : List Nat} {offset : Nat},
      b ∈ (passageFrom f (passage f) i offset cs).bodies ↔
        ∃ c ∈ cs, isSingle f i c = true ∧ b = c ∨ b ∈ (passage f c).bodies := by
    intro i cs
    induction cs with
    | nil => simp [passageFrom, Passage.bodies]
    | cons c cs ih =>
      intro offset
      rw [passageFrom, Passage.bodies]
      split
      · rename_i hsingle
        simp [Passage.bodies, ih, hsingle, or_assoc]
      · rename_i hsingle
        simp [bodies_append, ih, hsingle]
  induction i using of_children hlinked with
  | h i ih =>
    rw [passage_eq hlinked, hfrom]
    constructor
    · rintro ⟨c, hc, ⟨hsingle, rfl⟩ | hb⟩
      · exact ⟨i, File.below_refl f i, hsingle⟩
      · obtain ⟨j, hj, hsingle⟩ := (ih c hc).mp hb
        exact ⟨j, (File.below_child hc).trans hj, hsingle⟩
    · rintro ⟨j, hj, hsingle⟩
      rcases hj.cases with rfl | ⟨c, hc, hj⟩
      · exact ⟨b, child_of_isSingle hlinked hsingle, .inl ⟨hsingle, rfl⟩⟩
      · exact ⟨c, hc, .inr ((ih c hc).mpr ⟨j, hj, hsingle⟩)⟩

omit hlinked in
theorem encloses_append {b : Nat} {inside p q : Passage} (h : Encloses b inside (p.append q)) :
    Encloses b inside p ∨ Encloses b inside q := by
  induction p with
  | done => exact .inr h
  | plain text rest ih =>
    cases h with
    | later _ h => exact (ih h).imp_left (.later text)
  | braced c p rest _ ih =>
    cases h with
    | here _ => exact .inl (.here rest)
    | inner _ _ h => exact .inl (.inner c rest h)
    | behind _ _ h => exact (ih h).imp_left (.behind c p)

/-- A body has its own text in its braces. -/
theorem eq_passage_of_encloses {i b : Nat} {inside : Passage}
    (h : Encloses b inside (passage f i)) : inside = passage f b := by
  have hfrom : ∀ {i : Nat} {cs : List Nat} {offset : Nat},
      Encloses b inside (passageFrom f (passage f) i offset cs) →
        inside = passage f b ∨ ∃ c ∈ cs, Encloses b inside (passage f c) := by
    intro i cs
    induction cs with
    | nil =>
      intro offset h
      cases h with
      | later _ h => cases h
    | cons c cs ih =>
      intro offset h
      have hrest : inside = passage f b ∨ (∃ c ∈ cs, Encloses b inside (passage f c)) →
          inside = passage f b ∨ ∃ d ∈ c :: cs, Encloses b inside (passage f d) :=
        Or.imp_right fun ⟨d, hd, h⟩ => ⟨d, List.mem_cons_of_mem c hd, h⟩
      rw [passageFrom] at h
      cases h with
      | later _ h =>
        split at h
        · cases h with
          | here _ => exact .inl rfl
          | inner _ _ h => exact .inr ⟨c, List.mem_cons_self, h⟩
          | behind _ _ h => exact hrest (ih h)
        · rcases encloses_append h with h | h
          · exact .inr ⟨c, List.mem_cons_self, h⟩
          · exact hrest (ih h)
  induction i using of_children hlinked with
  | h i ih =>
    rw [passage_eq hlinked] at h
    rcases hfrom h with h | ⟨c, hc, h⟩
    · exact h
    · exact ih c hc h

variable (hin : f.InText) (hfilled : ∀ i, ∀ b ∈ bare f i, (f.node b).start < (f.node b).stop)
include hin hfilled

theorem writes_passageFrom {i : Nat} (h : ∀ c ∈ f.children i,
      Writes f (f.node c).start (f.node c).stop (f.depth c + 1) (passage f c))
    {cs : List Nat} {offset : Nat} (hcs : ∀ c ∈ cs, c ∈ f.children i ∧ offset ≤ (f.node c).start)
    (hapart : cs.Pairwise fun a b => (f.node a).stop ≤ (f.node b).start)
    (hoffset : Boundary 0 f.text.toList offset) (hle : offset ≤ (f.node i).stop) :
    Writes f offset (f.node i).stop (f.depth i + 1) (passageFrom f (passage f) i offset cs) := by
  induction cs generalizing offset with
  | nil => exact writes_plain hoffset (hin.stop i) hle
  | cons c cs ih =>
    obtain ⟨⟨hc, hstart⟩, hcs⟩ := List.forall_mem_cons.mp hcs
    obtain ⟨hbehind, hapart⟩ := List.pairwise_cons.mp hapart
    have hrest := ih (fun d hd => ⟨(hcs d hd).1, hbehind d hd⟩) hapart (hin.stop c)
      (hin.within hc).2
    have hfront : ∀ q, Writes f (f.node c).start (f.node i).stop (f.depth i + 1) q →
        Writes f offset (f.node i).stop (f.depth i + 1)
          (.plain (between f offset (f.node c).start) q) :=
      fun q hq => (writes_plain hoffset (hin.start c) hstart).append hq
    have hchild := h c hc
    rw [hlinked.depth_child hc] at hchild
    rw [passageFrom]
    refine hfront _ ?_
    split
    · rename_i hsingle
      have hbraced := (h c hc).braced (hfilled i c (mem_bare.mpr hsingle))
      rw [hlinked.depth_child hc] at hbraced
      exact hbraced.append hrest
    · exact hchild.shallow.append hrest

theorem writes_passage (i : Nat) :
    Writes f (f.node i).start (f.node i).stop (f.depth i + 1) (passage f i) := by
  induction i using of_children hlinked with
  | h i ih =>
    rw [passage_eq hlinked]
    exact writes_passageFrom hlinked hin hfilled ih (fun c hc => ⟨hc, (hin.within hc).1⟩)
      (hin.apart i) (hin.start i) (hin.le i)

theorem writes_walk : Writes f 0 (bytes f.text.toList) (f.depth 0 + 1) (walk f) := by
  have hend : (f.node 0).stop ≤ bytes f.text.toList := by
    obtain ⟨front, back, hsplit, hstop⟩ := hin.stop 0
    rw [hsplit, bytes_append]
    omega
  have hfront : Writes f 0 (f.node 0).start (f.depth 0 + 1)
      (.plain (between f 0 (f.node 0).start) .done) :=
    writes_plain (boundary_zero _) (hin.start 0) (Nat.zero_le _)
  exact hfront.append ((writes_passage hlinked hin hfilled 0).append
    (writes_plain (hin.stop 0) (boundary_bytes _) hend))

omit hin hfilled in
theorem nodup_bare (i : Nat) : (bare f i).Nodup := by
  have hlone : ∀ o : Option Nat, o.toList.Nodup := fun o => by cases o <;> simp
  refine List.Nodup.filter _ ?_
  unfold Braces.bodies
  split
  · refine List.nodup_append.mpr ⟨hlone _, hlone _, fun b hb c hc heq => ?_⟩
    have hleft := hlinked.slot_of_child? (Option.mem_toList.mp hb)
    have hright := hlinked.slot_of_child? (Option.mem_toList.mp hc)
    rw [heq, hright] at hleft
    cases hleft
  · split
    · exact hlone _
    · exact List.nodup_nil

omit hin hfilled in
theorem nodup_allBare : (f.numbersOf.flatMap (bare f)).Nodup := by
  refine List.pairwise_flatMap.mpr ⟨fun i _ => nodup_bare hlinked i,
    List.nodup_range.imp fun {i j} hij b hb c hc heq => hij ?_⟩
  have hleft := hlinked.parents.mpr (child_of_isSingle hlinked (mem_bare.mp hb))
  have hright := hlinked.parents.mpr (child_of_isSingle hlinked (mem_bare.mp hc))
  rw [heq, hright] at hleft
  exact (Option.some.inj hleft).symm

/-- The walk puts braces around every single statement, once. -/
theorem bodies_perm : (walk f).bodies.Perm (f.numbersOf.flatMap (bare f)) := by
  have hmarks : (marks f (walk f)).Nodup := by
    refine (writes_walk hlinked hin hfilled).sorted.imp fun {m n} h heq => ?_
    rw [heq] at h
    unfold Insertion.Before at h
    omega
  have hnodup : (walk f).bodies.Nodup := by
    refine List.Nodup.of_map (opening f) ?_
    rw [← openings_marks]
    exact hmarks.filter _
  refine (List.perm_ext_iff_of_nodup hnodup (nodup_allBare hlinked)).mpr fun b => ?_
  have hwalk : (walk f).bodies = (passage f 0).bodies := by
    rw [walk, Passage.bodies, bodies_append]
    exact List.append_nil _
  rw [hwalk, mem_bodies hlinked, List.mem_flatMap]
  simp only [mem_bare]
  constructor
  · rintro ⟨j, _, hsingle⟩
    exact ⟨j, List.mem_range.mpr (lt_size_of_child (child_of_isSingle hlinked hsingle)), hsingle⟩
  · rintro ⟨j, hj, hsingle⟩
    exact ⟨j, hlinked.below_root (List.mem_range.mp hj), hsingle⟩

/-- The insertions are made in the order in which the walk writes them. -/
theorem sort_insertions : Insertion.sort (insertions f) = marks f (walk f) := by
  refine Insertion.sort_eq_of_perm ?_ (writes_walk hlinked hin hfilled).sorted
  have hall : insertions f = (f.numbersOf.flatMap (bare f)).flatMap (around f) :=
    List.flatMap_assoc.symm
  rw [hall]
  exact ((marks_perm f _).trans ((bodies_perm hlinked hin hfilled).flatMap_right _)).symm

omit hlinked hin hfilled in
/-- No insertions are an edit like any other. -/
theorem normalizedText_eq (f : File) :
    normalizedText f = (Edit.apply f.text (insertions f)).getD f.text := by
  unfold normalizedText text?
  split
  · rename_i hnone
    rw [hnone, Edit.apply_nil]
    rfl
  · rfl

theorem normalizedText_eq_write : normalizedText f = String.ofList (walk f).write := by
  have hwalk := writes_walk hlinked hin hfilled
  have hsource : Piece.source (pieces f (walk f)) = f.text.toList := by
    rw [source_pieces, hwalk.erase]
    exact slice_all _
  rw [normalizedText_eq, Piece.apply_of_aligned hwalk.aligned hsource
    (sort_insertions hlinked hin hfilled).symm, text_pieces]
  rfl

end Walk

/-- The bodies of a parsed file take up text. -/
theorem filled_parse {path text : String} {i b : Nat} (hb : b ∈ bare (parse path text) i) :
    ((parse path text).node b).start < ((parse path text).node b).stop := by
  have hlinked := parse_linked path text
  obtain ⟨hlt, hsize⟩ := hlinked.bounds (child_of_isSingle hlinked (mem_bare.mp hb))
  exact parse_lt (Nat.lt_of_le_of_lt (Nat.zero_le i) hlt) hsize

/-- Each opening brace is followed by what stands in the braces of its body and then by the closing
brace of the same body. -/
inductive Paired (f : File) : List Insertion → Prop
  | none : Paired f []
  | pair (b : Nat) {inside rest : List Insertion} : Paired f inside → Paired f rest →
    Paired f (opening f b :: (inside ++ closing f b :: rest))

theorem paired_marks (f : File) (p : Passage) : Paired f (marks f p) := by
  induction p with
  | done => exact .none
  | plain text rest ih =>
    rw [marks_plain]
    exact ih
  | braced b inside rest ih ih' =>
    rw [marks_braced]
    exact .pair b ih ih'

/-- Normalizing a file whose nodes stand in its text is to walk its tree and put every branch and
loop body that is a single statement in braces. So the inserted braces are paired, there is one pair
for each such body, and it encloses the text that the body has after its own walk. -/
theorem normalizedText_eq_walk {f : File} (hlinked : f.Linked) (hin : f.InText)
    (hfilled : ∀ i, ∀ b ∈ bare f i, (f.node b).start < (f.node b).stop) :
    normalizedText f = String.ofList (walk f).write ∧
      (walk f).erase = f.text.toList ∧
      Paired f (Insertion.sort (insertions f)) ∧
      (walk f).bodies.Perm (f.numbersOf.flatMap (bare f)) ∧
      ∀ b inside, Encloses b inside (walk f) → inside = passage f b ∧
        inside.erase = between f (f.node b).start (f.node b).stop := by
  have hwalk := writes_walk hlinked hin hfilled
  refine ⟨normalizedText_eq_write hlinked hin hfilled, hwalk.erase.trans (slice_all _), ?_,
    bodies_perm hlinked hin hfilled, fun b inside h => ?_⟩
  · rw [sort_insertions hlinked hin hfilled]
    exact paired_marks f _
  · have hinside : inside = passage f b := by
      unfold walk at h
      cases h with
      | later _ h =>
        rcases encloses_append h with h | h
        · exact eq_passage_of_encloses hlinked h
        · cases h with
          | later _ h => cases h
    exact ⟨hinside, by rw [hinside, (writes_passage hlinked hin hfilled b).erase]⟩

/-- A chain of branches whose last bodies end at one offset. -/
theorem walk_of_nested_bodies :
    let f := parse "A.java" "class A{void m(){if(a)b();else if(c)for(;;)while(d)e();else g();}}"
    normalizedText f =
      "class A{void m(){if(a){ b(); }else { if(c){ for(;;){ while(d){ e(); } } }else { g(); } }}}" :=
  (normalizedText_eq_walk (parse_linked _ _) (parse_inText _ _)
    fun _ _ hb => filled_parse hb).1.trans (by decide +kernel)

end Retrace.Instrument.Braces
