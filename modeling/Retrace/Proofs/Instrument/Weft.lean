import Retrace.Proofs.Instrument.Braces
import Retrace.Proofs.Java.Woven

/-! The walk and the chunks of its text.

All that the walk writes begins and ends where chunks of the text do, so what it writes is the
chunks with braces among them. `Weaves` is what each part of the walk keeps. -/
namespace Retrace.Instrument.Braces
open Java Source
open Java.Lexer (Chunk Item chars woven width Solid Wraps Seam width_cons width_append
  nil_of_width)

/-! ### Items by their offsets -/

/-- The braces among the items stand at such offsets. -/
def Placed (starts stops : Nat → Prop) : Nat → List Item → Prop
  | _, [] => True
  | o, .kept k :: is => Placed starts stops (o + bytes k.text) is
  | o, .opening :: is => starts o ∧ Placed starts stops o is
  | o, .closing :: is => stops o ∧ Placed starts stops o is

section Placed
variable {starts stops : Nat → Prop} {o : Nat} {is js : List Item} {k : Chunk}
  {ks front back : List Chunk}

theorem placed_append : Placed starts stops o (is ++ js) ↔
    Placed starts stops o is ∧ Placed starts stops (o + width (Lexer.source is)) js := by
  induction is generalizing o with
  | nil => exact iff_of_eq (true_and _).symm
  | cons i is ih =>
    cases i with
    | kept k =>
      rw [List.cons_append, Placed, Placed, ih, Lexer.source_kept, width_cons, Nat.add_assoc]
    | opening =>
      rw [List.cons_append, Placed, Placed, ih, Lexer.source_opening, and_assoc]
    | closing =>
      rw [List.cons_append, Placed, Placed, ih, Lexer.source_closing, and_assoc]

theorem placed_kept (ks : List Chunk) : Placed starts stops o (ks.map .kept) := by
  induction ks generalizing o with
  | nil => trivial
  | cons k ks ih => exact ih

theorem source_map_kept (ks : List Chunk) : Lexer.source (ks.map .kept) = ks := by
  induction ks with
  | nil => rfl
  | cons k ks ih => exact congrArg (k :: ·) ih

theorem woven_map_kept (ks : List Chunk) : woven (ks.map .kept) = ks := by
  induction ks with
  | nil => rfl
  | cons k ks ih => exact congrArg (k :: ·) ih

theorem paired_map_kept (ks : List Chunk) : Lexer.Paired (ks.map .kept) := by
  induction ks with
  | nil => exact .nil
  | cons k ks ih => exact .kept k ih

/-- Of two splits of the chunks, the one with less in front is the earlier one. -/
theorem exists_mid {front' back' : List Chunk} (hsolid : Solid (front' ++ back'))
    (h : front ++ back = front' ++ back') (hle : width front ≤ width front') :
    ∃ mid, front' = front ++ mid ∧ back = mid ++ back' := by
  rcases List.append_eq_append_iff.mp h with hmid | ⟨mid, rfl, rfl⟩
  · exact hmid
  · have hnil : mid = [] := by
      refine nil_of_width (fun k hk => hsolid k ?_) (by rw [width_append] at hle; omega)
      exact List.mem_append_right _ (List.mem_append_left _ hk)
    subst hnil
    exact ⟨[], by simp, by simp⟩

end Placed

/-! ### What each part of the walk keeps -/

/-- A brace is put in front of some branch or body there. -/
def IsStart (f : File) (o : Nat) : Prop := ∃ i, ∃ b ∈ bare f i, (f.node b).start = o

/-- A brace is put behind some branch or body there. -/
def IsStop (f : File) (o : Nat) : Prop := ∃ i, ∃ b ∈ bare f i, (f.node b).stop = o

/-- The passage is what the items write, which are the chunks between the offsets with the braces of
the passage among them. -/
structure Weaves (f : File) (p : Point) (ks : List Chunk) (lower upper : Nat) (q : Passage)
    (is : List Item) : Prop where
  spot : ∃ front back, ks = front ++ (Lexer.source is ++ back) ∧ lower = p.offset + width front
  stop : upper = lower + width (Lexer.source is)
  write : chars (woven is) = q.write
  paired : Lexer.Paired is
  placed : Placed (IsStart f) (IsStop f) lower is
  bodies : ∀ b ∈ q.bodies, ∃ a c, is = a ++ .opening :: c ∧
    (f.node b).start = lower + width (Lexer.source a)

theorem write_append (q r : Passage) : (q.append r).write = q.write ++ r.write := by
  induction q with
  | done => rfl
  | plain text rest ih => rw [Passage.append, Passage.write, Passage.write, ih, List.append_assoc]
  | braced b inside rest _ ih => simp [Passage.append, Passage.write, ih]

section Weaves
variable {f : File} {p : Point} {ks : List Chunk} {lower middle upper : Nat} {q r : Passage}
  {is js : List Item}

theorem weaves_kept {front mid back : List Chunk} (h : ks = front ++ (mid ++ back)) :
    Weaves f p ks (p.offset + width front) (p.offset + width front + width mid)
      (.plain (chars mid) .done) (mid.map .kept) where
  spot := ⟨front, back, by rw [source_map_kept]; exact h, rfl⟩
  stop := by rw [source_map_kept]
  write := by
    rw [woven_map_kept]
    exact (List.append_nil _).symm
  paired := paired_map_kept mid
  placed := placed_kept mid
  bodies := fun _ hb => nomatch hb

theorem Weaves.append (hsolid : Solid ks) (hq : Weaves f p ks lower middle q is)
    (hr : Weaves f p ks middle upper r js) : Weaves f p ks lower upper (q.append r) (is ++ js) := by
  obtain ⟨front, back, hks, hlower⟩ := hq.spot
  obtain ⟨front', back', hks', hmiddle⟩ := hr.spot
  have hstop := hq.stop
  refine ⟨?_, ?_, ?_, hq.paired.append hr.paired, ?_, fun b hb => ?_⟩
  · -- The second run of chunks begins where the first one ends.
    have hsplit : (front ++ Lexer.source is) ++ back = front' ++ (Lexer.source js ++ back') := by
      rw [List.append_assoc, ← hks]
      exact hks'
    obtain ⟨mid, hmid, hback⟩ := exists_mid (by rw [← hks']; exact hsolid) hsplit
      (by rw [width_append]; omega)
    have hnil : mid = [] := by
      refine nil_of_width (fun k hk => hsolid k ?_) ?_
      · rw [hks, hback]
        simp [hk]
      · have hwidth := congrArg width hmid
        rw [width_append, width_append] at hwidth
        omega
    refine ⟨front, back', ?_, hlower⟩
    rw [hks, hback, hnil, Lexer.source_append, List.nil_append, List.append_assoc]
  · rw [hr.stop, hstop, Lexer.source_append, width_append, Nat.add_assoc]
  · rw [Lexer.woven_append, Lexer.chars_append, hq.write, hr.write, write_append]
  · exact placed_append.mpr ⟨hq.placed, by rw [← hstop]; exact hr.placed⟩
  · rw [bodies_append] at hb
    rcases List.mem_append.mp hb with hb | hb
    · obtain ⟨a, c, rfl, hstart⟩ := hq.bodies b hb
      exact ⟨a, c ++ js, by simp, hstart⟩
    · obtain ⟨a, c, rfl, hstart⟩ := hr.bodies b hb
      refine ⟨is ++ a, c, by simp, ?_⟩
      rw [hstart, hstop, Lexer.source_append, width_append, Nat.add_assoc]

theorem Weaves.braced {i b : Nat} (hb : b ∈ bare f i)
    (h : Weaves f p ks (f.node b).start (f.node b).stop q is) (hwraps : Wraps (Lexer.source is)) :
    Weaves f p ks (f.node b).start (f.node b).stop (.braced b q .done)
      (.opening :: (is ++ [.closing])) := by
  have hsource : Lexer.source (.opening :: (is ++ [.closing])) = Lexer.source is := by simp
  refine ⟨by rw [hsource]; exact h.spot, by rw [hsource]; exact h.stop, ?_,
    .pair hwraps h.paired .nil, ⟨⟨i, b, hb, rfl⟩, placed_append.mpr ⟨h.placed, ⟨i, b, hb, h.stop⟩,
      trivial⟩⟩, fun c hc => ?_⟩
  · rw [Lexer.chars_woven_opening, Lexer.woven_append, Lexer.chars_append, h.write]
    simp [Passage.write, Lexer.openingText]
    rfl
  · rw [Passage.bodies, Passage.bodies, List.append_nil] at hc
    rcases List.mem_cons.mp hc with rfl | hc
    · exact ⟨[], _, rfl, rfl⟩
    · obtain ⟨a, d, rfl, hstart⟩ := h.bodies c hc
      exact ⟨.opening :: a, d ++ [.closing], by simp, hstart⟩

end Weaves

/-! ### The whole walk -/

section Walk
variable {f : File} {p : Point} {mark : List Char} {ks : List Chunk}
  (htext : f.text.toList = mark ++ chars ks) (hmark : p.offset = bytes mark) (hsolid : Solid ks)
include htext hmark hsolid

theorem weaves_plain {a b : Nat} (ha : Seam p ks a) (hb : Seam p ks b) (hab : a ≤ b) :
    ∃ is, Weaves f p ks a b (.plain (between f a b) .done) is := by
  obtain ⟨front, back, hks, rfl⟩ := ha
  obtain ⟨front', back', hks', rfl⟩ := hb
  obtain ⟨mid, rfl, rfl⟩ := exists_mid (by rw [← hks']; exact hsolid) (hks.symm.trans hks')
    (Nat.le_of_add_le_add_left hab)
  have hbetween : between f (p.offset + width front) (p.offset + width (front ++ mid)) =
      chars mid := by
    unfold between
    rw [htext, hks, Lexer.chars_append, Lexer.chars_append, ← List.append_assoc]
    refine slice_split ?_ ?_
    · rw [Nat.zero_add, hmark, bytes_append]
      rfl
    · rw [width_append, Nat.add_assoc]
      rfl
  rw [hbetween, width_append, ← Nat.add_assoc]
  exact ⟨_, weaves_kept hks⟩

variable (hlinked : f.Linked) (hin : f.InText)
  (hseams : ∀ i < f.nodes.size, Seam p ks (f.node i).start ∧ Seam p ks (f.node i).stop)
  (hwraps : ∀ i, ∀ b ∈ bare f i, ∀ q is,
    Weaves f p ks (f.node b).start (f.node b).stop q is → Wraps (Lexer.source is))
include hlinked hin hseams hwraps

theorem weaves_passageFrom {i : Nat} (hi : i < f.nodes.size)
    (h : ∀ c ∈ f.children i, ∃ is,
      Weaves f p ks (f.node c).start (f.node c).stop (passage f c) is)
    {cs : List Nat} {offset : Nat} (hcs : ∀ c ∈ cs, c ∈ f.children i ∧ offset ≤ (f.node c).start)
    (hapart : cs.Pairwise fun a b => (f.node a).stop ≤ (f.node b).start)
    (hoffset : Seam p ks offset) (hle : offset ≤ (f.node i).stop) : ∃ is,
      Weaves f p ks offset (f.node i).stop (passageFrom f (passage f) i offset cs) is := by
  induction cs generalizing offset with
  | nil => exact weaves_plain htext hmark hsolid hoffset (hseams i hi).2 hle
  | cons c cs ih =>
    obtain ⟨⟨hc, hstart⟩, hcs⟩ := List.forall_mem_cons.mp hcs
    obtain ⟨hbehind, hapart⟩ := List.pairwise_cons.mp hapart
    obtain ⟨hfirst, hlast⟩ := hseams c (hlinked.bounds hc).2
    obtain ⟨js, hrest⟩ := ih (fun d hd => ⟨(hcs d hd).1, hbehind d hd⟩) hapart hlast
      (hin.within hc).2
    obtain ⟨gap, hgap⟩ := weaves_plain htext hmark hsolid hoffset hfirst hstart
    obtain ⟨is, hchild⟩ := h c hc
    rw [passageFrom]
    split
    · rename_i hsingle
      have hb := mem_bare.mpr hsingle
      exact ⟨_, hgap.append hsolid ((hchild.braced hb (hwraps i c hb _ _ hchild)).append hsolid
        hrest)⟩
    · exact ⟨_, hgap.append hsolid (hchild.append hsolid hrest)⟩

theorem weaves_passage (i : Nat) (hi : i < f.nodes.size) : ∃ is,
    Weaves f p ks (f.node i).start (f.node i).stop (passage f i) is := by
  induction i using of_children hlinked with
  | h i ih =>
    rw [passage_eq hlinked]
    exact weaves_passageFrom htext hmark hsolid hlinked hin hseams hwraps hi
      (fun c hc => ih c hc (hlinked.bounds hc).2) (fun c hc => ⟨hc, (hin.within hc).1⟩)
      (hin.apart i) (hseams i hi).1 (hin.le i)

/-- The walk writes the chunks of the text with its braces among them. -/
theorem weaves_walk (hroot : 0 < f.nodes.size) : ∃ is, Lexer.source is = ks ∧
    (walk f).write = mark ++ chars (woven is) ∧ Lexer.Paired is ∧
    Placed (IsStart f) (IsStop f) p.offset is ∧
    ∀ b ∈ (walk f).bodies, ∃ a c, is = a ++ .opening :: c ∧
      (f.node b).start = p.offset + width (Lexer.source a) := by
  obtain ⟨is, hpassage⟩ := weaves_passage htext hmark hsolid hlinked hin hseams hwraps 0 hroot
  obtain ⟨hfirst, hlast⟩ := hseams 0 hroot
  have hstart : Seam p ks p.offset := ⟨[], ks, rfl, rfl⟩
  have hend : Seam p ks (p.offset + width ks) := ⟨ks, [], (List.append_nil ks).symm, rfl⟩
  have hlow : p.offset ≤ (f.node 0).start := by
    obtain ⟨_, _, _, heq⟩ := hfirst
    omega
  have hhigh : (f.node 0).stop ≤ p.offset + width ks := by
    obtain ⟨front, back, heq, hstop⟩ := hlast
    rw [hstop, heq, width_append]
    omega
  obtain ⟨gap, hgap⟩ := weaves_plain htext hmark hsolid hstart hfirst hlow
  obtain ⟨tail, htail⟩ := weaves_plain htext hmark hsolid hlast hend hhigh
  have hall := hgap.append hsolid (hpassage.append hsolid htail)
  have hbytes : bytes f.text.toList = p.offset + width ks := by
    rw [htext, bytes_append, hmark]
    rfl
  have hfront : between f 0 (f.node 0).start = mark ++ between f p.offset (f.node 0).start := by
    have hboundary : Boundary 0 f.text.toList p.offset :=
      ⟨mark, _, htext, by rw [hmark, Nat.zero_add]⟩
    have hbom : File.slice 0 p.offset 0 f.text.toList = mark := by
      rw [htext]
      exact slice_within (by rw [hmark, Nat.zero_add]) 0 (Nat.le_refl 0)
    unfold between
    rw [← slice_append (boundary_zero _) hboundary (hin.start 0) (Nat.zero_le _) hlow, hbom]
  refine ⟨gap ++ (is ++ tail), ?_, ?_, hall.paired, hall.placed, fun b hb => ?_⟩
  · obtain ⟨front, back, hks, hlower⟩ := hall.spot
    have hstop := hall.stop
    have hnil : front = [] ∧ back = [] := by
      have hwidth := congrArg width hks
      rw [width_append, width_append] at hwidth
      constructor
      · exact nil_of_width (fun k hk => hsolid k (by rw [hks]; simp [hk])) (by omega)
      · exact nil_of_width (fun k hk => hsolid k (by rw [hks]; simp [hk])) (by omega)
    rw [hks, hnil.1, hnil.2, List.nil_append, List.append_nil]
  · rw [hall.write, walk, Passage.write, hfront, hbytes, List.append_assoc]
    rfl
  · rw [walk, hbytes] at hb
    exact hall.bodies b hb

end Walk

end Retrace.Instrument.Braces
