import Mathlib.Data.List.Basic
import Retrace.Disk.TreeFile

/-! Paths that are put together of components.

The components of a path are read back from the text that is written of them
(`components_ofComponents`), so a path, the path above it and its draft agree in all components but
the last (`components_parent?`, `components_draftPath`), and a name that is joined to a path is the
last component of what comes of it (`components_join`). -/
namespace Retrace

namespace Text

theorem stretches_eq_splitOn (mark : Char) (cs : List Char) :
    stretches mark cs = cs.splitOn mark := by
  induction cs with
  | nil => rfl
  | cons c cs ih =>
    unfold stretches List.splitOn
    rw [List.splitOnP_cons_eq_if_modifyHead, ih]
    split
    · rfl
    · cases hrest : cs.splitOn mark with
      | nil => exact absurd hrest (List.splitOnP_ne_nil _ _)
      | cons s rest =>
        rw [← List.splitOn, hrest]
        rfl

theorem not_mem_of_mem_stretches {mark : Char} {cs s : List Char} (h : s ∈ stretches mark cs) :
    mark ∉ s := by
  induction cs generalizing s with
  | nil =>
    obtain rfl := List.mem_singleton.mp h
    exact List.not_mem_nil
  | cons c cs ih =>
    unfold stretches at h
    split at h
    · rcases List.mem_cons.mp h with rfl | h
      · exact List.not_mem_nil
      · exact ih h
    · rename_i hc
      have hne : mark ≠ c := fun heq => hc (beq_iff_eq.mpr heq.symm)
      split at h
      · obtain rfl := List.mem_singleton.mp h
        simpa using hne
      · rename_i s' rest hrest
        rcases List.mem_cons.mp h with rfl | h
        · have hs' : mark ∉ s' := ih (hrest ▸ List.mem_cons_self)
          simpa [hne] using hs'
        · exact ih (hrest ▸ List.mem_cons_of_mem _ h)

/-- A text that is put together of stretches is cut into them. -/
theorem splitAt_intercalate {mark : Char} {parts : List String} (hparts : parts ≠ [])
    (h : ∀ p ∈ parts, mark ∉ p.toList) :
    splitAt mark ((String.singleton mark).intercalate parts) = parts := by
  unfold splitAt
  rw [stretches_eq_splitOn, String.toList_intercalate, String.toList_singleton,
    List.splitOn_intercalate, List.map_map]
  · simp [Function.comp_def]
  · simpa using h
  · simpa using hparts

theorem intercalate_splitAt (mark : Char) (text : String) :
    (String.singleton mark).intercalate (splitAt mark text) = text := by
  refine String.toList_inj.mp ?_
  rw [String.toList_intercalate, String.toList_singleton, splitAt, List.map_map,
    stretches_eq_splitOn]
  simp [Function.comp_def, List.intercalate_splitOn]

theorem splitAt_ne_nil (mark : Char) (text : String) : splitAt mark text ≠ [] := by
  unfold splitAt
  rw [stretches_eq_splitOn]
  simp

theorem stretches_of_not_mem {mark : Char} {cs : List Char} (h : mark ∉ cs) :
    stretches mark cs = [cs] := by
  rw [stretches_eq_splitOn, List.splitOn, List.splitOnP_eq_singleton]
  exact fun c hc => beq_eq_false_iff_ne.mpr fun heq => h (heq ▸ hc)

/-- What stands in front of a mark and what stands behind it are cut on their own. -/
theorem stretches_append (mark : Char) (cs ds : List Char) :
    stretches mark (cs ++ mark :: ds) = stretches mark cs ++ stretches mark ds := by
  induction cs with
  | nil => simp [stretches]
  | cons c cs ih =>
    rw [List.cons_append, stretches, stretches, ih]
    split
    · rfl
    · cases hcs : stretches mark cs with
      | nil =>
        rw [stretches_eq_splitOn] at hcs
        exact absurd hcs (List.splitOnP_ne_nil _ _)
      | cons s rest => rfl

theorem not_mem_of_mem_splitAt {mark : Char} {text piece : String} (h : piece ∈ splitAt mark text) :
    mark ∉ piece.toList := by
  obtain ⟨s, hs, rfl⟩ := List.mem_map.mp h
  rw [String.toList_ofList]
  exact not_mem_of_mem_stretches hs

end Text

namespace Path

/-- The component is what a piece of a path stands for, and the piece is its text. -/
def Component.IsPiece (c : Component) : Prop :=
  component? c.text = some c ∧ '/' ∉ c.text.toList

theorem isPiece_of_component? {piece : String} {c : Component} (h : component? piece = some c)
    (hpiece : '/' ∉ piece.toList) : c.IsPiece := by
  have htext : c.text = piece := by
    unfold component? at h
    split at h
    · cases h
    · split at h
      · rename_i hparent
        cases h
        exact (eq_of_beq hparent).symm
      · cases h
        rfl
  unfold Component.IsPiece
  rw [htext]
  exact ⟨h, hpiece⟩

/-- Components as they are read from a path: only the first may be the root or a dot. -/
inductive Legible : List Component → Prop
  | relative {body : List Component} (h : ∀ c ∈ body, c.IsPiece) : Legible body
  | absolute {body : List Component} (h : ∀ c ∈ body, c.IsPiece) : Legible (.root :: body)
  | dotted {body : List Component} (h : ∀ c ∈ body, c.IsPiece) : Legible (.current :: body)

theorem legible_components (path : String) : Legible (components path) := by
  have hbody : ∀ c ∈ (pieces path).filterMap component?, c.IsPiece := by
    intro c hc
    obtain ⟨piece, hpiece, hread⟩ := List.mem_filterMap.mp hc
    exact isPiece_of_component? hread (Text.not_mem_of_mem_splitAt hpiece)
  unfold components
  split
  · exact .absolute hbody
  · split
    · exact .dotted hbody
    · exact .relative hbody

theorem pieces_cons {path : String} (h : isAbsolute path = true) :
    (pieces path).head? = some "" := by
  unfold isAbsolute at h
  unfold pieces Text.splitAt
  cases hpath : path.toList with
  | nil =>
    rw [hpath] at h
    cases h
  | cons c cs =>
    rw [hpath] at h
    obtain rfl : c = '/' := by simpa using h
    rfl

theorem pieces_slash (path : String) : pieces ("/" ++ path) = "" :: pieces path := by
  unfold pieces Text.splitAt
  rw [String.toList_append]
  rfl

section Written
variable {body : List Component} (h : ∀ c ∈ body, c.IsPiece)
include h

theorem filterMap_texts : (body.map Component.text).filterMap component? = body := by
  induction body with
  | nil => rfl
  | cons c rest ih =>
    obtain ⟨hc, hrest⟩ := List.forall_mem_cons.mp h
    rw [List.map_cons, List.filterMap_cons_some hc.1, ih hrest]

theorem pieces_texts (hbody : body ≠ []) :
    pieces (String.intercalate "/" (body.map Component.text)) = body.map Component.text := by
  refine Text.splitAt_intercalate (by simpa using hbody) fun p hp => ?_
  obtain ⟨c, hc, rfl⟩ := List.mem_map.mp hp
  exact (h c hc).2

theorem filterMap_pieces :
    (pieces (String.intercalate "/" (body.map Component.text))).filterMap component? = body := by
  by_cases hbody : body = []
  · subst hbody
    decide
  · rw [pieces_texts h hbody, filterMap_texts h]

end Written

theorem Component.IsPiece.text_ne {c : Component} (h : c.IsPiece) :
    c.text ≠ "" ∧ c.text ≠ "." := by
  constructor
  all_goals
    intro htext
    have hread := h.1
    rw [htext] at hread
    cases hread

theorem isAbsolute_eq_false {path piece : String} (h : (pieces path).head? = some piece)
    (hpiece : piece ≠ "") : isAbsolute path = false := by
  refine Bool.eq_false_iff.mpr fun habsolute => ?_
  rw [pieces_cons habsolute] at h
  exact hpiece (Option.some.inj h).symm

/-- The components that are written as a path are read from it. -/
theorem components_ofComponents {cs : List Component} (h : Legible cs) :
    components (ofComponents cs) = cs := by
  cases h with
  | relative h =>
    cases cs with
    | nil => decide
    | cons c rest =>
      have hpieces := pieces_texts h (List.cons_ne_nil c rest)
      have hc := h c List.mem_cons_self
      have hroot : c ≠ .root := by
        rintro rfl
        exact absurd hc.1 (by decide)
      have hwritten : ofComponents (c :: rest) =
          String.intercalate "/" ((c :: rest).map Component.text) := by
        cases c with
        | root => exact absurd rfl hroot
        | _ => rfl
      have hhead : (pieces (ofComponents (c :: rest))).head? = some c.text := by
        rw [hwritten, hpieces]
        rfl
      unfold components
      rw [isAbsolute_eq_false hhead hc.text_ne.1, if_neg Bool.false_ne_true, hhead,
        if_neg (by simpa using hc.text_ne.2), hwritten, hpieces]
      exact filterMap_texts h
  | @absolute body h =>
    have habsolute : isAbsolute (ofComponents (.root :: body)) = true := by
      unfold isAbsolute ofComponents
      rw [String.toList_append]
      rfl
    unfold components
    rw [if_pos habsolute]
    unfold ofComponents
    rw [pieces_slash, List.filterMap_cons_none (by decide), filterMap_pieces h]
  | @dotted body h =>
    have hpieces : pieces (ofComponents (.current :: body)) = "." :: body.map Component.text := by
      refine Text.splitAt_intercalate (List.cons_ne_nil "." (body.map Component.text))
        fun p hp => ?_
      rcases List.mem_cons.mp hp with rfl | hp
      · decide
      · obtain ⟨c, hc, rfl⟩ := List.mem_map.mp hp
        exact (h c hc).2
    have hhead : (pieces (ofComponents (.current :: body))).head? = some "." := by
      rw [hpieces]
      rfl
    unfold components
    rw [isAbsolute_eq_false hhead (by decide), if_neg Bool.false_ne_true, hhead,
      if_pos (beq_self_eq_true _), hpieces, List.filterMap_cons_none (by decide), filterMap_texts h]

theorem ofComponents_normal (names : List String) :
    ofComponents (names.map .normal) = String.intercalate "/" names := by
  cases names with
  | nil => rfl
  | cons name names =>
    show String.intercalate "/" (((name :: names).map Component.normal).map Component.text) = _
    rw [List.map_map]
    exact congrArg _ (List.map_id _)

/-! ### The path above, and the draft -/

theorem Legible.dropLast {cs : List Component} (h : Legible cs) : Legible cs.dropLast := by
  cases h with
  | relative h => exact .relative fun c hc => h c (List.dropLast_subset _ hc)
  | @absolute body h =>
    cases body with
    | nil => exact .relative (by simp)
    | cons c rest => exact .absolute fun c hc => h c (List.dropLast_subset _ hc)
  | @dotted body h =>
    cases body with
    | nil => exact .relative (by simp)
    | cons c rest => exact .dotted fun c hc => h c (List.dropLast_subset _ hc)

theorem Legible.concat {cs : List Component} (h : Legible cs) {c : Component} (hc : c.IsPiece) :
    Legible (cs ++ [c]) := by
  have hbody : ∀ {body : List Component}, (∀ c ∈ body, c.IsPiece) →
      ∀ c' ∈ body ++ [c], c'.IsPiece := by
    intro body h c' hc'
    rcases List.mem_append.mp hc' with hc' | hc'
    · exact h c' hc'
    · rw [List.mem_singleton.mp hc']
      exact hc
  cases h with
  | relative h => exact .relative (hbody h)
  | absolute h => exact .absolute (hbody h)
  | dotted h => exact .dotted (hbody h)

/-- The root is a first component. -/
theorem Legible.dropLast_of_root {cs : List Component} (h : Legible cs)
    (hroot : cs.getLast? = some .root) : cs.dropLast = [] := by
  have hnot : ∀ {body : List Component}, (∀ c ∈ body, c.IsPiece) → .root ∉ body :=
    fun h hc => absurd (h .root hc).1 (by decide)
  have hmem := List.mem_of_getLast? hroot
  cases h with
  | relative h => exact absurd hmem (hnot h)
  | @absolute body h =>
    cases body with
    | nil => rfl
    | cons c rest =>
      rw [List.getLast?_cons_cons] at hroot
      exact absurd (List.mem_of_getLast? hroot) (hnot h)
  | dotted h =>
    rcases List.mem_cons.mp hmem with hc | hc
    · cases hc
    · exact absurd hc (hnot h)

theorem components_parent? {path parent : String} (h : parent? path = some parent) :
    components parent = (components path).dropLast := by
  unfold parent? at h
  split at h
  · cases h
  · split at h
    · cases h
    · cases h
      exact components_ofComponents (legible_components path).dropLast

/-- Above a path without a parent there is nothing. -/
theorem dropLast_of_parent? {path : String} (h : parent? path = none) :
    (components path).dropLast = [] := by
  unfold parent? at h
  split at h
  · rename_i hnil
    rw [hnil]
    rfl
  · split at h
    · rename_i hroot
      exact (legible_components path).dropLast_of_root (eq_of_beq hroot)
    · cases h

theorem Legible.isPiece_of_normal {cs : List Component} (h : Legible cs) {name : String}
    (hname : .normal name ∈ cs) : (Component.normal name).IsPiece := by
  cases h with
  | relative h => exact h _ hname
  | absolute h | dotted h =>
    rcases List.mem_cons.mp hname with hname | hname
    · cases hname
    · exact h _ hname

theorem mem_of_mem_splitName {name : List Char} {c : Char} (h : c ∈ (splitName name).1) :
    c ∈ name := by
  unfold splitName at h
  dsimp only at h
  split at h
  · exact h
  · exact List.mem_of_mem_take h

theorem isPiece_of_getLast? {name : String} {c : Char} (hslash : '/' ∉ name.toList)
    (hlast : name.toList.getLast? = some c) (hc : c ≠ '.') : (Component.normal name).IsPiece := by
  refine ⟨?_, hslash⟩
  show component? name = some (.normal name)
  unfold component?
  rw [if_neg, if_neg]
  all_goals
    intro heq
    simp only [Bool.or_eq_true, beq_iff_eq] at heq
  · subst heq
    exact hc (Option.some.inj hlast).symm
  · rcases heq with rfl | rfl
    · cases hlast
    · exact hc (Option.some.inj hlast).symm

theorem isPiece_of_fileName? {path name : String} (h : fileName? path = some name) :
    (Component.normal name).IsPiece := by
  unfold fileName? at h
  split at h
  · rename_i hlast
    cases h
    exact (legible_components path).isPiece_of_normal (List.mem_of_getLast? hlast)
  · cases h

theorem not_mem_of_stem? {path stem : String} (h : stem? path = some stem) :
    '/' ∉ stem.toList := by
  obtain ⟨name, hname, rfl⟩ := Option.map_eq_some_iff.mp h
  rw [String.toList_ofList]
  exact fun hslash => (isPiece_of_fileName? hname).2 (mem_of_mem_splitName hslash)

theorem isPiece_of_stem? {path stem : String} (h : stem? path = some stem) :
    (Component.normal (stem ++ "." ++ "json.tmp")).IsPiece := by
  refine isPiece_of_getLast? (c := 'p') ?_ ?_ (by decide)
  · rw [String.toList_append, String.toList_append]
    simpa using not_mem_of_stem? h
  · rw [String.toList_append, List.getLast?_append]
    rfl

/-! ### Names with an extension -/

theorem splitName_ne_nil {name : List Char} (h : name ≠ []) : (splitName name).1 ≠ [] := by
  unfold splitName
  dsimp only
  split
  · exact h
  · rename_i hcut
    intro hnil
    dsimp only at hnil
    rw [hnil] at hcut
    exact hcut rfl

/-- A name is cut where its extension begins. -/
theorem splitName_append {stem extension : List Char} (hstem : stem ≠ []) (h : '.' ∉ extension) :
    splitName (stem ++ '.' :: extension) = (stem, some extension) := by
  have hafter : ((stem ++ '.' :: extension).reverse.takeWhile (· ≠ '.')).reverse = extension := by
    rw [List.reverse_append, List.reverse_cons, List.append_assoc, List.singleton_append,
      List.takeWhile_append_of_pos, List.takeWhile_cons_of_neg (by simp), List.append_nil,
      List.reverse_reverse]
    intro c hc
    exact decide_eq_true fun heq => h (heq ▸ List.mem_reverse.mp hc)
  have hlength : (stem ++ '.' :: extension).length - extension.length - 1 = stem.length := by
    rw [List.length_append, List.length_cons]
    omega
  unfold splitName
  dsimp only
  rw [hafter, hlength, List.take_left]
  refine if_neg ?_
  rw [Bool.or_eq_true, List.isEmpty_iff, beq_iff_eq, List.length_append, List.length_cons]
  rintro (hnil | hsame)
  · exact hstem hnil
  · omega

theorem ne_empty_of_stem? {path stem : String} (h : stem? path = some stem) : stem ≠ "" := by
  obtain ⟨name, hname, rfl⟩ := Option.map_eq_some_iff.mp h
  have hne : name ≠ "" := (isPiece_of_fileName? hname).text_ne.1
  have hchars : name.toList ≠ [] := by simpa using hne
  simpa using splitName_ne_nil hchars

theorem stem?_of_components {path stem extension : String} {cs : List Component}
    (h : components path = cs ++ [.normal (stem ++ "." ++ extension)]) (hstem : stem ≠ "")
    (hextension : '.' ∉ extension.toList) : stem? path = some stem := by
  have hchars : (stem ++ "." ++ extension).toList = stem.toList ++ '.' :: extension.toList := by
    simp
  unfold stem? fileName?
  rw [h, List.getLast?_concat]
  dsimp only
  rw [Option.map_some, hchars, splitName_append (by simpa using hstem) hextension,
    String.ofList_toList]

/-! ### Joined paths -/

theorem pieces_append (a b : String) : pieces (a ++ "/" ++ b) = pieces a ++ pieces b := by
  have hchars : (a ++ "/" ++ b).toList = a.toList ++ '/' :: b.toList := by simp
  unfold pieces Text.splitAt
  rw [hchars, Text.stretches_append, List.map_append]

theorem pieces_ne_nil (path : String) : pieces path ≠ [] :=
  Text.splitAt_ne_nil '/' path

theorem pieces_of_not_mem {name : String} (h : '/' ∉ name.toList) : pieces name = [name] := by
  unfold pieces Text.splitAt
  rw [Text.stretches_of_not_mem h, List.map_singleton, String.ofList_toList]

/-- What stands behind a slash is read as further components. -/
theorem components_append {a : String} (ha : a ≠ "") (b : String) :
    components (a ++ "/" ++ b) = components a ++ (pieces b).filterMap component? := by
  have habsolute : isAbsolute (a ++ ("/" ++ b)) = isAbsolute a := by
    unfold isAbsolute
    rw [String.toList_append, List.head?_append_of_ne_nil _ (by simpa using ha)]
  unfold components
  rw [String.append_assoc, habsolute, ← String.append_assoc, pieces_append, List.filterMap_append,
    List.head?_append_of_ne_nil _ (pieces_ne_nil a)]
  dsimp only
  split
  · rfl
  · split <;> rfl

theorem exists_of_endsWith {text tail : String} (h : text.endsWith tail = true) :
    ∃ a, text = a ++ tail := by
  rw [← String.endsWith_toSlice, String.Slice.endsWith_string_iff] at h
  obtain ⟨cs, hcs⟩ := h
  exact ⟨String.ofList cs, String.toList_inj.mp (by simp [hcs])⟩

/-- A name is the last component of a path that it is joined to. -/
theorem components_join {name : String} (h : (Component.normal name).IsPiece) (base : String) :
    components (join base name) = components base ++ [.normal name] := by
  have hpieces : pieces name = [name] := pieces_of_not_mem h.2
  have hname : (pieces name).filterMap component? = [.normal name] := by
    rw [hpieces]
    exact List.filterMap_cons_some h.1
  have hrelative : isAbsolute name = false :=
    isAbsolute_eq_false (congrArg List.head? hpieces) h.text_ne.1
  unfold join
  rw [hrelative, Bool.false_or]
  split
  · rename_i hbase
    rw [eq_of_beq hbase]
    exact components_ofComponents (.relative (List.forall_mem_singleton.mpr h))
  · rename_i hbase
    have hne : base ≠ "" := by simpa using hbase
    split
    · rename_i hslash
      obtain ⟨a, rfl⟩ := exists_of_endsWith hslash
      by_cases ha : a = ""
      · have habsolute := components_ofComponents (.absolute (List.forall_mem_singleton.mpr h))
        rw [ha, String.empty_append, show components "/" = [.root] by decide]
        exact habsolute
      · have hslash := components_append ha ""
        rw [String.append_empty, show (pieces "").filterMap component? = [] by decide,
          List.append_nil] at hslash
        rw [components_append ha, hname, hslash]
    · rw [components_append hne, hname]

end Path

open Retrace.Path in
/-- A draft stands next to its file. -/
theorem Disk.components_draftPath_of_stem? {path stem : String} (h : stem? path = some stem) :
    components (draftPath path) =
      (components path).dropLast ++ [.normal (stem ++ "." ++ "json.tmp")] := by
  unfold draftPath withExtension
  rw [h]
  exact components_ofComponents ((legible_components path).dropLast.concat (isPiece_of_stem? h))

open Retrace.Path in
theorem Disk.components_draftPath (path : String) :
    (components (draftPath path)).dropLast = (components path).dropLast := by
  cases hstem : stem? path with
  | none =>
    unfold draftPath withExtension
    rw [hstem]
  | some stem => rw [components_draftPath_of_stem? hstem, List.dropLast_concat]

end Retrace
