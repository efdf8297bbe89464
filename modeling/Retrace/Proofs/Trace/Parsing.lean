import Mathlib.Data.List.Forall2
import Retrace.Proofs.Text.Numerals
import Retrace.Proofs.Text.Runs
import Retrace.Trace.Stream

/-! Which texts are traces.

A text is read run by run. When every run is the text of an id, the ids are what is read, and none
of them is taken; otherwise the first run that is not is named together with its place
(`parse_exact`). So ids that are written with white space in between are read back, whatever the
white space is. -/
namespace Retrace.Trace.Stream
open Text (Runs Denotes isBlank)

/-- The run is the text of an id, which is a word. -/
def IsId (run : List Char) (id : Nat) : Prop := Denotes run id ∧ id ≤ 4294967295

theorem tokenAt_of_isId {run : List Char} {id : Nat} (h : IsId run id) (position : Nat) :
    tokenAt position run = .ok id := by
  have hlt : id < Limit.word := Nat.lt_succ_of_le h.2
  unfold tokenAt
  rw [Text.natural?_eq_some_iff.mpr ⟨h.1, hlt⟩]

theorem tokenAt_of_not_isId {run : List Char} (h : ∀ id, ¬IsId run id) (position : Nat) :
    tokenAt position run = .error (.traceFormat position (String.ofList run)) := by
  unfold tokenAt
  split
  · rename_i id hid
    obtain ⟨hdenotes, hlt⟩ := Text.natural?_eq_some_iff.mp hid
    exact absurd ⟨hdenotes, Nat.le_of_lt_succ hlt⟩ (h id)
  · rfl

/-! ### Run by run -/

/-- Runs that are ids are read on top of those found before. -/
theorem tokensFrom_append {runs : List (List Char)} {ids : List Nat}
    (h : List.Forall₂ IsId runs ids) (position : Nat) (rest : List (List Char))
    (found : List Nat) : tokensFrom position (runs ++ rest) found =
      tokensFrom (position + runs.length) rest (ids.reverse ++ found) := by
  induction h generalizing position found with
  | nil => rfl
  | @cons run id runs ids hrun _ ih =>
    rw [List.cons_append, tokensFrom, tokenAt_of_isId hrun]
    show tokensFrom (position + 1) (runs ++ rest) (id :: found) = _
    rw [ih, List.length_cons, List.reverse_cons, List.append_assoc, Nat.add_right_comm,
      Nat.add_assoc]
    rfl

theorem tokensFrom_of_isId {runs : List (List Char)} {ids : List Nat}
    (h : List.Forall₂ IsId runs ids) : tokensFrom 0 runs [] = .ok ids := by
  have hrun := tokensFrom_append h 0 [] []
  rw [List.append_nil, List.append_nil] at hrun
  rw [hrun, tokensFrom, List.reverse_reverse]

theorem tokensFrom_of_not_isId {before after : List (List Char)} {run : List Char}
    {ids : List Nat} (h : List.Forall₂ IsId before ids) (hrun : ∀ id, ¬IsId run id) :
    tokensFrom 0 (before ++ run :: after) [] =
      .error (.traceFormat before.length (String.ofList run)) := by
  rw [tokensFrom_append h, tokensFrom, Nat.zero_add, tokenAt_of_not_isId hrun]
  rfl

/-- Either all runs are ids or there is a first one that is not. -/
theorem exists_ids_or_first (runs : List (List Char)) :
    (∃ ids, List.Forall₂ IsId runs ids) ∨
      ∃ before run after ids, runs = before ++ run :: after ∧ List.Forall₂ IsId before ids ∧
        ∀ id, ¬IsId run id := by
  induction runs with
  | nil => exact .inl ⟨[], .nil⟩
  | cons run runs ih =>
    by_cases hrun : ∃ id, IsId run id
    · obtain ⟨id, hid⟩ := hrun
      rcases ih with ⟨ids, hids⟩ | ⟨before, offender, after, ids, rfl, hids, hnot⟩
      · exact .inl ⟨id :: ids, .cons hid hids⟩
      · exact .inr ⟨run :: before, offender, after, id :: ids, rfl, .cons hid hids, hnot⟩
    · exact .inr ⟨[], run, runs, [], rfl, .nil, not_exists.mp hrun⟩

theorem parse_of_runs {text : String} {runs : List (List Char)} (h : Runs text.toList runs) :
    parse text = (tokensFrom 0 runs []).map ofTokens := by
  rw [parse, Text.words_of_runs h]

/-! ### Ids as they are written -/

/-- Ids, each behind the white space that stands in front of it, and white space at the end. -/
def spaced (entries : List (List Char × Nat)) (trail : List Char) : List Char :=
  entries.flatMap (fun e => e.1 ++ (toString e.2).toList) ++ trail

theorem spaced_cons (gap : List Char) (id : Nat) (entries : List (List Char × Nat))
    (trail : List Char) : spaced ((gap, id) :: entries) trail =
      gap ++ ((toString id).toList ++ spaced entries trail) := by
  unfold spaced
  rw [List.flatMap_cons, List.append_assoc, List.append_assoc]

theorem not_blank_of_digit {c : Char} (h : '0' ≤ c ∧ c ≤ '9') : isBlank c = false := by
  have hall : ∀ n < 128, '0'.toNat ≤ n → n ≤ '9'.toNat → isBlank (Char.ofNat n) = false := by
    decide
  have hlow : '0'.toNat ≤ c.toNat := h.1
  have hhigh : c.toNat ≤ '9'.toNat := h.2
  have hblank := hall c.toNat (Nat.lt_of_le_of_lt hhigh (by decide)) hlow hhigh
  rwa [Char.ofNat_toNat] at hblank

theorem full_toString (id : Nat) : ∀ c ∈ (toString id).toList, isBlank c = false := fun _ hc =>
  not_blank_of_digit (Text.isDigit_iff.mp
    (Nat.isDigit_of_mem_toDigits (by decide) (by decide) (Nat.toList_repr (n := id) ▸ hc)))

theorem toString_ne_nil (id : Nat) : (toString id).toList ≠ [] := by
  rw [show (toString id).toList = Nat.toDigits 10 id from Nat.toList_repr]
  exact Nat.toDigits_ne_nil

/-- Only the first id may stand without white space in front of it. -/
theorem runs_spaced {entries : List (List Char × Nat)} {trail : List Char}
    (hgaps : ∀ e ∈ entries, ∀ c ∈ e.1, isBlank c = true) (hbetween : ∀ e ∈ entries.tail, e.1 ≠ [])
    (htrail : ∀ c ∈ trail, isBlank c = true) :
    Runs (spaced entries trail) (entries.map fun e => (toString e.2).toList) := by
  induction entries with
  | nil =>
    have h := Runs.blanks htrail .nil
    rwa [List.append_nil] at h
  | cons e rest ih =>
    obtain ⟨gap, id⟩ := e
    obtain ⟨hgap, hrest⟩ := List.forall_mem_cons.mp hgaps
    rw [spaced_cons, List.map_cons]
    refine .blanks hgap (.run (toString_ne_nil id) (full_toString id) ?_
      (ih hrest fun e he => hbetween e (List.mem_of_mem_tail he)))
    -- Behind an id stands the white space of the next one, or that at the end.
    intro c hc
    cases rest with
    | nil => exact htrail c (List.mem_of_mem_head? hc)
    | cons next rest =>
      obtain ⟨gap', id'⟩ := next
      obtain ⟨d, gap', rfl⟩ := List.exists_cons_of_ne_nil (hbetween (gap', id') List.mem_cons_self)
      rw [spaced_cons] at hc
      obtain rfl : d = c := Option.some.inj hc
      exact hrest (d :: gap', id') List.mem_cons_self d List.mem_cons_self

/-- A text has one list of runs. If all of them are ids, these are read and none of them is taken;
otherwise the first run that is not an id is named with its place. Ids that are written with white
space between them are read back. -/
theorem parse_exact :
    (∀ text : String, ∃ runs, (∀ other, Runs text.toList other ↔ other = runs) ∧
      ((∃ ids, List.Forall₂ IsId runs ids ∧ parse text = .ok ⟨[], ids⟩) ∨
        ∃ before run after, runs = before ++ run :: after ∧ (∀ r ∈ before, ∃ id, IsId r id) ∧
          (∀ id, ¬IsId run id) ∧
          parse text = .error (.traceFormat before.length (String.ofList run)))) ∧
    ∀ (entries : List (List Char × Nat)) (trail : List Char),
      (∀ e ∈ entries, (∀ c ∈ e.1, isBlank c = true) ∧ e.2 ≤ 4294967295) →
      (∀ e ∈ entries.tail, e.1 ≠ []) → (∀ c ∈ trail, isBlank c = true) →
        parse (String.ofList (spaced entries trail)) = .ok ⟨[], entries.map Prod.snd⟩ := by
  refine ⟨fun text => ?_, fun entries trail hentries hbetween htrail => ?_⟩
  · obtain ⟨runs, hruns⟩ := Text.exists_runs text.toList
    have hunique : ∀ other, Runs text.toList other ↔ other = runs := fun other => by
      rw [Text.runs_iff, Text.words_of_runs hruns, eq_comm]
    refine ⟨runs, hunique, ?_⟩
    rcases exists_ids_or_first runs with ⟨ids, hids⟩ | ⟨before, run, after, ids, rfl, hids, hrun⟩
    · refine .inl ⟨ids, hids, ?_⟩
      rw [parse_of_runs hruns, tokensFrom_of_isId hids]
      rfl
    · refine .inr ⟨before, run, after, rfl, fun r hr => ?_, hrun, ?_⟩
      · obtain ⟨i, hi, rfl⟩ := List.getElem_of_mem hr
        exact ⟨_, hids.get hi (hids.length_eq ▸ hi)⟩
      · rw [parse_of_runs hruns, tokensFrom_of_not_isId hids hrun]
        rfl
  · have hruns : Runs (String.ofList (spaced entries trail)).toList
        (entries.map fun e => (toString e.2).toList) := by
      rw [String.toList_ofList]
      exact runs_spaced (fun e he => (hentries e he).1) hbetween htrail
    have hids : List.Forall₂ IsId (entries.map fun e => (toString e.2).toList)
        (entries.map Prod.snd) := by
      rw [List.forall₂_map_left_iff, List.forall₂_map_right_iff, List.forall₂_same]
      exact fun e he => ⟨Text.denotes_toString e.2, (hentries e he).2⟩
    rw [parse_of_runs hruns, tokensFrom_of_isId hids]
    rfl

/-- The largest id behind an em space and in front of an ideographic space. -/
theorem parse_between_wide_spaces :
    parse "7\n\u20034294967295\u3000" = .ok ⟨[], [7, 4294967295]⟩ := by
  have hgap : ∀ c ∈ ['\n', '\u2003'], isBlank c = true := List.all_eq_true.mp (by decide)
  have htrail : ∀ c ∈ ['\u3000'], isBlank c = true := List.all_eq_true.mp (by decide)
  have hentries : ∀ e ∈ [([], 7), (['\n', '\u2003'], 4294967295)],
      (∀ c ∈ e.1, isBlank c = true) ∧ e.2 ≤ 4294967295 :=
    List.forall_mem_cons.mpr
      ⟨⟨List.forall_mem_nil _, by decide⟩, List.forall_mem_singleton.mpr ⟨hgap, by decide⟩⟩
  exact parse_exact.2 [([], 7), (['\n', '\u2003'], 4294967295)] ['\u3000'] hentries (by decide)
    htrail

/-- A sign and leading zeros are read, and the first of two offenders is named. -/
example : parse "+007 4294967296 x" = .error (.traceFormat 1 "4294967296") := by decide +kernel

end Retrace.Trace.Stream
