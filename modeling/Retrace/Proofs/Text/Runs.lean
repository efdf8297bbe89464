import Mathlib.Data.List.SplitBy
import Mathlib.Data.List.TakeWhile
import Retrace.Text.Words

/-! The runs of a text.

`Runs` says what the maximal stretches of a text are in which nothing is blank: blanks are passed
over, and a stretch goes on to the end of the text or to a blank. Every text has its runs, one list
of them only, and `words` finds it (`runs_iff`). -/
namespace Retrace.Text

/-- The text has these runs, in this order. -/
inductive Runs : List Char → List (List Char) → Prop
  | nil : Runs [] []
  | blank {c : Char} {cs : List Char} {runs : List (List Char)} (blank : isBlank c = true)
    (rest : Runs cs runs) : Runs (c :: cs) runs
  | run {run cs : List Char} {runs : List (List Char)} (nonempty : run ≠ [])
    (full : ∀ c ∈ run, isBlank c = false) (stops : ∀ c ∈ cs.head?, isBlank c = true)
    (rest : Runs cs runs) : Runs (run ++ cs) (run :: runs)

theorem Runs.blanks {gap cs : List Char} {runs : List (List Char)}
    (hgap : ∀ c ∈ gap, isBlank c = true) (h : Runs cs runs) : Runs (gap ++ cs) runs := by
  induction gap with
  | nil => exact h
  | cons c gap ih =>
    obtain ⟨hc, hgap⟩ := List.forall_mem_cons.mp hgap
    exact .blank hc (ih hgap)

/-! ### The words of a text are its runs -/

/-- Where a blank and another character meet, a text may be cut. -/
theorem words_append {cs ds : List Char}
    (h : ∀ x ∈ cs.getLast?, ∀ y ∈ ds.head?, isBlank x ≠ isBlank y) :
    words (cs ++ ds) = words cs ++ words ds := by
  unfold words
  rw [List.splitBy_append fun x hx y hy => beq_eq_false_iff_ne.mpr (h x hx y hy),
    List.filter_append]

theorem words_of_blank {cs : List Char} (h : ∀ c ∈ cs, isBlank c = true) : words cs = [] := by
  refine List.filter_eq_nil_iff.mpr fun run hrun => ?_
  have hall : run.all isBlank = true := by
    refine List.all_eq_true.mpr fun c hc => h c ?_
    rw [← List.flatten_splitBy (fun a b => isBlank a == isBlank b) cs]
    exact List.mem_flatten_of_mem hrun hc
  rw [hall]
  exact Bool.false_ne_true

theorem words_of_full {run : List Char} (hne : run ≠ []) (h : ∀ c ∈ run, isBlank c = false) :
    words run = [run] := by
  have hchain : run.IsChain fun a b => (isBlank a == isBlank b) = true :=
    (List.pairwise_of_forall_mem_list fun a ha b hb => by rw [h a ha, h b hb]; rfl).isChain
  have hfull : run.all isBlank = false := by
    obtain ⟨c, cs, rfl⟩ := List.exists_cons_of_ne_nil hne
    rw [List.all_cons, h c List.mem_cons_self]
    rfl
  unfold words
  rw [List.splitBy_of_isChain hne hchain, List.filter_cons_of_pos (by rw [hfull]; rfl),
    List.filter_nil]

theorem words_append_of_blank {gap cs : List Char} (hgap : ∀ c ∈ gap, isBlank c = true)
    (hcs : ∀ c ∈ cs.head?, isBlank c = false) : words (gap ++ cs) = words cs := by
  rw [words_append fun x hx y hy => ?_, words_of_blank hgap, List.nil_append]
  rw [hgap x (List.mem_of_getLast? hx), hcs y hy]
  exact Bool.noConfusion

theorem words_append_of_full {run cs : List Char} (hne : run ≠ [])
    (hrun : ∀ c ∈ run, isBlank c = false) (hcs : ∀ c ∈ cs.head?, isBlank c = true) :
    words (run ++ cs) = run :: words cs := by
  rw [words_append fun x hx y hy => ?_, words_of_full hne hrun, List.singleton_append]
  rw [hrun x (List.mem_of_getLast? hx), hcs y hy]
  exact Bool.noConfusion

/-- What is left of a text behind its first characters of a kind begins with none of them. -/
theorem head?_dropWhile {p : Char → Bool} {cs : List Char} :
    ∀ c ∈ (cs.dropWhile p).head?, p c = false := by
  intro c hc
  have hnot := List.head?_dropWhile_not p cs
  rwa [hc] at hnot

theorem words_cons_of_blank {c : Char} (hc : isBlank c = true) (cs : List Char) :
    words (c :: cs) = words cs := by
  have hgap : ∀ x ∈ cs.takeWhile isBlank, isBlank x = true := fun _ => List.mem_takeWhile_imp
  rw [← List.takeWhile_append_dropWhile (p := isBlank) (l := cs),
    words_append_of_blank hgap head?_dropWhile]
  exact words_append_of_blank (List.forall_mem_cons.mpr ⟨hc, hgap⟩) head?_dropWhile

theorem words_of_runs {cs : List Char} {runs : List (List Char)} (h : Runs cs runs) :
    words cs = runs := by
  induction h with
  | nil => rfl
  | blank hblank _ ih => rw [words_cons_of_blank hblank, ih]
  | run hne hfull hstops _ ih => rw [words_append_of_full hne hfull hstops, ih]

theorem exists_runs (cs : List Char) : ∃ runs, Runs cs runs := by
  induction hn : cs.length using Nat.strongRecOn generalizing cs with
  | ind n ih =>
    cases cs with
    | nil => exact ⟨[], .nil⟩
    | cons c rest =>
      cases hc : isBlank c with
      | true =>
        obtain ⟨runs, hruns⟩ := ih rest.length (by rw [← hn]; exact Nat.lt_succ_self _) rest rfl
        exact ⟨runs, .blank hc hruns⟩
      | false =>
        -- The first run goes on to the first blank.
        obtain ⟨runs, hruns⟩ := ih (rest.dropWhile fun c => !isBlank c).length
          (by rw [← hn]; exact Nat.lt_succ_of_le (List.length_dropWhile_le _ _)) _ rfl
        have hfull : ∀ x ∈ c :: rest.takeWhile fun c => !isBlank c, isBlank x = false :=
          List.forall_mem_cons.mpr ⟨hc, fun x hx => by simpa using List.mem_takeWhile_imp hx⟩
        have hstops : ∀ x ∈ (rest.dropWhile fun c => !isBlank c).head?, isBlank x = true :=
          fun x hx => by simpa using head?_dropWhile x hx
        refine ⟨(c :: rest.takeWhile fun c => !isBlank c) :: runs, ?_⟩
        have h := Runs.run (List.cons_ne_nil _ _) hfull hstops hruns
        rwa [List.cons_append, List.takeWhile_append_dropWhile] at h

theorem runs_iff {cs : List Char} {runs : List (List Char)} : Runs cs runs ↔ words cs = runs := by
  refine ⟨words_of_runs, ?_⟩
  rintro rfl
  obtain ⟨runs, hruns⟩ := exists_runs cs
  rwa [words_of_runs hruns]

end Retrace.Text
