import Retrace.Proofs.Source.Ranges
import Retrace.Reconstruct.Scan

/-! What a scan has still to do.

`Steps` lists what one step of a scan can do, by the place where it stands, and `steps` says that
it does nothing else. A scan asks and halts by what is left of its pieces: it is done when nothing
is left, it asks only while a piece is left, and it drops a piece only when the cursor has settled
it. So a place that is
in sight of the last piece, inside of it or in front of it, is met before the scan is done. A place
that no part of the pieces meets is never met: the scan goes to its end without asking
(`not_ask_of_passed`). -/
namespace Retrace.Reconstruct.Scan
open Source

/-- What one step can do. -/
inductive Steps (cursor : Cursor) : Scan → Move → Prop
  | done {place : Place} {skip : Bool} : Steps cursor ⟨[], place, skip⟩ .done
  /-- In front of a piece, or of a guard, the scan asks unless it knows of the next child. -/
  | look {p : Piece} {rest : List Piece} {skip : Bool} (hcursor : cursor = .unset) :
      Steps cursor ⟨p :: rest, .before, skip⟩ (.ask ⟨p :: rest, .atGuards, skip⟩)
  | start {p : Piece} {rest : List Piece} {skip : Bool} (hcursor : cursor ≠ .unset) :
      Steps cursor ⟨p :: rest, .before, skip⟩ (.go ⟨p :: rest, .atGuards, skip⟩ none)
  | bare {p : Piece} {rest : List Piece} {skip : Bool} (hguards : p.guards = []) :
      Steps cursor ⟨p :: rest, .atGuards, skip⟩ (.go ⟨p :: rest, .after, skip⟩ none)
  | guarded {p : Piece} {rest : List Piece} {skip : Bool} (hguards : p.guards ≠ []) :
      Steps cursor ⟨p :: rest, .atGuards, skip⟩
        (.go ⟨p :: rest, .inGuards p.guards false false, skip⟩ none)
  | past {p : Piece} {rest : List Piece} {skip entered skipGuard : Bool} :
      Steps cursor ⟨p :: rest, .inGuards [] entered skipGuard, skip⟩
        (.go ⟨p :: rest, .after, skip⟩ none)
  | lookIn {p : Piece} {rest : List Piece} {skip : Bool} {g : Range} {gs : List Range}
      {skipGuard : Bool} (hcursor : cursor = .unset) :
      Steps cursor ⟨p :: rest, .inGuards (g :: gs) false skipGuard, skip⟩
        (.ask ⟨p :: rest, .inGuards (g :: gs) true skipGuard, skip⟩)
  | startIn {p : Piece} {rest : List Piece} {skip : Bool} {g : Range} {gs : List Range}
      {skipGuard : Bool} (hcursor : cursor ≠ .unset) :
      Steps cursor ⟨p :: rest, .inGuards (g :: gs) false skipGuard, skip⟩
        (.go ⟨p :: rest, .inGuards (g :: gs) true skipGuard, skip⟩ none)
  | guardChild {p : Piece} {rest : List Piece} {skip : Bool} {g : Range} {gs : List Range}
      {skipGuard : Bool} (hverdict : verdict cursor g = .holdsChild) :
      Steps cursor ⟨p :: rest, .inGuards (g :: gs) true skipGuard, skip⟩
        (.ask ⟨p :: rest, .inGuards (g :: gs) true true, skip⟩)
  | guardAgain {p : Piece} {rest : List Piece} {skip : Bool} {g : Range} {gs : List Range}
      {skipGuard : Bool} (hverdict : verdict cursor g = .lacksCursor) :
      Steps cursor ⟨p :: rest, .inGuards (g :: gs) true skipGuard, skip⟩
        (.ask ⟨p :: rest, .inGuards (g :: gs) true skipGuard, skip⟩)
  | guardSettled {p : Piece} {rest : List Piece} {skip : Bool} {g : Range} {gs : List Range}
      {skipGuard : Bool} (hverdict : verdict cursor g = .settled) :
      Steps cursor ⟨p :: rest, .inGuards (g :: gs) true skipGuard, skip⟩
        (.go ⟨p :: rest, .inGuards gs false false, skip⟩ (own skipGuard g))
  /-- Behind a child of a piece the guards are scanned again. -/
  | child {p : Piece} {rest : List Piece} {skip : Bool}
      (hverdict : verdict cursor p.range = .holdsChild) :
      Steps cursor ⟨p :: rest, .after, skip⟩ (.ask ⟨p :: rest, .atGuards, true⟩)
  | again {p : Piece} {rest : List Piece} {skip : Bool}
      (hverdict : verdict cursor p.range = .lacksCursor) :
      Steps cursor ⟨p :: rest, .after, skip⟩ (.ask ⟨p :: rest, .atGuards, skip⟩)
  | settled {p : Piece} {rest : List Piece} {skip : Bool}
      (hverdict : verdict cursor p.range = .settled) :
      Steps cursor ⟨p :: rest, .after, skip⟩ (.go ⟨rest, .before, false⟩ (own skip p.range))

theorem steps (cursor : Cursor) (s : Scan) : Steps cursor s (step cursor s) := by
  obtain ⟨todo, place, skip⟩ := s
  cases todo with
  | nil => exact .done
  | cons p rest =>
    cases place with
    | before =>
      cases cursor with
      | unset => exact .look rfl
      | child k => exact .start nofun
      | exhausted => exact .start nofun
    | atGuards =>
      by_cases hguards : p.guards = []
      · simp only [step, hguards, List.isEmpty_nil, if_true]
        exact .bare hguards
      · simp only [step, List.isEmpty_iff, hguards, if_false]
        exact .guarded hguards
    | inGuards gs entered skipGuard =>
      match gs, entered with
      | [], _ => exact .past
      | g :: gs, false =>
        cases cursor with
        | unset => exact .lookIn rfl
        | child k => exact .startIn nofun
        | exhausted => exact .startIn nofun
      | g :: gs, true =>
        simp only [step, guardStep]
        split
        · exact .guardChild ‹_›
        · exact .guardAgain ‹_›
        · exact .guardSettled ‹_›
    | after =>
      simp only [step, afterStep]
      split
      · exact .child ‹_›
      · exact .again ‹_›
      · exact .settled ‹_›

theorem steps_of_eq {cursor : Cursor} {s : Scan} {move : Move} (h : step cursor s = move) :
    Steps cursor s move :=
  h ▸ steps cursor s

theorem todo_of_done {cursor : Cursor} {s : Scan} (h : step cursor s = .done) : s.todo = [] := by
  cases steps_of_eq h
  rfl

theorem todo_of_ask {cursor : Cursor} {s t : Scan} (h : step cursor s = .ask t) :
    t.todo = s.todo ∧ s.todo ≠ [] := by
  cases steps_of_eq h <;> exact ⟨rfl, List.cons_ne_nil _ _⟩

theorem todo_of_go {cursor : Cursor} {s t : Scan} {own : Option Range}
    (h : step cursor s = .go t own) :
    t.todo = s.todo ∨ ∃ p, s.todo = p :: t.todo ∧ verdict cursor p.range = .settled := by
  cases steps_of_eq h with
  | @settled p _ _ hverdict => exact .inr ⟨p, rfl, hverdict⟩
  | _ => exact .inl rfl

/-- The place lies inside of a range or in front of it. -/
def Meets (k r : Range) : Prop := r.contains k = true ∨ k.last.lt r.first = true

theorem Meets.part {k k' r : Range} (h : Meets k r) (hpart : k.contains k' = true) :
    Meets k' r := by
  rcases h with h | h
  · exact .inl (Range.contains_trans h hpart)
  · exact .inr (Range.Before.mono h hpart (Range.contains_refl r))

theorem verdict_settled {cursor : Cursor} {r : Range} (h : verdict cursor r = .settled) :
    cursor = .exhausted ∨ ∃ k, cursor = .child k ∧ ¬Meets k r := by
  unfold verdict at h
  split at h
  · rename_i k
    split at h
    · cases h
    · rename_i hcontains
      split at h
      · cases h
      · rename_i hbefore
        exact .inr ⟨k, rfl, not_or.mpr ⟨hcontains, hbefore⟩⟩
  · cases h
  · exact .inl rfl

/-! ### What has been scanned -/

/-- The scan stands in these pieces, and inside of a piece in its guards. -/
def Within (pieces : List Piece) (s : Scan) : Prop :=
  s.todo <:+ pieces ∧ ∀ p rest, s.todo = p :: rest →
    ∀ gs entered skip, s.place = .inGuards gs entered skip → gs <:+ p.guards

theorem within_ofPieces (pieces : List Piece) : Within pieces (ofPieces pieces) :=
  ⟨List.suffix_rfl, fun _ _ _ _ _ _ h => nomatch h⟩

theorem Within.mem {pieces : List Piece} {s : Scan} (h : Within pieces s) {p : Piece}
    (hp : p ∈ s.todo) : p ∈ pieces :=
  h.1.subset hp

/-- Wherever else the scan stands in its first piece, it stands in the same pieces. -/
theorem Within.move {pieces : List Piece} {s : Scan} (h : Within pieces s) {p : Piece}
    {rest : List Piece} (hp : s.todo = p :: rest) {place : Place} (skip : Bool)
    (hplace : ∀ gs entered skip, place = .inGuards gs entered skip → gs <:+ p.guards) :
    Within pieces ⟨s.todo, place, skip⟩ := by
  refine ⟨h.1, fun q rest' hq gs entered skip hgs => ?_⟩
  rw [hp] at hq
  cases hq
  exact hplace gs entered skip hgs

theorem Within.ask {pieces : List Piece} {cursor : Cursor} {s t : Scan} (h : Within pieces s)
    (hstep : step cursor s = .ask t) : Within pieces t := by
  cases steps_of_eq hstep with
  | look _ => exact h.move rfl _ nofun
  | child _ => exact h.move rfl _ nofun
  | again _ => exact h.move rfl _ nofun
  | lookIn _ | guardChild _ | guardAgain _ =>
    refine h.move rfl _ fun _ _ _ hplace => ?_
    cases hplace
    exact h.2 _ _ rfl _ _ _ rfl

theorem Within.go {pieces : List Piece} {cursor : Cursor} {s t : Scan} {own : Option Range}
    (h : Within pieces s) (hstep : step cursor s = .go t own) : Within pieces t := by
  cases steps_of_eq hstep with
  | start _ => exact h.move rfl _ nofun
  | bare _ => exact h.move rfl _ nofun
  | past => exact h.move rfl _ nofun
  | guarded _ =>
    refine h.move rfl _ fun _ _ _ hplace => ?_
    cases hplace
    exact List.suffix_rfl
  | startIn _ =>
    refine h.move rfl _ fun _ _ _ hplace => ?_
    cases hplace
    exact h.2 _ _ rfl _ _ _ rfl
  | @guardSettled p rest skip g gs _ _ =>
    refine h.move rfl _ fun _ _ _ hplace => ?_
    cases hplace
    exact (List.suffix_cons g gs).trans (h.2 _ _ rfl _ _ _ rfl)
  | @settled p rest _ _ => exact ⟨(List.suffix_cons p rest).trans h.1, nofun⟩

theorem own_eq_some {skip : Bool} {q r : Range} (h : own skip q = some r) :
    skip = false ∧ q = r := by
  cases skip with
  | false => exact ⟨rfl, Option.some.inj h⟩
  | true => cases h

/-- What a scan takes for the unit's own is a piece or a guard of one. -/
theorem own_of_go {pieces : List Piece} {cursor : Cursor} {s t : Scan} {r : Range}
    (h : Within pieces s) (hstep : step cursor s = .go t (some r)) :
    ∃ p ∈ pieces, r ∈ p.range :: p.guards := by
  have hsteps := steps_of_eq hstep
  generalize hown : some r = taken at hsteps
  cases hsteps with
  | @guardSettled p rest _ g gs _ _ =>
    obtain ⟨_, rfl⟩ := own_eq_some hown.symm
    have hg : g ∈ p.guards := (h.2 p rest rfl _ _ _ rfl).subset List.mem_cons_self
    exact ⟨p, h.mem List.mem_cons_self, List.mem_cons_of_mem _ hg⟩
  | @settled p _ _ _ =>
    obtain ⟨_, rfl⟩ := own_eq_some hown.symm
    exact ⟨p, h.mem List.mem_cons_self, List.mem_cons_self⟩
  | _ => cases hown

/-- A child that no part of the pieces meets leaves nothing to ask. -/
theorem not_ask_of_passed {pieces : List Piece} {s t : Scan} {k : Range} (h : Within pieces s)
    (hk : ∀ p ∈ pieces, ∀ r ∈ p.range :: p.guards, ¬Meets k r) :
    step (.child k) s ≠ .ask t := by
  intro hstep
  have hsettled : ∀ p ∈ s.todo, ∀ r ∈ p.range :: p.guards,
      verdict (.child k) r = .settled := by
    intro p hp r hr
    obtain ⟨hcontains, hbefore⟩ := not_or.mp (hk p (h.mem hp) r hr)
    rw [verdict, if_neg hcontains, if_neg hbefore]
  cases steps_of_eq hstep with
  | look hcursor => cases hcursor
  | lookIn hcursor => cases hcursor
  | @guardChild p rest _ g _ _ hverdict | @guardAgain p rest _ g _ _ hverdict =>
    have hg : g ∈ p.guards := (h.2 p rest rfl _ _ _ rfl).subset List.mem_cons_self
    rw [hsettled p List.mem_cons_self g (List.mem_cons_of_mem _ hg)] at hverdict
    cases hverdict
  | @child p _ _ hverdict | @again p _ _ hverdict =>
    rw [hsettled p List.mem_cons_self p.range List.mem_cons_self] at hverdict
    cases hverdict

end Retrace.Reconstruct.Scan
