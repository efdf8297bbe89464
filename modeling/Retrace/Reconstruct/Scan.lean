import Retrace.Source.Range

/-! Scanning a piece of code.

While a unit of code runs, its statements are scanned in order: each is either where a child began
to run, or code that the unit ran itself. A piece is a statement with the parts of it that are
evaluated in front of its body, its guards, which are scanned before it. `Scan.step` says what
happens next: a range is the unit's own or not and the scan moves on, or the next token of the
trace has to be asked for. `Scan.weight_lt_of_go` says that a scan moves on only so often. -/
namespace Retrace.Reconstruct
open Source

structure Piece where
  range : Range
  guards : List Range
  deriving DecidableEq, Repr

/-- What is known of the next child: nothing, the place of one that still lies ahead, or that
there is none. -/
inductive Cursor
  | unset
  | child (marker : Range)
  | exhausted
  deriving DecidableEq, Repr

/-- Where the scan stands in the first of the pieces that are left. Inside of the guards, the
first guard may have been entered, and may hold a child. -/
inductive Place
  | before
  | atGuards
  | inGuards (rest : List Range) (entered skip : Bool)
  | after
  deriving DecidableEq, Repr

structure Scan where
  todo : List Piece
  place : Place
  /-- The first piece holds a child and is no range of the unit's own. -/
  skip : Bool
  deriving DecidableEq, Repr

namespace Scan

def ofPieces (pieces : List Piece) : Scan := ⟨pieces, .before, false⟩

/-- What the cursor says about a range that has been scanned. -/
inductive Verdict
  | holdsChild
  | lacksCursor
  | settled
  deriving DecidableEq, Repr

/-- A child inside of the range is not the unit's own code, and there may be another one. A child
that lies in front of the range was found by a site that had been passed already. -/
def verdict (cursor : Cursor) (r : Range) : Verdict :=
  match cursor with
  | .child marker =>
    if r.contains marker then .holdsChild
    else if marker.last.lt r.first then .lacksCursor
    else .settled
  | .unset => .lacksCursor
  | .exhausted => .settled

inductive Move
  /-- The next token decides; the scan goes on from here. -/
  | ask (scan : Scan)
  /-- The scan goes on, and the range is the unit's own. -/
  | go (scan : Scan) (own : Option Range)
  | done
  deriving DecidableEq, Repr

/-- Goes on, or asks first when nothing is known of the next child. -/
def enter (cursor : Cursor) (s : Scan) : Move :=
  match cursor with
  | .unset => .ask s
  | _ => .go s none

def own (skip : Bool) (r : Range) : Option Range := if skip then none else some r

def guardStep (cursor : Cursor) (s : Scan) (g : Range) (gs : List Range) (skip : Bool) : Move :=
  match verdict cursor g with
  | .holdsChild => .ask {s with place := .inGuards (g :: gs) true true}
  | .lacksCursor => .ask {s with place := .inGuards (g :: gs) true skip}
  | .settled => .go {s with place := .inGuards gs false false} (own skip g)

def afterStep (cursor : Cursor) (s : Scan) (p : Piece) (rest : List Piece) : Move :=
  match verdict cursor p.range with
  | .holdsChild => .ask {s with place := .atGuards, skip := true}
  | .lacksCursor => .ask {s with place := .atGuards}
  | .settled => .go ⟨rest, .before, false⟩ (own s.skip p.range)

def step (cursor : Cursor) (s : Scan) : Move :=
  match s.todo with
  | [] => .done
  | p :: rest =>
    match s.place with
    | .before => enter cursor {s with place := .atGuards}
    | .atGuards =>
      if p.guards.isEmpty then .go {s with place := .after} none
      else .go {s with place := .inGuards p.guards false false} none
    | .inGuards [] _ _ => .go {s with place := .after} none
    | .inGuards (g :: gs) false skip => enter cursor {s with place := .inGuards (g :: gs) true skip}
    | .inGuards (g :: gs) true skip => guardStep cursor s g gs skip
    | .after => afterStep cursor s p rest

/-! ### How long a scan can go on -/

def pieceWeight (p : Piece) : Nat := 2 * p.guards.length + 5

def placeWeight (p : Piece) : Place → Nat
  | .before => pieceWeight p
  | .atGuards => 2 * p.guards.length + 4
  | .inGuards gs entered _ => 2 * gs.length + if entered then 2 else 3
  | .after => 1

def weightAll : List Piece → Nat
  | [] => 0
  | p :: rest => pieceWeight p + weightAll rest

def weight (s : Scan) : Nat :=
  match s.todo with
  | [] => 0
  | p :: rest => placeWeight p s.place + weightAll rest

/-- Asking again needs that something has become known in between. -/
def rank : Cursor → Nat
  | .exhausted => 0
  | .unset => 1
  | .child _ => 2

theorem weight_lt_of_go {cursor : Cursor} {s t : Scan} {r : Option Range}
    (h : step cursor s = .go t r) : t.weight < s.weight := by
  obtain ⟨todo, place, skip⟩ := s
  unfold step at h
  cases todo with
  | nil => cases h
  | cons p rest =>
    dsimp only at h
    split at h
    · unfold enter at h
      split at h <;> cases h
      simp [weight, placeWeight, pieceWeight]
    · split at h <;> cases h <;> simp [weight, placeWeight]
    · cases h
      simp only [weight, placeWeight, List.length_nil]
      split <;> omega
    · unfold enter at h
      split at h <;> cases h
      simp [weight, placeWeight]
    · unfold guardStep at h
      split at h <;> cases h
      simp only [weight, placeWeight, List.length_cons]
      simp
      omega
    · unfold afterStep at h
      split at h <;> cases h
      cases rest with
      | nil => simp [weight, placeWeight, weightAll]
      | cons q rest =>
        simp only [weight, placeWeight, weightAll]
        omega

theorem rank_pos_of_ask {cursor : Cursor} {s t : Scan} (h : step cursor s = .ask t) :
    0 < rank cursor := by
  cases cursor with
  | unset => simp [rank]
  | child _ => simp [rank]
  | exhausted =>
    unfold step at h
    split at h
    · cases h
    · split at h
      · cases h
      · split at h <;> cases h
      · cases h
      · cases h
      · cases h
      · cases h

end Scan

end Retrace.Reconstruct
