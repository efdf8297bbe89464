import Retrace.Reconstruct.Activation

/-! What an activation keeps.

Binding a token changes only what an activation knows of its sites, the scan changes only its
place and its ranges, and the end of a child changes only its cursor, its markers and the sites
that it may bind again. The index, the trace point, the entrance and the sites stay as they are
from the start to the end. -/
namespace Retrace.Reconstruct.Activation
open Source Instrument Trace

/-- The two activations differ at most in what they know of their sites. -/
def Rebound (a b : Activation) : Prop :=
  ∃ consumed opened latest,
    b = {a with consumed := consumed, openCreation := opened, lastCreation := latest}

theorem Rebound.refl (a : Activation) : Rebound a a := ⟨a.consumed, _, _, rfl⟩

theorem Rebound.trans {a b c : Activation} (hab : Rebound a b) (hbc : Rebound b c) :
    Rebound a c := by
  obtain ⟨x, y, z, rfl⟩ := hab
  obtain ⟨x', y', z', rfl⟩ := hbc
  exact ⟨x', y', z', rfl⟩

theorem rebound_consume (a : Activation) (r : Range) : Rebound a (a.consume r) := by
  unfold consume
  split
  · exact .refl a
  · exact ⟨_, _, _, rfl⟩

theorem rebound_enterMethod? {s : Setting} {a b : Activation} {unit : Ref} {e : Entrance}
    (h : a.enterMethod? s unit = some (e, b)) : Rebound a b := by
  unfold enterMethod? at h
  obtain ⟨name, _, h⟩ := Option.bind_eq_some_iff.mp h
  dsimp only at h
  split at h
  · cases h
    exact rebound_consume a _
  · obtain ⟨call, _, h⟩ := Option.map_eq_some_iff.mp h
    cases h
    exact .refl a

theorem rebound_creationFor? {s : Setting} {a b : Activation} {c : Ref} {creation : Nat}
    (h : a.creationFor? s c = some (creation, b)) : Rebound a b := by
  unfold creationFor? at h
  dsimp only at h
  split at h
  · cases h
    exact .refl a
  · split at h
    · cases h
      exact rebound_consume a _
    · obtain ⟨_, _, h⟩ := Option.map_eq_some_iff.mp h
      cases h
      exact .refl a

theorem rebound_enterCreation? {s : Setting} {a b : Activation} {unit : Ref} {e : Entrance}
    (h : a.enterCreation? s unit = some (e, b)) : Rebound a b := by
  unfold enterCreation? at h
  dsimp only at h
  obtain ⟨i, _, h⟩ := Option.bind_eq_some_iff.mp h
  obtain ⟨className, _, h⟩ := Option.bind_eq_some_iff.mp h
  obtain ⟨⟨creation, c⟩, hc, h⟩ := Option.bind_eq_some_iff.mp h
  obtain ⟨created, _, h⟩ := Option.map_eq_some_iff.mp h
  cases h
  exact (rebound_creationFor? hc).trans ⟨_, _, _, rfl⟩

theorem rebound_enter? {s : Setting} {a b : Activation} {point : TracePoint} {e : Entrance}
    (h : a.enter? s point = some (e, b)) : Rebound a b := by
  unfold enter? at h
  rcases Option.or_eq_some_iff.mp h with h | ⟨_, h⟩
  · split at h
    · exact rebound_enterMethod? h
    · exact rebound_enterCreation? h
    · cases h
      exact .refl a
    · cases h
  · obtain ⟨_, _, h⟩ := Option.map_eq_some_iff.mp h
    cases h
    exact .refl a

/-! ### Binding does not look at the scan -/

/-- Another state of the scan, for the same bindings. -/
def rescan (cursor : Cursor) (scan : Scan) (markers ranges : List Range) (a : Activation) :
    Activation :=
  {a with cursor := cursor, scan := scan, markers := markers, ranges := ranges}

section Rescan
variable (cursor : Cursor) (scan : Scan) (markers ranges : List Range)

@[simp] theorem fileOf_rescan (s : Setting) (a : Activation) :
    (a.rescan cursor scan markers ranges).fileOf s = a.fileOf s := rfl

@[simp] theorem sites_rescan (a : Activation) :
    (a.rescan cursor scan markers ranges).sites = a.sites := rfl

@[simp] theorem consumed_rescan (a : Activation) :
    (a.rescan cursor scan markers ranges).consumed = a.consumed := rfl

@[simp] theorem openCreation_rescan (a : Activation) :
    (a.rescan cursor scan markers ranges).openCreation = a.openCreation := rfl

@[simp] theorem lastCreation_rescan (a : Activation) :
    (a.rescan cursor scan markers ranges).lastCreation = a.lastCreation := rfl

@[simp] theorem setupCall?_rescan (s : Setting) (a : Activation) (name : String) :
    (a.rescan cursor scan markers ranges).setupCall? s name = a.setupCall? s name := rfl

@[simp] theorem consume_rescan (a : Activation) (r : Range) :
    (a.rescan cursor scan markers ranges).consume r =
      (a.consume r).rescan cursor scan markers ranges := by
  unfold consume
  rw [consumed_rescan]
  by_cases h : a.consumed.contains r = true
  · rw [if_pos h, if_pos h]
  · rw [if_neg h, if_neg h]
    rfl

theorem enterMethod?_rescan (s : Setting) (a : Activation) (unit : Ref) :
    (a.rescan cursor scan markers ranges).enterMethod? s unit =
      (a.enterMethod? s unit).map (Prod.map id (rescan cursor scan markers ranges)) := by
  simp only [enterMethod?, fileOf_rescan, consumed_rescan, sites_rescan, setupCall?_rescan,
    consume_rescan]
  cases (s.file unit).name? unit.node with
  | none => rfl
  | some name =>
    simp only [Option.bind_some]
    split
    · rfl
    · cases a.setupCall? s name <;> rfl

theorem creationFor?_rescan (s : Setting) (a : Activation) (c : Ref) :
    (a.rescan cursor scan markers ranges).creationFor? s c =
      (a.creationFor? s c).map (Prod.map id (rescan cursor scan markers ranges)) := by
  simp only [creationFor?, fileOf_rescan, consumed_rescan, sites_rescan, openCreation_rescan,
    lastCreation_rescan, consume_rescan]
  split
  · rfl
  · split
    · rfl
    · cases a.lastCreation.filter (creates s (a.fileOf s) c) <;> rfl

theorem enterCreation?_rescan (s : Setting) (a : Activation) (unit : Ref) :
    (a.rescan cursor scan markers ranges).enterCreation? s unit =
      (a.enterCreation? s unit).map (Prod.map id (rescan cursor scan markers ranges)) := by
  simp only [enterCreation?, creationFor?_rescan]
  cases declaringClass? (s.file unit) unit.node with
  | none => rfl
  | some i =>
    simp only [Option.bind_some]
    cases (s.file unit).name? i with
    | none => rfl
    | some className =>
      simp only [Option.bind_some]
      cases a.creationFor? s ⟨unit.file, i⟩ with
      | none => rfl
      | some found =>
        obtain ⟨creation, b⟩ := found
        simp only [Option.map_some, Option.bind_some, Prod.map, fileOf_rescan, id]
        cases createdType? (b.fileOf s) creation <;> rfl

theorem enter?_rescan (s : Setting) (a : Activation) (point : TracePoint) :
    (a.rescan cursor scan markers ranges).enter? s point =
      (a.enter? s point).map (Prod.map id (rescan cursor scan markers ranges)) := by
  have hnested : (a.rescan cursor scan markers ranges).enterNested? s point =
    a.enterNested? s point := rfl
  unfold enter?
  rw [enterMethod?_rescan, enterCreation?_rescan, hnested]
  cases point.kind.binding with
  | callSite => cases a.enterMethod? s point.ref <;> cases a.enterNested? s point <;> rfl
  | creationSite => cases a.enterCreation? s point.ref <;> cases a.enterNested? s point <;> rfl
  | classInit => rfl
  | nested => cases a.enterNested? s point <;> rfl

end Rescan

/-! ### The scan and the end of a child -/

theorem addRange_eq (a : Activation) (r : Range) :
    ∃ ranges, a.addRange r = {a with ranges := ranges} := by
  unfold addRange
  split
  · exact ⟨a.ranges, rfl⟩
  · split
    · exact ⟨a.ranges, rfl⟩
    · exact ⟨_, rfl⟩

theorem addOwn_eq (a : Activation) (own : Option Range) :
    ∃ ranges, a.addOwn own = {a with ranges := ranges} := by
  cases own with
  | none => exact ⟨a.ranges, rfl⟩
  | some r => exact addRange_eq a r

theorem foldl_addRange_eq (rs : List Range) (a : Activation) :
    ∃ ranges, rs.foldl addRange a = {a with ranges := ranges} := by
  induction rs generalizing a with
  | nil => exact ⟨a.ranges, rfl⟩
  | cons r rs ih =>
    obtain ⟨ranges, h⟩ := addRange_eq a r
    obtain ⟨ranges', h'⟩ := ih (a.addRange r)
    exact ⟨ranges', by rw [List.foldl_cons, h', h]⟩

theorem finish_eq (s : Setting) (a : Activation) :
    ∃ ranges, a.finish s = {a with ranges := ranges} := by
  unfold finish
  split
  · exact foldl_addRange_eq _ a
  · exact ⟨a.ranges, rfl⟩

theorem resume_eq (a : Activation) (e : Entrance) :
    ∃ cursor markers consumed,
      a.resume e = {a with cursor := cursor, markers := markers, consumed := consumed} := by
  unfold resume releaseHeader
  cases e.header? <;> cases e.marker? <;> exact ⟨_, _, _, rfl⟩

end Retrace.Reconstruct.Activation
