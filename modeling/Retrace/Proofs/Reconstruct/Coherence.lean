import Retrace.Proofs.Reconstruct.Bindings
import Retrace.Proofs.Reconstruct.Plain
import Retrace.Proofs.Reconstruct.Run
import Retrace.Proofs.Reconstruct.Scanning

/-! What an activation knows of its scope.

The sites of an activation are those of its scope, the creations that it remembers are among them,
and its scan stands in the pieces of the scope (`Coherent`). Every activation on the stack of a
run is coherent (`coherent_of_moves`). -/
namespace Retrace.Reconstruct
open Source Instrument Trace

namespace Activation

/-- The pieces of an activation's scope. -/
def pieces (s : Setting) (a : Activation) : List Piece :=
  (Plain.scope s a).map (piece (a.fileOf s))

structure Coherent (s : Setting) (a : Activation) : Prop where
  sites : a.sites = scopeSites (a.fileOf s) a.point.ref.node a.point.kind
  known : ∀ creation, a.openCreation = some creation ∨ a.lastCreation = some creation →
    ∃ site ∈ a.sites, site.node = creation
  traced : ∃ id, s.points.get? id = some a.point
  within : Scan.Within (pieces s a) a.scan

theorem mem_of_pickSite? {f : File} {consumed : List Range} {sites : List Site}
    {wanted : Nat → Bool} {site : Site} (h : pickSite? f consumed sites wanted = some site) :
    site ∈ sites ∧ wanted site.node = true := by
  unfold pickSite? at h
  dsimp only at h
  have hmem : site ∈ sites.filter fun s => wanted s.node := by
    rcases Option.or_eq_some_iff.mp h with h | ⟨_, h⟩
    · exact List.mem_of_find?_eq_some h
    · exact List.mem_of_find?_eq_some h
  exact List.mem_filter.mp hmem

theorem consume_creations (a : Activation) (r : Range) :
    (a.consume r).openCreation = a.openCreation ∧ (a.consume r).lastCreation = a.lastCreation ∧
      (a.consume r).sites = a.sites := by
  unfold consume
  split <;> exact ⟨rfl, rfl, rfl⟩

section Coherent
variable {s : Setting} {a : Activation} (h : Coherent s a)
include h

/-- Whatever creation is taken stands in the scope. -/
theorem Coherent.creationFor? {b : Activation} {c : Ref} {creation : Nat}
    (hc : a.creationFor? s c = some (creation, b)) : ∃ site ∈ a.sites, site.node = creation := by
  unfold Activation.creationFor? at hc
  dsimp only at hc
  split at hc
  · rename_i opened hopened
    cases hc
    exact h.known _ (.inl (Option.filter_eq_some_iff.mp hopened).1)
  · split at hc
    · rename_i site hpick
      cases hc
      exact ⟨site, (mem_of_pickSite? hpick).1, rfl⟩
    · obtain ⟨latest, hlatest, hpair⟩ := Option.map_eq_some_iff.mp hc
      cases hpair
      exact h.known _ (.inr (Option.filter_eq_some_iff.mp hlatest).1)

theorem Coherent.known_of_enterCreation? {b : Activation} {unit : Ref} {e : Entrance}
    (he : a.enterCreation? s unit = some (e, b)) (creation : Nat)
    (hb : b.openCreation = some creation ∨ b.lastCreation = some creation) :
    ∃ site ∈ a.sites, site.node = creation := by
  unfold enterCreation? at he
  dsimp only at he
  obtain ⟨i, _, he⟩ := Option.bind_eq_some_iff.mp he
  obtain ⟨className, _, he⟩ := Option.bind_eq_some_iff.mp he
  obtain ⟨⟨taken, c⟩, hc, he⟩ := Option.bind_eq_some_iff.mp he
  obtain ⟨created, _, he⟩ := Option.map_eq_some_iff.mp he
  cases he
  have htaken := h.creationFor? hc
  dsimp only at hb
  rcases hb with hb | hb
  · split at hb <;> cases hb
    exact htaken
  · cases hb
    exact htaken

theorem Coherent.enter? {b : Activation} {point : TracePoint} {e : Entrance}
    (he : a.enter? s point = some (e, b)) : Coherent s b := by
  have hknown : ∀ creation, b.openCreation = some creation ∨ b.lastCreation = some creation →
      ∃ site ∈ a.sites, site.node = creation := by
    unfold Activation.enter? at he
    rcases Option.or_eq_some_iff.mp he with he | ⟨_, he⟩
    · split at he
      · -- Binding a method consumes a site and remembers no creation.
        unfold enterMethod? at he
        obtain ⟨name, _, he⟩ := Option.bind_eq_some_iff.mp he
        dsimp only at he
        split at he
        · cases he
          obtain ⟨hopen, hlast, _⟩ := consume_creations a ((a.fileOf s).range _)
          rw [hopen, hlast]
          exact h.known
        · obtain ⟨_, _, he⟩ := Option.map_eq_some_iff.mp he
          cases he
          exact h.known
      · exact h.known_of_enterCreation? he
      · cases he
        exact h.known
      · cases he
    · obtain ⟨_, _, he⟩ := Option.map_eq_some_iff.mp he
      cases he
      exact h.known
  obtain ⟨_, _, _, rfl⟩ := rebound_enter? he
  exact ⟨h.sites, hknown, h.traced, h.within⟩

theorem Coherent.addOwn (own : Option Range) : Coherent s (a.addOwn own) := by
  obtain ⟨_, hown⟩ := addOwn_eq a own
  rw [hown]
  exact ⟨h.sites, h.known, h.traced, h.within⟩

theorem Coherent.resume (e : Entrance) : Coherent s (a.resume e) := by
  obtain ⟨_, _, _, hresume⟩ := resume_eq a e
  rw [hresume]
  exact ⟨h.sites, h.known, h.traced, h.within⟩

theorem Coherent.releaseHeader (header : Option Range) : Coherent s (a.releaseHeader header) := by
  cases header with
  | none => exact h
  | some r => exact ⟨h.sites, h.known, h.traced, h.within⟩

theorem Coherent.plain : Coherent s a.plain :=
  ⟨h.sites, h.known, h.traced, List.nil_suffix, fun _ _ hp => nomatch hp⟩

theorem Coherent.ask {scan : Scan} (hscan : a.scan.step a.cursor = .ask scan) :
    Coherent s {a with scan := scan} :=
  ⟨h.sites, h.known, h.traced, h.within.ask hscan⟩

theorem Coherent.go {scan : Scan} {own : Option Range}
    (hscan : a.scan.step a.cursor = .go scan own) : Coherent s {a with scan := scan} :=
  ⟨h.sites, h.known, h.traced, h.within.go hscan⟩

theorem Coherent.recursor (cursor : Cursor) : Coherent s {a with cursor := cursor} :=
  ⟨h.sites, h.known, h.traced, h.within⟩

end Coherent

theorem coherent_start {s : Setting} {id : Nat} {point : TracePoint}
    (h : s.points.get? id = some point) (index : Nat) (e : Entrance) :
    Coherent s (start (s.file point.ref) index point e) := by
  refine ⟨rfl, fun creation hc => ?_, ⟨id, h⟩, Scan.within_ofPieces _⟩
  rcases hc with hc | hc <;> cases hc

end Activation

open Activation

theorem coherent_lasting (s : Setting) : Machine.Lasting s (Coherent s) where
  start index e hpoint := coherent_start hpoint index e
  go ha hscan := (ha.go hscan).addOwn _
  ask ha hscan := ha.ask hscan
  recursor cursor ha := ha.recursor cursor
  enter ha _ henter := ha.enter? henter
  resume e ha := ha.resume e

theorem coherent_of_moves {s : Setting} {m n : Machine} (h : Machine.Moves s m n)
    (hm : ∀ a ∈ m.stack, Coherent s a) : ∀ a ∈ n.stack, Coherent s a :=
  (coherent_lasting s).moves h hm

end Retrace.Reconstruct
