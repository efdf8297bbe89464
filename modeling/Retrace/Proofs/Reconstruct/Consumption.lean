import Retrace.Proofs.Reconstruct.Edges
import Retrace.Proofs.Reconstruct.SiteOrder

/-! The sites that an activation has bound.

To take a child, an activation binds at most one site of its scope (`consumed_of_enter?`), and
sites are freed only when the round of a loop ends that stands inside of the activation's unit and
around them (`mem_consumed_resume`, `loop_of_header`). So the calls that no loop stands around stay
bound. -/
namespace Retrace.Reconstruct
open Java Source Instrument Trace

namespace Activation

/-- The site is one that a trace point can be bound to: a call of the method, or the creation of
an object. -/
def Suits (s : Setting) (f : File) (point : TracePoint) (x : Nat) : Prop :=
  (point.kind = .method ∧ ∃ name, (s.file point.ref).name? point.ref.node = some name ∧
    calledName? f x = some name) ∨ f.form x = .objectCreationExpression

theorem Suits.bindable {s : Setting} {f : File} {point : TracePoint} {x : Nat}
    (h : Suits s f point x) : Bindable f x := by
  rcases h with ⟨_, name, _, hcalled⟩ | hform
  · exact .inl (by rw [hcalled]; exact Option.some_ne_none name)
  · exact .inr hform

@[simp] theorem mem_consumed_consume {a : Activation} {r q : Range} :
    q ∈ (a.consume r).consumed ↔ q = r ∨ q ∈ a.consumed := by
  unfold consume
  split
  · rename_i hr
    have hmem : r ∈ a.consumed := by simpa using hr
    exact ⟨.inr, fun h => h.elim (fun heq => heq ▸ hmem) id⟩
  · exact List.mem_cons

/-- A child is bound to one site at most. -/
theorem consumed_of_enter? {s : Setting} {a b : Activation} {point : TracePoint} {e : Entrance}
    (h : a.enter? s point = some (e, b)) :
    b.consumed = a.consumed ∨ ∃ x ∈ a.sites, Suits s (a.fileOf s) point x.node ∧
      b.consumed = (a.consume ((a.fileOf s).range x.node)).consumed := by
  unfold enter? at h
  rcases Option.or_eq_some_iff.mp h with h | ⟨_, h⟩
  · cases hkind : point.kind <;> rw [hkind] at h <;> dsimp only [PointKind.binding] at h
    case method =>
      obtain ⟨name, hname, h⟩ := Option.bind_eq_some_iff.mp h
      dsimp only at h
      split at h
      · rename_i x hpick
        cases h
        obtain ⟨hx, hcalls⟩ := mem_of_pickSite? hpick
        exact .inr ⟨x, hx, .inl ⟨hkind, name, hname, by simpa [calls] using hcalls⟩, rfl⟩
      · obtain ⟨_, _, h⟩ := Option.map_eq_some_iff.mp h
        cases h
        exact .inl rfl
    case constructor | initializer =>
      obtain ⟨c, _, h⟩ := Option.bind_eq_some_iff.mp h
      obtain ⟨className, _, h⟩ := Option.bind_eq_some_iff.mp h
      obtain ⟨⟨creation, a'⟩, hc, h⟩ := Option.bind_eq_some_iff.mp h
      obtain ⟨created, _, h⟩ := Option.map_eq_some_iff.mp h
      cases h
      unfold creationFor? at hc
      dsimp only at hc
      split at hc
      · cases hc
        exact .inl rfl
      · split at hc
        · rename_i x hpick
          cases hc
          obtain ⟨hx, hwanted⟩ := mem_of_pickSite? hpick
          simp only [Bool.and_eq_true, beq_iff_eq] at hwanted
          exact .inr ⟨x, hx, .inr hwanted.1, rfl⟩
        · obtain ⟨_, _, hc⟩ := Option.map_eq_some_iff.mp hc
          cases hc
          exact .inl rfl
    case staticInitializer =>
      cases h
      exact .inl rfl
    all_goals cases h
  · obtain ⟨_, _, h⟩ := Option.map_eq_some_iff.mp h
    cases h
    exact .inl rfl

/-- What has been bound stays so when a child begins. -/
theorem consumed_subset {s : Setting} {a b : Activation} {point : TracePoint} {e : Entrance}
    (h : a.enter? s point = some (e, b)) : a.consumed ⊆ b.consumed := by
  intro r hr
  rcases consumed_of_enter? h with heq | ⟨x, _, _, heq⟩
  · rwa [heq]
  · rw [heq, mem_consumed_consume]
    exact .inr hr

/-- A method is bound to the site that is picked for its name, if there is one. -/
theorem enter?_of_pick {s : Setting} {a b : Activation} {point : TracePoint} {e : Entrance}
    {name : String} (hkind : point.kind = .method)
    (hname : (s.file point.ref).name? point.ref.node = some name)
    (h : a.enter? s point = some (e, b)) {x : Site}
    (hpick : pickSite? (a.fileOf s) a.consumed a.sites (calls (a.fileOf s) name) = some x) :
    e.link? = some (linkTo (a.fileOf s) x.node) ∧
      b.consumed = (a.consume ((a.fileOf s).range x.node)).consumed := by
  unfold enter? enterMethod? at h
  rw [hkind, hname] at h
  simp only [PointKind.binding, Option.bind_some, hpick, Option.some_or, Option.some.injEq,
    Prod.mk.injEq] at h
  obtain ⟨rfl, rfl⟩ := h
  exact ⟨rfl, rfl⟩

/-! ### What is freed -/

theorem mem_consumed_resume {a : Activation} {e : Entrance} {r : Range} :
    r ∈ (a.resume e).consumed ↔
      r ∈ a.consumed ∧ ∀ h, e.header? = some h → h.contains r = false := by
  have hrelease : (a.resume e).consumed = (a.releaseHeader e.header?).consumed := by
    unfold resume
    cases e.marker? <;> rfl
  rw [hrelease]
  unfold releaseHeader
  cases e.header? with
  | none => simp
  | some h => simp

/-- What frees the sites in its header is a loop inside of the unit. -/
theorem loop_of_header {s : Setting} {a b : Activation} {point : TracePoint} {e : Entrance}
    {header : Range} (h : a.enter? s point = some (e, b)) (hheader : e.header? = some header) :
    point.kind.isLoop = true ∧ point.ref.file = a.point.ref.file ∧
      header = (a.fileOf s).range point.ref.node ∧
      ((a.fileOf s).range a.point.ref.node).strictlyContains header = true := by
  unfold enter? at h
  rcases Option.or_eq_some_iff.mp h with h | ⟨_, h⟩
  · split at h
    · unfold enterMethod? at h
      obtain ⟨name, _, h⟩ := Option.bind_eq_some_iff.mp h
      dsimp only at h
      split at h
      · cases h
        cases hheader
      · obtain ⟨_, _, h⟩ := Option.map_eq_some_iff.mp h
        cases h
        cases hheader
    · unfold enterCreation? at h
      dsimp only at h
      obtain ⟨_, _, h⟩ := Option.bind_eq_some_iff.mp h
      obtain ⟨_, _, h⟩ := Option.bind_eq_some_iff.mp h
      obtain ⟨_, _, h⟩ := Option.bind_eq_some_iff.mp h
      obtain ⟨_, _, h⟩ := Option.map_eq_some_iff.mp h
      cases h
      cases hheader
    · cases h
      cases hheader
    · cases h
  · obtain ⟨e', he, h⟩ := Option.map_eq_some_iff.mp h
    cases h
    unfold enterNested? at he
    dsimp only at he
    split at he
    · rename_i hinside
      obtain ⟨hfile, hstrict⟩ := Bool.and_eq_true_iff.mp hinside
      cases he
      split at hheader
      · rename_i hloop
        cases hheader
        exact ⟨hloop, beq_iff_eq.mp hfile, rfl, hstrict⟩
      · cases hheader
    · cases he

end Activation

section Traced
variable {p : Project} (h : ∀ n, (p.file n).Laid)
include h

/-- A call whose place is freed by the end of a child stands in the loop that the child is a round
of. -/
theorem below_loop_of_header {own inner : TracePoint} {a b : Activation} {e : Entrance}
    {header : Range} (hown : Traced p own) (hinner : Traced p inner) (hpoint : a.point = own)
    (henter : a.enter? (.traced p) inner = some (e, b)) (hheader : e.header? = some header)
    {x : Site} (hx : x ∈ scopeSites (p.file own.ref.file) own.ref.node own.kind)
    (hcall : calledName? (p.file own.ref.file) x.node ≠ none)
    (hcontains : header.contains ((p.file own.ref.file).range x.node) = true) :
    inner.kind.isLoop = true ∧ inner.ref.file = own.ref.file ∧
      (p.file own.ref.file).Below own.ref.node inner.ref.node ∧ inner.ref.node ≠ own.ref.node ∧
      (p.file own.ref.file).Below inner.ref.node x.node := by
  obtain ⟨hloop, hfile, rfl, hstrict⟩ := Activation.loop_of_header henter hheader
  rw [show a.fileOf (.traced p) = p.file a.point.ref.file from rfl, hpoint] at hcontains hstrict
  rw [hpoint] at hfile
  have hsize := hinner.node_lt
  have hkind := hinner.kind
  rw [hfile] at hsize hkind
  obtain ⟨hbelow, hne⟩ := (h _).below_of_strictlyContains hown.node_lt hsize hstrict
  exact ⟨hloop, hfile, hbelow, hne, below_of_contains_call (h _) hkind hsize
    (bounds_of_scopeSites (h _) hx).2 hcall hcontains⟩

end Traced

end Retrace.Reconstruct
