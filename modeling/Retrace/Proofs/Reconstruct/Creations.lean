import Retrace.Proofs.Reconstruct.Chains
import Retrace.Proofs.Reconstruct.Consumption
import Retrace.Proofs.Reconstruct.Ledger
import Retrace.Proofs.Reconstruct.Sight
import Retrace.Proofs.Reconstruct.Waiting

/-! Creations and the chains that they run.

The ids that the creations of a frame report one after the other are a list of stages (`stagesOf`):
each has the creation that it belongs to, and ends its chain or not. An activation `Serves` the
stages when it binds one after the other to their creations, with the creation open in between. It
does when every creation begins with a chain that no earlier one that is left unbound could begin
as well (`serves_of_runs`), and then so does the machine (`exists_state_of_serves`). A run as a
whole thus binds each chain to its creation (`chains_bind_to_creations`). -/
namespace Retrace.Reconstruct
open Source Instrument Trace Activation

/-- An id that a creation reports. -/
structure Stage where
  id : Nat
  creation : Nat
  /-- The chain ends with it. -/
  ends : Bool
  deriving DecidableEq, Repr

namespace Stage

/-- The creation that is open behind the stage. -/
def opened (t : Stage) : Option Nat := if t.ends then none else some t.creation

end Stage

def stages (creation : Nat) : List Nat → List Stage
  | [] => []
  | id :: ids => ⟨id, creation, ids.isEmpty⟩ :: stages creation ids

theorem map_id_stages (creation : Nat) (ids : List Nat) :
    (stages creation ids).map Stage.id = ids := by
  induction ids with
  | nil => rfl
  | cons id ids ih => rw [stages, List.map_cons, ih]

/-- Only the last stage ends the chain. -/
theorem stages_concat (creation : Nat) (front : List Nat) (last : Nat) :
    stages creation (front ++ [last]) =
      front.map (fun id => ⟨id, creation, false⟩) ++ [⟨last, creation, true⟩] := by
  induction front with
  | nil => rfl
  | cons id front ih =>
    rw [List.cons_append, stages, ih, List.map_cons, List.cons_append]
    cases front <;> rfl

/-- A creation with the ids that it reports. -/
structure Setup where
  site : Site
  ids : List Nat
  deriving DecidableEq, Repr

def stagesOf (runs : List Setup) : List Stage :=
  runs.flatMap fun run => stages run.site.node run.ids

theorem map_id_stagesOf (runs : List Setup) :
    (stagesOf runs).map Stage.id = runs.flatMap Setup.ids := by
  unfold stagesOf
  simp only [List.map_flatMap, map_id_stages]

/-! ### What is bound to a creation -/

/-- The activation that has bound a step of the chain. -/
def Activation.holding (a : Activation) (t : Stage) : Activation :=
  {a with lastCreation := some t.creation, openCreation := t.opened}

/-- How a unit is entered by way of a creation. -/
def viaCreation (s : Setting) (f : File) (creation : Nat) (unit : Ref) : Entrance :=
  .site (linkTo f creation) (landing? s unit) (some (f.range creation))

theorem enter?_of_step {s : Setting} {a b : Activation} {t : Stage}
    (hstep : IsStep s (a.fileOf s) t.creation t.id t.ends)
    (hfor : ∀ c, HasSetup s c = true → creates s (a.fileOf s) c t.creation = true →
      a.creationFor? s c = some (t.creation, b)) (hb : b.fileOf s = a.fileOf s) :
    ∃ point, s.points.get? t.id = some point ∧ point.kind.binding = .creationSite ∧
      a.enter? s point = some (viaCreation s (a.fileOf s) t.creation point.ref, b.holding t) := by
  obtain ⟨point, c, className, created, hpoint, hkind, hfile, hdeclared, hname, hcreated, hancestor,
    hsetup, hends⟩ := hstep
  have hcreates : creates s (a.fileOf s) c t.creation = true := by
    unfold creates
    rw [hcreated]
    simpa using hancestor
  have hclass : (⟨point.ref.file, c.node⟩ : Ref) = c := by rw [← hfile]
  refine ⟨point, hpoint, hkind, ?_⟩
  unfold Activation.enter?
  rw [hkind]
  unfold enterCreation?
  simp only [hdeclared, Option.bind_some, hname, hclass, hfor c hsetup hcreates, hb, hcreated,
    Option.map_some, hends, Option.some_or]
  rfl

/-- The creation whose chain has begun goes on. -/
theorem enter?_of_open {s : Setting} {a : Activation} {t : Stage}
    (hstep : IsStep s (a.fileOf s) t.creation t.id t.ends)
    (hopen : a.openCreation = some t.creation) :
    ∃ point, s.points.get? t.id = some point ∧ point.kind.binding = .creationSite ∧
      a.enter? s point = some (viaCreation s (a.fileOf s) t.creation point.ref, a.holding t) := by
  refine enter?_of_step hstep (fun c _ hcreates => ?_) rfl
  unfold creationFor?
  simp only [hopen, Option.filter_some, hcreates, if_true]

theorem pickSite?_eq {f : File} {consumed : List Range} {sites : List Site} {wanted : Nat → Bool}
    {x : Site} (hx : x ∈ sites) (hwanted : wanted x.node = true)
    (hfree : f.range x.node ∉ consumed)
    (hfirst : ∀ y, [y, x].Sublist sites → wanted y.node = true → f.range y.node ∈ consumed) :
    pickSite? f consumed sites wanted = some x := by
  have hmem : x ∈ sites.filter fun y => wanted y.node := List.mem_filter.mpr ⟨hx, hwanted⟩
  obtain ⟨y, hy⟩ : ∃ y, (sites.filter fun y => wanted y.node).find?
      (fun y => !consumed.contains (f.range y.node)) = some y := by
    refine Option.isSome_iff_exists.mp (List.find?_isSome.mpr ⟨x, hmem, ?_⟩)
    simpa using hfree
  unfold pickSite?
  simp only [hy, Option.some_or, Option.some.injEq]
  obtain ⟨hunbound, front, back, heq, hfront⟩ := List.find?_eq_some_iff_append.mp hy
  rw [heq] at hmem
  rcases List.mem_append.mp hmem with hmem | hmem
  · have hbound := hfront x hmem
    exact absurd (by simpa using hbound) hfree
  rcases List.mem_cons.mp hmem with heq' | hmem
  · exact heq'.symm
  · have hsub : [y, x].Sublist (sites.filter fun y => wanted y.node) := by
      rw [heq]
      exact (List.Sublist.cons_cons y (List.singleton_sublist.mpr hmem)).trans
        (List.sublist_append_right _ _)
    have hbound := hfirst y (hsub.trans List.filter_sublist)
      (List.mem_filter.mp (hsub.subset List.mem_cons_self)).2
    simp [hbound] at hunbound

/-- Two creations set up a common class that has setup code. -/
def SharesSetup (s : Setting) (f : File) (x y : Nat) : Prop :=
  ∃ c, HasSetup s c = true ∧ creates s f c x = true ∧ creates s f c y = true

/-- A creation begins its chain when those before it that could begin one are bound. -/
theorem enter?_of_fresh {s : Setting} {a : Activation} {t : Stage} {x : Site}
    (hstep : IsStep s (a.fileOf s) t.creation t.id t.ends) (hopen : a.openCreation = none)
    (hx : x ∈ a.sites) (hnode : x.node = t.creation)
    (hform : (a.fileOf s).form x.node = .objectCreationExpression)
    (hfree : (a.fileOf s).range x.node ∉ a.consumed)
    (hfirst : ∀ y, [y, x].Sublist a.sites →
      (a.fileOf s).form y.node = .objectCreationExpression →
      SharesSetup s (a.fileOf s) y.node x.node → (a.fileOf s).range y.node ∈ a.consumed) :
    ∃ point, s.points.get? t.id = some point ∧ point.kind.binding = .creationSite ∧
      a.enter? s point = some (viaCreation s (a.fileOf s) t.creation point.ref,
        (a.consume ((a.fileOf s).range t.creation)).holding t) := by
  obtain ⟨_, _, _, hconsume⟩ := rebound_consume a ((a.fileOf s).range t.creation)
  refine enter?_of_step hstep (fun c hsetup hcreates => ?_) (by rw [hconsume]; rfl)
  have hpick : pickSite? (a.fileOf s) a.consumed a.sites (fun i =>
      (a.fileOf s).form i == .objectCreationExpression && creates s (a.fileOf s) c i) = some x := by
    refine pickSite?_eq hx ?_ hfree fun y hy hwanted => ?_
    · rw [hform, hnode, hcreates]
      rfl
    · obtain ⟨hyform, hycreates⟩ := Bool.and_eq_true_iff.mp hwanted
      exact hfirst y hy (beq_iff_eq.mp hyform) ⟨c, hsetup, hycreates, hnode ▸ hcreates⟩
  unfold creationFor?
  simp only [hopen, Option.filter_none, hpick, hnode]

/-! ### What an activation binds stage by stage -/

/-- Nothing can be bound to the unit, and no trace point stands inside of it. -/
structure Leaf (s : Setting) (point : TracePoint) : Prop where
  sites : scopeSites (s.file point.ref) point.ref.node point.kind = []
  inner : ∀ {id inner}, s.points.get? id = some inner → inner.ref.file = point.ref.file →
    point.ref.node ∉ (s.file point.ref).ancestors inner.ref.node

/-- What binds a step of a chain finds nothing in a leaf. -/
theorem Leaf.enter?_eq_none {s : Setting} (hs : s.Parsed) {own : TracePoint} (hleaf : Leaf s own)
    {ownId : Nat} (hown : s.points.get? ownId = some own) (index : Nat) (e : Entrance) {id : Nat}
    {point : TracePoint} (hpoint : s.points.get? id = some point)
    (hkind : point.kind.binding = .creationSite) :
    (start (s.file own.ref) index own e).enter? s point = none := by
  have hfor : ∀ c, (start (s.file own.ref) index own e).creationFor? s c = none := by
    intro c
    unfold creationFor?
    rw [show (start (s.file own.ref) index own e).sites = [] from hleaf.sites]
    rfl
  have hnested : (start (s.file own.ref) index own e).enterNested? s point = none := by
    unfold enterNested?
    refine if_neg fun hinside => ?_
    obtain ⟨hfile, hstrict⟩ := Bool.and_eq_true_iff.mp hinside
    have hfile : point.ref.file = own.ref.file := beq_iff_eq.mp hfile
    have hsame : s.file point.ref = s.file own.ref := congrArg s.project.file hfile
    obtain ⟨hbelow, hne⟩ := (hs.laid own.ref).below_of_strictlyContains (hs.point hown).1
      (hsame ▸ (hs.point hpoint).1) hstrict
    rcases List.mem_cons.mp ((hs.laid own.ref).toLinked.mem_ancestors hbelow) with heq | habove
    · exact hne heq.symm
    · exact hleaf.inner hpoint hfile habove
  unfold Activation.enter?
  rw [hkind, hnested]
  unfold enterCreation?
  simp only [hfor, Option.bind_none, Option.bind_fun_none]
  rfl

/-- The activation binds the stages one after the other. -/
inductive Serves (s : Setting) : Activation → List Stage → Prop
  | nil (a : Activation) : Serves s a []
  | cons {a b : Activation} {t : Stage} {ts : List Stage} {point : TracePoint}
      (hpoint : s.points.get? t.id = some point) (hkind : point.kind.binding = .creationSite)
      (hleaf : Leaf s point) (hsite : ∃ x ∈ a.sites, x.node = t.creation)
      (henter : a.enter? s point =
        some (viaCreation s (a.fileOf s) t.creation point.ref, b.holding t))
      (hrest : Serves s (b.holding t) ts) : Serves s a (t :: ts)

/-- Where the scan stands does not matter. -/
theorem Serves.rescan {s : Setting} {a : Activation} {ts : List Stage} (h : Serves s a ts)
    (cursor : Cursor) (scan : Scan) (markers ranges : List Range) :
    Serves s (a.rescan cursor scan markers ranges) ts := by
  induction h with
  | nil a => exact .nil _
  | @cons a b t ts point hpoint hkind hleaf hsite henter _ ih =>
    refine .cons (b := b.rescan cursor scan markers ranges) hpoint hkind hleaf hsite ?_ ih
    rw [enter?_rescan, henter]
    rfl

/-! ### Creations one after the other -/

section Chain
variable {s : Setting} {f : File} {x last : Nat} {front : List Nat}
  (hlast : IsStep s f x last true) (hfront : ∀ id ∈ front, IsStep s f x id false)
  (hleaf : ∀ id ∈ front ++ [last], ∀ point, s.points.get? id = some point → Leaf s point)
  {ts : List Stage}
include hlast hfront hleaf

/-- A chain that has begun goes on to its end. -/
theorem serves_of_open {a : Activation} (hfile : a.fileOf s = f) (hopen : a.openCreation = some x)
    (hsite : ∃ y ∈ a.sites, y.node = x)
    (hthen : ∀ b, Rebound a b → b.consumed = a.consumed → b.openCreation = none → Serves s b ts) :
    Serves s a (stages x (front ++ [last]) ++ ts) := by
  rw [stages_concat]
  induction front generalizing a with
  | nil =>
    obtain ⟨point, hpoint, hkind, henter⟩ :=
      enter?_of_open (t := ⟨last, x, true⟩) (hfile ▸ hlast) hopen
    refine .cons hpoint hkind (hleaf last List.mem_cons_self point hpoint) hsite henter ?_
    exact hthen _ ⟨_, _, _, rfl⟩ rfl rfl
  | cons id front ih =>
    obtain ⟨hfirst, hfront⟩ := List.forall_mem_cons.mp hfront
    obtain ⟨hleaf', hleaf⟩ := List.forall_mem_cons.mp hleaf
    obtain ⟨point, hpoint, hkind, henter⟩ :=
      enter?_of_open (t := ⟨id, x, false⟩) (hfile ▸ hfirst) hopen
    refine .cons hpoint hkind (hleaf' point hpoint) hsite henter ?_
    refine ih hfront hleaf (a := a.holding ⟨id, x, false⟩) hfile rfl hsite fun b hb hconsumed => ?_
    exact hthen b (.trans ⟨_, _, _, rfl⟩ hb) hconsumed

/-- A chain begins with the site that is bound for it, and goes on to its end. -/
theorem serves_of_fresh {a : Activation} (hfile : a.fileOf s = f) (hopen : a.openCreation = none)
    {y : Site} (hy : y ∈ a.sites) (hnode : y.node = x)
    (hform : f.form y.node = .objectCreationExpression) (hfree : f.range y.node ∉ a.consumed)
    (hbefore : ∀ z, [z, y].Sublist a.sites → f.form z.node = .objectCreationExpression →
      SharesSetup s f z.node y.node → f.range z.node ∈ a.consumed)
    (hthen : ∀ b, Rebound a b → b.consumed = (a.consume (f.range x)).consumed →
      b.openCreation = none → Serves s b ts) :
    Serves s a (stages x (front ++ [last]) ++ ts) := by
  subst hfile
  have hrebound := rebound_consume a ((a.fileOf s).range x)
  cases front with
  | nil =>
    obtain ⟨point, hpoint, hkind, henter⟩ :=
      enter?_of_fresh (t := ⟨last, x, true⟩) hlast hopen hy hnode hform hfree hbefore
    refine .cons hpoint hkind (hleaf last List.mem_cons_self point hpoint) ⟨y, hy, hnode⟩ henter ?_
    exact hthen _ (hrebound.trans ⟨_, _, _, rfl⟩) rfl rfl
  | cons id front =>
    obtain ⟨hfirst, hfront⟩ := List.forall_mem_cons.mp hfront
    obtain ⟨hleaf', hleaf⟩ := List.forall_mem_cons.mp hleaf
    obtain ⟨point, hpoint, hkind, henter⟩ :=
      enter?_of_fresh (t := ⟨id, x, false⟩) hfirst hopen hy hnode hform hfree hbefore
    obtain ⟨_, _, _, hconsume⟩ := rebound_consume a ((a.fileOf s).range x)
    have hstages : stages x (id :: front ++ [last]) =
        ⟨id, x, false⟩ :: stages x (front ++ [last]) := by
      rw [stages_concat, stages_concat]
      rfl
    rw [hstages]
    refine .cons hpoint hkind (hleaf' point hpoint) ⟨y, hy, hnode⟩ henter ?_
    refine serves_of_open (a := (a.consume ((a.fileOf s).range x)).holding ⟨id, x, false⟩) hlast
      hfront hleaf (by rw [hconsume]; rfl) rfl ⟨y, by rw [hconsume]; exact hy, hnode⟩ ?_
    exact fun b hb hconsumed => hthen b ((hrebound.trans ⟨_, _, _, rfl⟩).trans hb) hconsumed

end Chain

/-- The creation reports its ids while it sets up these classes. -/
structure Setup.Reports (s : Setting) (own : TracePoint) (x : Setup) (classes : List Ref) :
    Prop where
  creates : ∃ created, Creates s own x.site.node created ∧ Lineage s created classes
  reports : SetsUp s classes (argumentCount (s.file own.ref) x.site.node) x.ids

/-- The creations are evaluated in this order and have not been bound. One in front of them that
is passed over has been bound, or it sets up no class with setup code in common with theirs. -/
structure Evaluated (s : Setting) (own : TracePoint) (consumed : List Range) (runs : List Setup) :
    Prop where
  listed : (runs.map Setup.site).Sublist
    (scopeSites (s.file own.ref) own.ref.node own.kind)
  free : ∀ x ∈ runs, (s.file own.ref).range x.site.node ∉ consumed
  passed : ∀ x ∈ runs, ∀ y, y ∉ runs.map Setup.site →
    [y, x.site].Sublist (scopeSites (s.file own.ref) own.ref.node own.kind) →
    (s.file own.ref).form y.node = .objectCreationExpression →
    SharesSetup s (s.file own.ref) y.node x.site.node → (s.file own.ref).range y.node ∈ consumed

theorem evaluated_of_all {s : Setting} {own : TracePoint} {runs : List Setup}
    (h : runs.map Setup.site = scopeSites (s.file own.ref) own.ref.node own.kind) :
    Evaluated s own [] runs where
  listed := h ▸ List.Sublist.refl _
  free _ _ := List.not_mem_nil
  passed _ _ _ hy hsub := absurd (h ▸ hsub.subset List.mem_cons_self) hy

section Evaluated
variable {s : Setting} (hs : s.Parsed) {own : TracePoint} {consumed : List Range} {x : Setup}
  {runs : List Setup} (h : Evaluated s own consumed (x :: runs))
include hs h

/-- No site of a scope is evaluated both before and after another one. -/
theorem Evaluated.not_sublist {y : Site} (hy : y ∈ (x :: runs).map Setup.site) :
    ¬[y, x.site].Sublist (scopeSites (s.file own.ref) own.ref.node own.kind) := by
  intro hsub
  have hlaid := hs.laid own.ref
  have hordered := pairwise_scopeSites hlaid own.ref.node own.kind
  have hyx : EvaluatedFirst (s.file own.ref) y.node x.site.node :=
    List.rel_of_pairwise_cons (hordered.sublist hsub) List.mem_cons_self
  obtain ⟨hypos, hysize⟩ := bounds_of_scopeSites hlaid (hsub.subset List.mem_cons_self)
  obtain ⟨hxpos, hxsize⟩ :=
    bounds_of_scopeSites hlaid (hsub.subset (List.mem_cons_of_mem y List.mem_cons_self))
  rcases List.mem_cons.mp hy with rfl | hy
  · exact EvaluatedFirst.irrefl hlaid hxpos hxsize hyx
  · have hxy : EvaluatedFirst (s.file own.ref) x.site.node y.node :=
      List.rel_of_pairwise_cons (hordered.sublist h.listed) hy
    exact EvaluatedFirst.asymm hlaid hypos hysize hxpos hxsize hyx hxy

/-- Those in front of the first creation that could begin its chain are bound. -/
theorem Evaluated.first {y : Site}
    (hy : [y, x.site].Sublist (scopeSites (s.file own.ref) own.ref.node own.kind))
    (hform : (s.file own.ref).form y.node = .objectCreationExpression)
    (hshares : SharesSetup s (s.file own.ref) y.node x.site.node) :
    (s.file own.ref).range y.node ∈ consumed :=
  h.passed x List.mem_cons_self y (fun hmem => h.not_sublist hs hmem hy) hy hform hshares

/-- The other creations are still free when the first one has been bound. -/
theorem Evaluated.tail (hforms : ∀ y ∈ x :: runs,
      (s.file own.ref).form y.site.node = .objectCreationExpression) {consumed' : List Range}
    (hconsumed : ∀ r, r ∈ consumed' ↔ r ∈ consumed ∨
      x.ids ≠ [] ∧ r = (s.file own.ref).range x.site.node)
    (hreports : x.ids = [] → ∀ y ∈ runs,
      ¬SharesSetup s (s.file own.ref) x.site.node y.site.node) :
    Evaluated s own consumed' runs where
  listed := (List.sublist_cons_self _ _).trans h.listed
  free y hy hmem := by
    rcases (hconsumed _).mp hmem with hmem | ⟨_, heq⟩
    · exact h.free y (List.mem_cons_of_mem x hy) hmem
    · -- the two ranges would be those of one site
      have hsites : ∀ {z}, z ∈ x :: runs →
          z.site ∈ scopeSites (s.file own.ref) own.ref.node own.kind :=
        fun hz => h.listed.subset (List.mem_map_of_mem hz)
      have hsame : y.site = x.site := eq_of_range_eq (hs.laid _) (hs.fielded _)
        (hsites (List.mem_cons_of_mem x hy)) (hsites List.mem_cons_self)
        (.inr (hforms y (List.mem_cons_of_mem x hy))) (.inr (hforms x List.mem_cons_self)) heq
      refine h.not_sublist hs (y := x.site) List.mem_cons_self ?_
      refine List.Sublist.trans ?_ h.listed
      rw [List.map_cons]
      exact List.Sublist.cons_cons _ (List.singleton_sublist.mpr
        (hsame ▸ List.mem_map_of_mem hy))
  passed y hy z hz hsub hform hshares := by
    by_cases hzx : z = x.site
    · by_cases hids : x.ids = []
      · exact absurd (hzx ▸ hshares) (hreports hids y hy)
      · exact (hconsumed _).mpr (.inr ⟨hids, by rw [hzx]⟩)
    · refine (hconsumed _).mpr (.inl ?_)
      refine h.passed y (List.mem_cons_of_mem x hy) z (fun hmem => ?_) hsub hform hshares
      exact (List.mem_cons.mp hmem).elim hzx hz

end Evaluated

/-- The activation binds the ids that creations report to the creations. -/
theorem serves_of_runs {s : Setting} (hs : s.Parsed) (hdistinct : Distinct s) {own : TracePoint}
    {runs : List Setup} {a : Activation} (hown : a.point = own)
    (hsites : a.sites = scopeSites (s.file own.ref) own.ref.node own.kind)
    (hopen : a.openCreation = none) (hevaluated : Evaluated s own a.consumed runs)
    (hruns : ∀ x ∈ runs, ∃ classes, x.Reports s own classes ∧ Followed s classes)
    (hleaf : ∀ x ∈ runs, ∀ id ∈ x.ids, ∀ point, s.points.get? id = some point → Leaf s point) :
    Serves s a (stagesOf runs) := by
  induction runs generalizing a with
  | nil => exact .nil a
  | cons x runs ih =>
    have hforms : ∀ y ∈ x :: runs,
        (s.file own.ref).form y.site.node = .objectCreationExpression := by
      intro y hy
      obtain ⟨_, ⟨⟨_, hcreates, _⟩, _⟩, _⟩ := hruns y hy
      exact hcreates.form
    obtain ⟨classes, ⟨⟨created, hcreates, hlineage⟩, hreports⟩, hfollowed⟩ :=
      hruns x List.mem_cons_self
    have hancestry : s.ancestry created = classes :=
      ancestryWithin_of_lineage hdistinct.names hlineage hfollowed.short
    have hthen : ∀ b, Rebound a b → (∀ r, r ∈ b.consumed ↔ r ∈ a.consumed ∨
        x.ids ≠ [] ∧ r = (s.file own.ref).range x.site.node) → b.openCreation = none →
        Serves s b (stagesOf runs) := by
      rintro b ⟨_, _, _, rfl⟩ hconsumed hbopen
      refine ih hown hsites hbopen (hevaluated.tail hs hforms hconsumed fun hids y _ => ?_)
        (fun y hy => hruns y (List.mem_cons_of_mem x hy))
        fun y hy => hleaf y (List.mem_cons_of_mem x hy)
      -- what reports nothing sets up no class with setup code
      rintro ⟨c, hsetup, hcreated, _⟩
      unfold creates at hcreated
      rw [hcreates.type] at hcreated
      have hmem : c ∈ classes := by simpa [hancestry] using hcreated
      exact hreports.ne_nil hmem hsetup hids
    have hstages : stagesOf (x :: runs) = stages x.site.node x.ids ++ stagesOf runs := rfl
    rw [hstages]
    by_cases hids : x.ids = []
    · rw [hids, stages, List.nil_append]
      exact hthen a (.refl a) (fun r => by simp [hids]) hopen
    · obtain ⟨front, last, heq, hlast, hfront⟩ :=
        steps_of_setsUp hs hdistinct hcreates.type hlineage hreports hfollowed hids
      have hfile : a.fileOf s = s.file own.ref := by
        rw [Activation.fileOf, hown]
      rw [heq]
      refine serves_of_fresh hlast hfront (heq ▸ hleaf x List.mem_cons_self) hfile hopen
        (y := x.site) ?_ rfl (hforms x List.mem_cons_self)
        (hevaluated.free x List.mem_cons_self) (fun y hy => ?_) fun b hb hconsumed hbopen => ?_
      · rw [hsites]
        exact hevaluated.listed.subset List.mem_cons_self
      · exact hevaluated.first hs (hsites ▸ hy)
      · refine hthen b hb (fun r => ?_) hbopen
        rw [hconsumed, mem_consumed_consume, or_comm]
        exact or_congr_right (iff_and_self.mpr fun _ => hids)

/-! ### The machine -/

/-- The node stands for the stage, under a parent and with a link to the creation. -/
structure StandsFor (f : File) (parent : Nat) (t : Stage) (u : Tree) (c : Nat) : Prop where
  traceId : u.traceId? c = some (toString t.id)
  parent : u.parent? c = some parent
  link : u.link? c = some (linkTo f t.creation)

theorem StandsFor.grown {f : File} {parent c : Nat} {t : Stage} {u v : Tree}
    (h : StandsFor f parent t u c) (hgrown : u.Grown v) : StandsFor f parent t v c := by
  have hc := Tree.lt_size_of_parent? h.parent
  have hcore := hgrown.2 c hc
  refine ⟨?_, ?_, ?_⟩
  · rw [Tree.traceId?_eq_map_core?, hcore, ← Tree.traceId?_eq_map_core?]
    exact h.traceId
  · rw [Tree.parent?_eq_bind_core?, hcore, ← Tree.parent?_eq_bind_core?]
    exact h.parent
  · rw [Tree.link?_eq_bind_core?, hcore, ← Tree.link?_eq_bind_core?]
    exact h.link

section Machine
variable {s : Setting} (hs : s.Parsed)
include hs

/-- What is bound to a site of the scope is in sight of the last statement. -/
theorem meets_of_site {a : Activation} (ha : Coherent s a) {x : Site} (hx : x ∈ a.sites)
    {l : Piece} (hl : (pieces s a).getLast? = some l) :
    Scan.Meets ((a.fileOf s).range x.node) l.range := by
  obtain ⟨id, hpoint⟩ := ha.traced
  obtain ⟨b, hb, hholds⟩ := holds_of_kind? (hs.point hpoint).2
  rw [ha.sites] at hx
  obtain ⟨c, hc, hbelow, _⟩ := mem_scopeSites hx
  rw [pieces, List.getLast?_map] at hl
  obtain ⟨last, hlast, rfl⟩ := Option.map_eq_some_iff.mp hl
  refine meets_of_below_block (hs.laid _) (hs.shaped _) hb hholds ?_ hbelow hlast
  rw [scopeStatements, scopeBody?, show probeBlock? (a.fileOf s) _ _ = some b from hb] at hc
  exact (List.mem_filter.mp hc).1

section Stage
variable {m : Machine} {a b : Activation} {below : List Activation} {asked : Scan}
  (hstack : m.stack = a :: below) (hscan : a.scan.step a.cursor = .ask asked)
  {t : Stage} {ids : List Nat} (hrest : m.rest = t.id :: ids) {point : TracePoint}
  (hpoint : s.points.get? t.id = some point)
  (henter : a.enter? s point =
    some (viaCreation s (a.fileOf s) t.creation point.ref, b.holding t))

/-- The machine that has taken the stage: its child is open above the activation. -/
def taken (s : Setting) (m : Machine) (a b : Activation) (below : List Activation) (asked : Scan)
    (t : Stage) (ids : List Nat) (point : TracePoint) : Machine :=
  Machine.start s
    {m with stack := (b.holding t).rescan .unset asked a.markers a.ranges :: below} ids
    (b.holding t).index t.id point (viaCreation s (a.fileOf s) t.creation point.ref)

omit hs in
include hstack hscan hrest hpoint henter in
theorem moves_taken : Machine.Moves s m (taken s m a b below asked t ids point) := by
  have henter' : ({a with scan := asked}).enter? s point =
      some (viaCreation s (a.fileOf s) t.creation point.ref,
        (b.holding t).rescan a.cursor asked a.markers a.ranges) := by
    rw [show {a with scan := asked} = a.rescan a.cursor asked a.markers a.ranges from rfl,
      enter?_rescan, henter]
    rfl
  exact Machine.Moves.enter (s := s) hstack hscan hrest hpoint henter'

omit hs in
include henter in
theorem standsFor_taken :
    StandsFor (a.fileOf s) a.index t (taken s m a b below asked t ids point).tree m.tree.size := by
  obtain ⟨_, _, _, hrebound⟩ := rebound_enter? henter
  have hindex : (b.holding t).index = a.index := by rw [hrebound]
  refine ⟨(Tree.traceId?_push _).trans (if_pos rfl), ?_, (Tree.link?_push _).trans (if_pos rfl)⟩
  rw [← hindex]
  exact (Tree.parent?_push _).trans (if_pos rfl)

variable (m below) in
/-- When another step of a chain comes next, the child ends and the activation asks again. -/
theorem exists_asking_again (hscan : a.scan.step a.cursor = .ask asked) (ha : Coherent s a)
    (hpoint : s.points.get? t.id = some point) (hleaf : Leaf s point)
    (hsite : ∃ x ∈ a.sites, x.node = t.creation)
    (henter : a.enter? s point =
      some (viaCreation s (a.fileOf s) t.creation point.ref, b.holding t)) {id : Nat}
    {q : TracePoint} (hq : s.points.get? id = some q) (hkind : q.kind.binding = .creationSite)
    (ids : List Nat) :
    let n := taken s m a b below asked t (id :: ids) point
    ∃ k ∈ Machine.states s n, ∃ c asked', k.stack = c :: below ∧
      (∃ cursor scan markers ranges, c = (b.holding t).rescan cursor scan markers ranges) ∧
      c.scan.step c.cursor = .ask asked' ∧ k.rest = id :: ids ∧
      k.tree.outline = n.tree.outline := by
  intro n
  let marker := (a.fileOf s).range t.creation
  obtain ⟨k, hk, hstack, hrest, htree⟩ := exists_left (s := s) (m := n) rfl rfl hq
    (hleaf.enter?_eq_none hs hpoint m.tree.size
      (viaCreation s (a.fileOf s) t.creation point.ref) hq hkind)
  obtain ⟨_, _, _, hrebound⟩ := rebound_enter? henter
  obtain ⟨htodo, hne⟩ := Scan.todo_of_ask hscan
  obtain ⟨l, htodo', hlast⟩ := ahead_of_within (ha.within.ask hscan) (htodo ▸ hne)
  let c := (b.holding t).rescan (.child marker) asked (marker :: a.markers) a.ranges
  have hahead : Ahead s c c.cursor.place? := by
    refine ⟨l, htodo', ?_, fun place hplace => ?_⟩
    · have hpoint' : c.point = a.point := by
        have hsame := congrArg Activation.point hrebound
        exact hsame
      rw [← hlast]
      unfold pieces Plain.scope Activation.fileOf
      rw [hpoint']
    · cases hplace
      obtain ⟨x, hx, hnode⟩ := hsite
      rw [show marker = (a.fileOf s).range x.node by rw [hnode]]
      exact meets_of_site hs ha hx hlast
  obtain ⟨scan, ranges, asked', hmem, hasks⟩ := exists_asking (s := s) (a := c) hstack hahead nofun
  exact ⟨_, (Machine.run_of_mem_states hk).2 hmem, _, asked', rfl, ⟨_, _, _, _, rfl⟩, hasks, hrest,
    htree⟩

end Stage

/-- The machine takes one stage after the other. Behind each the innermost activation is a child
for it, and the frame below has the creation open whose chain goes on. -/
theorem exists_state_of_serves {ts : List Stage} {m : Machine} {a : Activation}
    {below : List Activation} {asked : Scan} (hall : ∀ x ∈ m.stack, Coherent s x)
    (hstack : m.stack = a :: below) (hscan : a.scan.step a.cursor = .ask asked)
    (hserves : Serves s a ts) {rest : List Nat} (hrest : m.rest = ts.map Stage.id ++ rest)
    {j : Nat} {t : Stage} (ht : ts[j]? = some t) :
    ∃ n ∈ Machine.states s m, StandsFor (a.fileOf s) a.index t n.tree (m.tree.size + j) ∧
      ∃ child held, n.stack = child :: held :: below ∧ child.index = m.tree.size + j ∧
        held.index = a.index ∧ held.openCreation = t.opened := by
  induction ts generalizing m a asked j with
  | nil => cases ht
  | cons t' ts ih =>
    cases hserves with
    | @cons _ b _ _ point hpoint hkind hleaf hsite henter hserves =>
      rw [List.map_cons, List.cons_append] at hrest
      have hmoves := moves_taken hstack hscan hrest hpoint henter
      have htaken := Machine.states_subset hmoves
      obtain ⟨_, _, _, hrebound⟩ := rebound_enter? henter
      have hindex : (b.holding t').index = a.index := by rw [hrebound]
      cases j with
      | zero =>
        cases ht
        exact ⟨_, htaken (Machine.mem_states_self _ _), standsFor_taken henter, _, _, rfl, rfl,
          hindex, rfl⟩
      | succ j =>
        rw [List.getElem?_cons_succ] at ht
        obtain ⟨next, ts', rfl⟩ := List.exists_cons_of_ne_nil (List.ne_nil_of_mem
          (List.mem_of_getElem? ht))
        obtain ⟨q, hq, hqkind⟩ : ∃ q, s.points.get? next.id = some q ∧
            q.kind.binding = .creationSite := by
          cases hserves with
          | cons hq hqkind _ _ _ _ => exact ⟨_, hq, hqkind⟩
        have ha := hall a (by rw [hstack]; exact List.mem_cons_self)
        obtain ⟨k, hk, c, asked', hstack', ⟨cursor, scan, markers, ranges, rfl⟩, hscan', hrest',
          htree⟩ := exists_asking_again hs m below hscan ha hpoint hleaf hsite
            henter hq hqkind (ts'.map Stage.id ++ rest)
        have hmem := htaken hk
        have hsize : k.tree.size = m.tree.size + 1 :=
          (Tree.size_eq_of_outline htree).trans (Tree.size_push _ _ _)
        obtain ⟨n, hn, hstands, hopen⟩ := ih
          (Machine.forall_states (fun _ _ hx hm => coherent_of_moves hm hx) hall k hmem) hstack'
          hscan' (hserves.rescan _ _ _ _) hrest' ht
        have hindex' : ((b.holding t').rescan cursor scan markers ranges).index = a.index := hindex
        have hfile : ((b.holding t').rescan cursor scan markers ranges).fileOf s = a.fileOf s := by
          rw [fileOf_rescan, hrebound]
          rfl
        rw [hindex', hfile, hsize, Nat.add_assoc, Nat.add_comm 1] at hstands
        refine ⟨n, (Machine.run_of_mem_states hmem).2 hn, hstands, ?_⟩
        rw [hindex', hsize, Nat.add_assoc, Nat.add_comm 1] at hopen
        exact hopen

end Machine

/-! ### Whole runs -/

theorem parsed_ofSources {sources : List (String × String)}
    (hsize : ∀ x ∈ sources, x.2.utf8ByteSize + 1 < Limit.word) :
    (Setting.ofSources sources).Parsed where
  laid r := laid_ofSources (inOrder_ofSources hsize) r.file
  shaped r := shaped_ofSources r.file
  fielded r := fielded_ofSources r.file
  named _ hk := (class_of_mem hk).2
  point hpoint :=
    have htraced := PointMap.traced_of_get? hpoint
    ⟨htraced.node_lt, htraced.kind⟩

/-- The innermost frame waits for what the creations report, and no creation is open. The code that
they run calls, creates and nests nothing. -/
structure Awaits (s : Setting) (m : Machine) (a : Activation) (below : List Activation)
    (runs : List Setup) (rest : List Nat) : Prop where
  stack : m.stack = a :: below
  asks : ∃ asked, a.scan.step a.cursor = .ask asked
  closed : a.openCreation = none
  evaluated : Evaluated s a.point a.consumed runs
  leaf : ∀ x ∈ runs, ∀ id ∈ x.ids, ∀ point, s.points.get? id = some point → Leaf s point
  next : m.rest = runs.flatMap Setup.ids ++ rest

/-- Creations that are executed one after the other in a frame get what they report: each id starts
a child of the frame that is linked to the creation. In between the creation is open, and behind
the last id of its chain none is. -/
theorem chains_bind_to_creations {sources : List (String × String)}
    (hsize : ∀ x ∈ sources, x.2.utf8ByteSize + 1 < Limit.word)
    (hdistinct : Distinct (.ofSources sources)) {tokens : List Nat} {m : Machine}
    (hm : m ∈ Machine.states (.ofSources sources) (Machine.ofTokens tokens)) {a : Activation}
    {below : List Activation} {runs : List Setup} {rest : List Nat}
    (hawaits : Awaits (.ofSources sources) m a below runs rest)
    (hruns : ∀ x ∈ runs, ∃ classes, x.Reports (.ofSources sources) a.point classes ∧
      Followed (.ofSources sources) classes) :
    let s := Setting.ofSources sources
    ∀ (j : Nat) (t : Stage), (stagesOf runs)[j]? = some t →
      (∃ n ∈ Machine.states s (Machine.ofTokens tokens), ∃ child held,
        n.stack = child :: held :: below ∧ child.index = m.tree.size + j ∧
        held.index = a.index ∧ held.openCreation = t.opened) ∧
      ∀ partially r, reconstruct s partially (Stream.ofTokens tokens) = .ok r →
        m.tree.size + j ∈ r.tree.children a.index ∧
        r.tree.traceId? (m.tree.size + j) = some (toString t.id) ∧
        r.tree.link? (m.tree.size + j) = some (linkTo (a.fileOf s) t.creation) := by
  intro s j t ht
  have hs : s.Parsed := parsed_ofSources hsize
  have hall : ∀ x ∈ m.stack, Coherent s x :=
    Machine.forall_states (fun _ _ hx hmoves => coherent_of_moves hmoves hx)
      (List.forall_mem_nil _) m hm
  have hsites : a.sites = scopeSites (s.file a.point.ref) a.point.ref.node a.point.kind :=
    (hall a (by rw [hawaits.stack]; exact List.mem_cons_self)).sites
  obtain ⟨asked, hscan⟩ := hawaits.asks
  have hserves : Serves s a (stagesOf runs) :=
    serves_of_runs hs hdistinct rfl hsites hawaits.closed hawaits.evaluated hruns hawaits.leaf
  have hrest : m.rest = (stagesOf runs).map Stage.id ++ rest := by
    rw [map_id_stagesOf, hawaits.next]
  obtain ⟨n, hn, hstands, child, held, hopen⟩ :=
    exists_state_of_serves hs hall hawaits.stack hscan hserves hrest ht
  have hmem := (Machine.run_of_mem_states hm).2 hn
  refine ⟨⟨n, hmem, child, held, hopen⟩, fun partially r hr => ?_⟩
  obtain ⟨k, hrun, htree, _⟩ := Machine.halts_of_reconstruct hr
  rw [show (Stream.ofTokens tokens).rest = tokens from rfl,
    (Machine.run_of_mem_states hmem).1] at hrun
  have hfinal := hstands.grown (Machine.grown_of_run hrun).1
  rw [← htree] at hfinal
  refine ⟨?_, hfinal.traceId, hfinal.link⟩
  rw [listed_of_reconstruct hr a.index, List.mem_filter, List.mem_range, beq_iff_eq]
  exact ⟨Tree.lt_size_of_parent? hfinal.parent, hfinal.parent⟩

/-- A frame that has just started waits for what all its creations report. -/
theorem exists_awaiting (s : Setting) (tokens : List Nat) (own : TracePoint) (runs : List Setup)
    (h : ((Machine.after s 1 (Machine.ofTokens tokens)).toOption.any fun m =>
        decide (m.stack.length = 1 ∧ m.rest = runs.flatMap Setup.ids ∧ m.tree.size = 2 ∧
          ∀ a ∈ m.stack, a.point = own ∧ a.openCreation = none ∧ a.consumed = [] ∧
            a.scan.step a.cursor = .ask ⟨a.scan.todo, .atGuards, a.scan.skip⟩ ∧ a.index = 1)) ∧
      runs.map Setup.site = scopeSites (s.file own.ref) own.ref.node own.kind ∧
      ∀ x ∈ runs, ∀ id ∈ x.ids, (s.points.get? id).all fun point =>
        decide (scopeSites (s.file point.ref) point.ref.node point.kind = [] ∧
          ∀ inner ∈ s.points.points.toList, inner.ref.file = point.ref.file →
            point.ref.node ∉ (s.file point.ref).ancestors inner.ref.node)) :
    ∃ m ∈ Machine.states s (Machine.ofTokens tokens), ∃ a, a.point = own ∧
      Awaits s m a [] runs [] ∧ m.tree.size = 2 ∧ a.index = 1 := by
  obtain ⟨hafter, hsites, hleaf⟩ := h
  obtain ⟨m, hm, hfacts⟩ := (Option.any_eq_true _ _).mp hafter
  obtain ⟨hlength, hrest, hsize, hall⟩ := of_decide_eq_true hfacts
  obtain ⟨a, hstack⟩ := List.length_eq_one_iff.mp hlength
  obtain ⟨hown, hclosed, hconsumed, hasks, hindex⟩ :=
    hall a (by rw [hstack]; exact List.mem_cons_self)
  have hstate : Machine.after s 1 (Machine.ofTokens tokens) = .ok m := by
    cases h : Machine.after s 1 (Machine.ofTokens tokens) with
    | error _ => rw [h] at hm; cases hm
    | ok n => rw [h] at hm; cases hm; rfl
  refine ⟨m, Machine.mem_states_of_after hstate, a, hown, ⟨hstack, ⟨_, hasks⟩, hclosed, ?_,
    fun x hx id hid point hpoint => ?_, ?_⟩, hsize, hindex⟩
  · rw [hconsumed, hown]
    exact evaluated_of_all hsites
  · have hpoint' := hleaf x hx id hid
    rw [hpoint] at hpoint'
    obtain ⟨hnone, hinner⟩ := of_decide_eq_true hpoint'
    exact ⟨hnone, fun h => hinner _ (PointMap.mem_of_get? h).val⟩
  · rw [hrest, List.append_nil]

/-- The first creation runs the initializer of the superclass, a constructor and another one that
delegates to it. The class of the second creation has no setup code. -/
theorem delegating_and_inherited_chain_bound :
    let sources := [("A.java", "class A{void m(){new C(1);new D();}}class B{{}}" ++
      "class C extends B{C(){}C(int x){this();}}class D extends C{}")]
    let s := Setting.ofSources sources
    ∃ r, reconstruct s true (Stream.ofTokens [1, 2, 3, 4, 2, 3]) = .ok r ∧
      (∀ c ∈ [2, 3, 4], c ∈ r.tree.children 1 ∧
        r.tree.link? c = some (linkTo (s.file ⟨0, 4⟩) 10)) ∧
      ∀ c ∈ [5, 6], c ∈ r.tree.children 1 ∧ r.tree.link? c = some (linkTo (s.file ⟨0, 4⟩) 15) := by
  intro sources s
  let own : TracePoint := ⟨⟨0, 4⟩, .method⟩
  let runs : List Setup := [⟨⟨10, false⟩, [2, 3, 4]⟩, ⟨⟨15, false⟩, [2, 3]⟩]
  obtain ⟨hdistinct, hknown, hruns⟩ : Distinct s ∧
      (∀ id ∈ [1, 2, 3, 4, 2, 3], (s.points.get? id).isSome) ∧
      ∀ x ∈ runs, ∃ classes, x.Reports s own classes ∧ Followed s classes := by
    have hfacts : Distinct s ∧ (∀ id ∈ [1, 2, 3, 4, 2, 3], (s.points.get? id).isSome) ∧
        (("B", ⟨0, 18⟩) ∈ s.classes ∧ s.superclassName? ⟨0, 18⟩ = none ∧
          initializersOf (s.file ⟨0, 18⟩) 18 = [21] ∧
          declaresConstructor (s.file ⟨0, 18⟩) 18 = false) ∧
        (("C", ⟨0, 22⟩) ∈ s.classes ∧ s.superclassName? ⟨0, 22⟩ = some "B" ∧
          initializersOf (s.file ⟨0, 22⟩) 22 = [] ∧
          constructorsOf (s.file ⟨0, 22⟩) 22 = [27, 31] ∧ HasArity (s.file ⟨0, 22⟩) 27 0 ∧
          delegates? (s.file ⟨0, 22⟩) 27 = none ∧ handedUp (s.file ⟨0, 22⟩) 27 = 0 ∧
          HasArity (s.file ⟨0, 22⟩) 31 1 ∧ delegates? (s.file ⟨0, 22⟩) 31 = some 0) ∧
        (("D", ⟨0, 41⟩) ∈ s.classes ∧ s.superclassName? ⟨0, 41⟩ = some "C" ∧
          initializersOf (s.file ⟨0, 41⟩) 41 = [] ∧
          declaresConstructor (s.file ⟨0, 41⟩) 41 = false) ∧
        (unit? s 2 = some ⟨0, 21⟩ ∧ unit? s 3 = some ⟨0, 27⟩ ∧ unit? s 4 = some ⟨0, 31⟩) ∧
        (⟨10, false⟩ ∈ scopeSites (s.file own.ref) own.ref.node own.kind ∧
          (s.file own.ref).form 10 = .objectCreationExpression ∧
          createdType? (s.file own.ref) 10 = some "C" ∧ argumentCount (s.file own.ref) 10 = 1) ∧
        (⟨15, false⟩ ∈ scopeSites (s.file own.ref) own.ref.node own.kind ∧
          (s.file own.ref).form 15 = .objectCreationExpression ∧
          createdType? (s.file own.ref) 15 = some "D" ∧ argumentCount (s.file own.ref) 15 = 0) ∧
        [⟨0, 22⟩, ⟨0, 18⟩].find? (HasSetup s) = some ⟨0, 22⟩ ∧
        [⟨0, 41⟩, ⟨0, 22⟩, ⟨0, 18⟩].find? (HasSetup s) = some ⟨0, 22⟩ := by
      decide +kernel
    obtain ⟨hdistinct, hknown, ⟨hclassB, hsuperB, hinitialB, hB⟩, ⟨hclassC, hsuperC, hinitialC, hC,
      harity, houtright, hup, harity', hdelegates⟩, ⟨hclassD, hsuperD, hinitialD, hD⟩, ⟨h2, h3, h4⟩,
      ⟨hsite, hform, htype, hcount⟩, ⟨hsite', hform', htype', hcount'⟩, hnearest, hnearest'⟩ :=
      hfacts
    clear_value s
    have hlineage : Lineage s "C" [⟨0, 22⟩, ⟨0, 18⟩] :=
      .under hclassC hsuperC (.top hclassB hsuperB)
    have hlineage' : Lineage s "D" [⟨0, 41⟩, ⟨0, 22⟩, ⟨0, 18⟩] := .under hclassD hsuperD hlineage
    have hsetsB : SetsUp s [⟨0, 18⟩] 0 ([] ++ ([2] ++ [])) :=
      .under (.implicit hB) (.outside 0) (by
        rw [hinitialB, List.map_singleton, List.map_singleton, h2])
    have hfirst : Constructs s ⟨0, 22⟩ 0 [3] (handedUp (s.file ⟨0, 22⟩) 27) :=
      .outright (by rw [hC]; decide) harity h3 houtright
    rw [hup] at hfirst
    have hsetsC : ∀ {n ids}, Constructs s ⟨0, 22⟩ n ids 0 →
        SetsUp s [⟨0, 22⟩, ⟨0, 18⟩] n ([2] ++ ([] ++ ids)) :=
      fun h => .under h hsetsB (by rw [hinitialC]; rfl)
    have hsetsD : SetsUp s [⟨0, 41⟩, ⟨0, 22⟩, ⟨0, 18⟩] 0 ([2, 3] ++ ([] ++ [])) :=
      .under (.implicit hD) (hsetsC hfirst) (by rw [hinitialD]; rfl)
    have hreports : Setup.Reports s own ⟨⟨10, false⟩, [2, 3, 4]⟩ [⟨0, 22⟩, ⟨0, 18⟩] := by
      refine ⟨⟨"C", ⟨⟨_, hsite, rfl⟩, hform, htype⟩, hlineage⟩, ?_⟩
      rw [hcount]
      exact hsetsC (.delegating (by rw [hC]; decide) harity' h4 hdelegates hfirst)
    have hreports' : Setup.Reports s own ⟨⟨15, false⟩, [2, 3]⟩ [⟨0, 41⟩, ⟨0, 22⟩, ⟨0, 18⟩] := by
      refine ⟨⟨"D", ⟨⟨_, hsite', rfl⟩, hform', htype'⟩, hlineage'⟩, ?_⟩
      rw [hcount']
      exact hsetsD
    have hfollowed : Followed s [⟨0, 22⟩, ⟨0, 18⟩] :=
      ⟨by decide, fun c hc hne => absurd (hnearest.symm.trans hc) hne⟩
    have hfollowed' : Followed s [⟨0, 41⟩, ⟨0, 22⟩, ⟨0, 18⟩] := by
      refine ⟨by decide, fun c hc _ k hk hzero => ?_⟩
      obtain rfl := Option.some.inj (hnearest'.symm.trans hc)
      rw [hC, List.mem_pair] at hk
      rcases hk with rfl | rfl
      · exact houtright
      · exact absurd (hzero.1.symm.trans harity'.1) (by decide)
    exact ⟨hdistinct, hknown, List.forall_mem_cons.mpr ⟨⟨_, hreports, hfollowed⟩,
      List.forall_mem_singleton.mpr ⟨_, hreports', hfollowed'⟩⟩⟩
  obtain ⟨k, hrun⟩ := run_ok (m := Machine.ofTokens [1, 2, 3, 4, 2, 3])
    fun id hid => Option.isSome_iff_exists.mp (hknown id hid)
  have hok := Machine.reconstruct_of_run hrun
  obtain ⟨m, hm, a, hown, hawaits, hroot, hindex⟩ :=
    exists_awaiting s [1, 2, 3, 4, 2, 3] own runs (by decide +kernel)
  have hbound : ∀ (j : Nat) (t : Stage), (stagesOf runs)[j]? = some t →
      2 + j ∈ k.tree.children 1 ∧
        k.tree.link? (2 + j) = some (linkTo (s.file ⟨0, 4⟩) t.creation) := by
    intro j t ht
    obtain ⟨hchild, _, hlink⟩ := (chains_bind_to_creations (by decide) hdistinct hm hawaits
      (hown ▸ hruns) j t ht).2 true _ hok
    rw [hroot, hindex] at hchild
    rw [hroot, show a.fileOf s = s.file ⟨0, 4⟩ by rw [Activation.fileOf, hown]] at hlink
    exact ⟨hchild, hlink⟩
  refine ⟨_, hok, List.forall_mem_cons.mpr ⟨hbound 0 _ rfl, ?_⟩,
    List.forall_mem_cons.mpr ⟨hbound 3 _ rfl, ?_⟩⟩
  · exact List.forall_mem_cons.mpr ⟨hbound 1 _ rfl, List.forall_mem_singleton.mpr (hbound 2 _ rfl)⟩
  · exact List.forall_mem_singleton.mpr (hbound 4 _ rfl)

/-- The constructor that `B()` delegates to is taken for the end of the first chain, and `B()` for
the beginning of the second one. -/
theorem inherited_delegation_splits_chain :
    let s := Setting.ofSources [("A.java",
      "class A{void m(){new C();new C();}}class B{B(){this(1);}B(int x){}}class C extends B{}")]
    let runs : List Setup := [⟨⟨10, false⟩, [3, 2]⟩, ⟨⟨14, false⟩, [3, 2]⟩]
    Distinct s ∧ ∃ m ∈ Machine.states s (Machine.ofTokens [1, 3, 2, 3, 2]), ∃ a,
      Awaits s m a [] runs [] ∧
      (∀ x ∈ runs, ∃ classes, x.Reports s a.point classes ∧ classes.length ≤ 64) ∧
      ∃ r, reconstruct s false (Stream.ofTokens [1, 3, 2, 3, 2]) = .ok r ∧
        (stagesOf runs)[1]? = some ⟨2, 10, true⟩ ∧
        r.tree.link? (m.tree.size + 1) ≠ some (linkTo (a.fileOf s) 10) := by
  intro s runs
  let own : TracePoint := ⟨⟨0, 4⟩, .method⟩
  obtain ⟨hdistinct, hreports⟩ : Distinct s ∧
      ∀ x ∈ runs, ∃ classes, x.Reports s own classes ∧ classes.length ≤ 64 := by
    have hfacts : Distinct s ∧
        (("B", ⟨0, 17⟩) ∈ s.classes ∧ s.superclassName? ⟨0, 17⟩ = none ∧
          initializersOf (s.file ⟨0, 17⟩) 17 = [] ∧
          constructorsOf (s.file ⟨0, 17⟩) 17 = [20, 28] ∧ HasArity (s.file ⟨0, 17⟩) 28 1 ∧
          delegates? (s.file ⟨0, 17⟩) 28 = none ∧ HasArity (s.file ⟨0, 17⟩) 20 0 ∧
          delegates? (s.file ⟨0, 17⟩) 20 = some 1) ∧
        (("C", ⟨0, 35⟩) ∈ s.classes ∧ s.superclassName? ⟨0, 35⟩ = some "B" ∧
          initializersOf (s.file ⟨0, 35⟩) 35 = [] ∧
          declaresConstructor (s.file ⟨0, 35⟩) 35 = false) ∧
        (unit? s 2 = some ⟨0, 20⟩ ∧ unit? s 3 = some ⟨0, 28⟩) ∧
        ∀ x ∈ runs, x.ids = [3, 2] ∧
          x.site ∈ scopeSites (s.file own.ref) own.ref.node own.kind ∧
          (s.file own.ref).form x.site.node = .objectCreationExpression ∧
          createdType? (s.file own.ref) x.site.node = some "C" ∧
          argumentCount (s.file own.ref) x.site.node = 0 := by
      decide +kernel
    obtain ⟨hdistinct, ⟨hclassB, hsuperB, hinitialB, hB, harity, houtright, harity', hdelegates⟩,
      ⟨hclassC, hsuperC, hinitialC, hC⟩, ⟨h2, h3⟩, hcreations⟩ := hfacts
    clear_value s
    refine ⟨hdistinct, fun x hx => ?_⟩
    obtain ⟨hids, hsite, hform, htype, hcount⟩ := hcreations x hx
    refine ⟨[⟨0, 35⟩, ⟨0, 17⟩], ⟨⟨"C", ⟨⟨_, hsite, rfl⟩, hform, htype⟩,
      .under hclassC hsuperC (.top hclassB hsuperB)⟩, ?_⟩, by decide⟩
    have hsetsB : SetsUp s [⟨0, 17⟩] 0 ([] ++ ([] ++ ([3] ++ [2]))) :=
      .under (.delegating (by rw [hB]; decide) harity' h2 hdelegates
        (.outright (by rw [hB]; decide) harity h3 houtright)) (.outside _) (by rw [hinitialB]; rfl)
    have hsetsC : SetsUp s [⟨0, 35⟩, ⟨0, 17⟩] 0 ([3, 2] ++ ([] ++ [])) :=
      .under (.implicit hC) hsetsB (by rw [hinitialC]; rfl)
    rw [hids, hcount]
    exact hsetsC
  have hrun : (Machine.outcome? s 200 [1, 3, 2, 3, 2]).any fun r => r.unconsumed = 0 ∧
      r.tree.link? 3 ≠ some (linkTo (s.file own.ref) 10) := by
    decide +kernel
  obtain ⟨r, hok, hconsumed, hlink⟩ := Machine.exists_reconstruct hrun
  obtain ⟨m, hm, a, hown, hawaits, hroot, _⟩ :=
    exists_awaiting s [1, 3, 2, 3, 2] own runs (by decide +kernel)
  refine ⟨hdistinct, m, hm, a, hawaits, hown ▸ hreports, r,
    Machine.reconstruct_wholly hok hconsumed, rfl, ?_⟩
  rw [hroot, show a.fileOf s = s.file own.ref by rw [Activation.fileOf, hown]]
  exact hlink

end Retrace.Reconstruct
