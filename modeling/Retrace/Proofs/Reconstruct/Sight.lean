import Mathlib.Data.Fintype.Defs
import Retrace.Proofs.Reconstruct.Agreement
import Retrace.Proofs.Reconstruct.Entries

/-! Which children are in sight of the last statement.

The place of a child is never split by a part of its parent, so a child that the last statement
does not meet is met by none (`decided_of_laid`). Everything that stands below a trace point stands
inside of the last statement of its scope or in front of it, except for the condition of a `do`
loop (`meets_of_below`). So all children are in sight as long as nothing in such a condition can be
entered (`Setting.Calm`), and then the plain machine goes back to no activation that the scan has
left (`revisits_eq_false`). -/
namespace Retrace.Reconstruct
open Java Source Instrument Activation

/-! ### Below a trace point -/

section Scope
variable {f : File} (h : f.Laid) (hs : f.Shaped)
include h hs

/-- What stands below a statement of a block, or below the call of another constructor in front of
them, is in sight of the last statement. -/
theorem meets_of_below_block {i x c last : Nat} {kind : PointKind} {b : Nat}
    (hb : probeBlock? f i kind = some b) (hholds : Holds f i kind b) (hc : c ∈ f.children b)
    (hx : f.Below c x)
    (hlast : (scopeStatements f i kind).getLast? = some last) :
    Scan.Meets (f.range x) (f.range last) := by
  have hscope : scopeStatements f i kind =
      (f.children b).filter fun c => f.form c != .explicitConstructorInvocation := by
    unfold scopeStatements scopeBody?
    rw [hb]
  have hinside : (f.range c).contains (f.range x) = true := h.contains_of_below hx
  have hmem : last ∈ (f.children b).filter fun c =>
      f.form c != .explicitConstructorInvocation := by
    rw [← hscope]
    exact List.mem_of_getLast? hlast
  have hbefore : c = last ∨ (f.range c).Before (f.range last) := by
    cases hform : f.form c != .explicitConstructorInvocation with
    | true =>
      rw [hscope] at hlast
      exact h.before_last List.filter_sublist hlast (List.mem_filter.mpr ⟨hc, hform⟩)
    | false =>
      have hhead := hs.invocation (hholds.form hs) hc (by simpa using hform)
      rcases h.before_of_head hhead (List.mem_filter.mp hmem).1 with heq | hafter
      · exact .inl heq.symm
      · exact .inr hafter
  rcases hbefore with rfl | hbefore
  · exact .inl hinside
  · exact .inr (hbefore.mono hinside (Range.contains_refl _))

/-- The condition of a `do` loop is the one part of a trace point that is out of sight. -/
theorem meets_of_below {i x b last : Nat} {kind : PointKind} (hb : probeBlock? f i kind = some b)
    (hholds : Holds f i kind b) (hx : f.Below i x) (hne : x ≠ i) (hbody : x ≠ b)
    (hdo : ∀ c, f.form i = .doStatement → f.child? i .condition = some c → ¬f.Below c x)
    (hlast : (scopeStatements f i kind).getLast? = some last) :
    Scan.Meets (f.range x) (f.range last) := by
  rcases hx.cases with rfl | ⟨c, hc, hcx⟩
  · exact absurd rfl hne
  have hinside : f.Below b x → Scan.Meets (f.range x) (f.range last) := by
    intro hbx
    rcases hbx.cases with rfl | ⟨d, hd, hdx⟩
    · exact absurd rfl hbody
    · exact meets_of_below_block h hs hb hholds hd hdx hlast
  have hlastBelow : f.Below b last := by
    have hmem := List.mem_of_getLast? hlast
    unfold scopeStatements scopeBody? at hmem
    rw [hb] at hmem
    exact File.below_child (List.mem_filter.mp hmem).1
  have hfront : (f.range c).Before (f.range b) → Scan.Meets (f.range x) (f.range last) :=
    fun hcb => .inr (hcb.mono (h.contains_of_below hcx) (h.contains_of_below hlastBelow))
  have hends : File.endsWithBody (f.form i) = true → f.child? i .body = some b →
      Scan.Meets (f.range x) (f.range last) := by
    intro hform hchild
    rcases h.before_last (List.Sublist.refl _) (hs.body hform hchild) hc with rfl | hcb
    · exact hinside hcx
    · exact hfront hcb
  cases hholds with
  | itself hform hknown => exact meets_of_below_block h hs hb (.itself hform hknown) hc hcx hlast
  | initializer hform hchild _ =>
    obtain ⟨d, hd⟩ := hs.initializer hform
    rw [hd] at hc hchild
    rw [List.mem_singleton.mp hc, ← List.mem_singleton.mp hchild] at hcx
    exact hinside hcx
  | method hform hchild _ => exact hends (by rw [hform]; rfl) hchild
  | constructor hform hchild => exact hends (by rw [hform]; rfl) hchild
  | loop hform hchild _ =>
    by_cases hround : f.form i = .doStatement
    · obtain ⟨condition, hcondition, hchildren⟩ := hs.round hround hchild
      rw [hchildren] at hc
      rcases List.mem_cons.mp hc with rfl | hc
      · exact hinside hcx
      · rw [List.mem_singleton.mp hc] at hcx
        exact absurd hcx (hdo condition hround hcondition)
    · refine hends ?_ hchild
      unfold PointKind.ofLoop? at hform
      split at hform
      · rename_i heq; rw [heq]; rfl
      · rename_i heq; rw [heq]; rfl
      · rename_i heq; rw [heq]; rfl
      · rename_i heq; exact absurd heq hround
      · cases hform

end Scope

/-! ### What can be entered -/

/-- Nothing in the condition of a `do` loop can be entered: neither a trace point nor a call that
the creation of an object evaluates. -/
def Setting.Calm (s : Setting) : Prop :=
  ∀ point ∈ s.points.points.toList, point.kind = .doWhileLoop →
    let f := s.file point.ref
    ∀ c ∈ (f.child? point.ref.node .condition).toList,
      (∀ inner ∈ s.points.points.toList, inner.ref.file = point.ref.file →
        c ∉ inner.ref.node :: f.ancestors inner.ref.node) ∧
      ∀ k ∈ s.classes, k.2.file = point.ref.file → ∀ e ∈ setupExpressions f k.2.node,
        ∀ x ∈ sitesWithin f false e, calledName? f x.node ≠ none →
          c ∉ x.node :: f.ancestors x.node

instance (s : Setting) : Decidable s.Calm := by
  unfold Setting.Calm
  infer_instance

section Sight
variable {p : Project} (h : ∀ n, (p.file n).Laid) (hs : ∀ n, (p.file n).Shaped)
include h hs

theorem decided_of_laid : (Setting.traced p).Decided := by
  intro a b id point e ha hid he hbeyond k hk
  obtain ⟨z, hz, rfl⟩ := spot_of_enter? h ha hid he hk
  obtain ⟨own, hown⟩ := ha.traced
  have htraced := PointMap.traced_of_get? hown
  obtain ⟨body, hbody, hholds⟩ := holds_of_kind? htraced.kind
  have hinside := hz.inside h hs htraced hbody hholds
  have hproper := hinside.proper (h _) htraced.node_lt
  obtain ⟨k, hk', l, hlast, hmiss⟩ := beyond_iff.mp hbeyond
  rw [hk] at hk'
  cases hk'
  obtain ⟨last, hscope, rfl⟩ : ∃ last, (Plain.scope (.traced p) a).getLast? = some last ∧
      Activation.piece (a.fileOf (.traced p)) last = l := by
    unfold Activation.pieces at hlast
    rw [List.getLast?_map] at hlast
    exact Option.map_eq_some_iff.mp hlast
  have hstatements : Plain.scope (.traced p) a =
      ((p.file a.point.ref.file).children body).filter fun c =>
        (p.file a.point.ref.file).form c != .explicitConstructorInvocation := by
    unfold Plain.scope scopeStatements scopeBody?
    rw [show probeBlock? (a.fileOf (.traced p)) _ _ = some body from hbody]
    rfl
  have hmissed : ∀ c ∈ Plain.scope (.traced p) a,
      ¬Scan.Meets ((p.file a.point.ref.file).range z) ((p.file a.point.ref.file).range c) := by
    intro c hc hmeets
    refine hmiss ?_
    rw [hstatements] at hc hscope
    rcases (h _).before_last List.filter_sublist hscope hc with rfl | hbefore
    · exact hmeets
    · have hc' := (h a.point.ref.file).proper_child (List.mem_filter.mp hc).1
      rcases hmeets with hcontains | hfront
      · exact .inr (hbefore.mono hcontains (Range.contains_refl _))
      · exact .inr (Range.Before.trans hfront hc' hbefore)
  intro q hq r hr hmeets
  obtain ⟨c, hc, rfl⟩ := List.mem_map.mp hq
  rcases List.mem_cons.mp hr with rfl | hr
  · exact hmissed c hc hmeets
  · have hchild : c ∈ (p.file a.point.ref.file).children body := by
      rw [hstatements] at hc
      exact (List.mem_filter.mp hc).1
    obtain ⟨hpart, hguard⟩ := (guard_of_mem (h _) (hs _) hr).2.part (h _)
    rcases hmeets with hcontains | hfront
    · exact hmissed c hc (.inl (Range.contains_trans hpart hcontains))
    · rcases hinside.statement (h _) hholds hchild with hbelow | hbehind | hbefore
      · exact hmissed c hc (.inl ((h _).contains_of_below hbelow))
      · have hback := hbehind.mono hpart (Range.contains_refl _)
        exact Range.Before.asymm hguard hproper hback hfront
      · exact hmissed c hc (.inr hbefore)

/-- The place of a child is in sight. -/
theorem Spot.meets (hcalm : (Setting.traced p).Calm) {own : TracePoint}
    (hknown : ∃ id, (Setting.traced p).points.get? id = some own) {z : Nat} (hz : Spot p own z)
    {last : Nat}
    (hlast : (scopeStatements (p.file own.ref.file) own.ref.node own.kind).getLast? = some last) :
    Scan.Meets ((p.file own.ref.file).range z) ((p.file own.ref.file).range last) := by
  obtain ⟨id, hid⟩ := hknown
  have htraced := PointMap.traced_of_get? hid
  obtain ⟨b, hb, hholds⟩ := holds_of_kind? htraced.kind
  have hinside := hz.inside h hs htraced hb hholds
  have hquiet : ∀ c, (p.file own.ref.file).form own.ref.node = .doStatement →
      (p.file own.ref.file).child? own.ref.node .condition = some c → _ :=
    fun c hform hcondition => hcalm own (PointMap.mem_of_get? hid).val
      (kind_of_doStatement hform htraced.kind) c (Option.mem_toList.mpr hcondition)
  cases hz with
  | @site c x hc hbelow hform =>
    have hchild : c ∈ (p.file own.ref.file).children b := by
      unfold scopeStatements scopeBody? at hc
      rw [hb] at hc
      exact (List.mem_filter.mp hc).1
    exact meets_of_below_block (h _) (hs _) hb hholds hchild hbelow hlast
  | @setup k e x hk hfile he hx hname hbelow =>
    refine meets_of_below (h _) (hs _) hb hholds hbelow hinside.ne hinside.ne_block ?_ hlast
    exact fun c hform hcondition hcx =>
      (hquiet c hform hcondition).2 k hk hfile e he x hx hname ((h _).mem_ancestors hcx)
  | @unit inner hinner hfile hbelow hne hloop =>
    obtain ⟨id', hid'⟩ := hinner
    refine meets_of_below (h _) (hs _) hb hholds hbelow hne hinside.ne_block ?_ hlast
    exact fun c hform hcondition hcx =>
      (hquiet c hform hcondition).1 inner (PointMap.mem_of_get? hid').val hfile
        ((h _).mem_ancestors hcx)
  | @body inner _ hinner hfile hbelow hne hbody hblock =>
    obtain ⟨id', hid'⟩ := hinner
    have hkind := (PointMap.traced_of_get? hid').kind
    rw [hfile] at hkind
    have hblocked : inner.ref.node ≠ b := by
      rintro rfl
      rw [hholds.kind?_eq_none (h _).toLinked (hs _) hne] at hkind
      cases hkind
    refine (meets_of_below (h _) (hs _) hb hholds hbelow hne hblocked ?_ hlast).part
      ((h _).nested ((h _).child_of_child? hbody))
    exact fun c hform hcondition hcx =>
      (hquiet c hform hcondition).1 inner (PointMap.mem_of_get? hid').val hfile
        ((h _).mem_ancestors hcx)

theorem beyond_of_calm (hcalm : (Setting.traced p).Calm) {a b : Activation} {id : Nat}
    {point : TracePoint} {e : Entrance} (ha : Coherent (.traced p) a)
    (hid : (Setting.traced p).points.get? id = some point)
    (he : a.enter? (.traced p) point = some (e, b)) : Plain.beyond (.traced p) b e = false := by
  have hsame : Plain.beyond (.traced p) b e = Plain.beyond (.traced p) a e := by
    obtain ⟨_, _, _, rfl⟩ := Activation.rebound_enter? he
    rfl
  rw [hsame, ← Bool.not_eq_true, beyond_iff]
  rintro ⟨k, hk, l, hlast, hmiss⟩
  obtain ⟨z, hz, rfl⟩ := spot_of_enter? h ha hid he hk
  unfold Activation.pieces at hlast
  rw [List.getLast?_map] at hlast
  obtain ⟨last, hscope, rfl⟩ := Option.map_eq_some_iff.mp hlast
  exact hmiss (hz.meets h hs hcalm ha.traced hscope)

end Sight

/-! ### Runs of the plain machine -/

theorem coherent_of_taker? {s : Setting} {point : TracePoint} {stack : List Activation}
    (hstack : ∀ a ∈ stack, Coherent s a) {freed : Option Range} {e : Entrance}
    {b : Activation} {below : List Activation}
    (h : Plain.taker? s point freed stack = some (e, b, below)) :
    (∃ a, Coherent s a ∧ a.enter? s point = some (e, b)) ∧
      ∀ c ∈ below, Coherent s c := by
  induction stack generalizing freed with
  | nil => cases h
  | cons a rest ih =>
    have ha := (hstack a List.mem_cons_self).releaseHeader freed
    have hrest : ∀ c ∈ rest, Coherent s c :=
      fun c hc => hstack c (List.mem_cons_of_mem a hc)
    rw [Plain.taker?] at h
    split at h
    · rename_i e' b' hentered
      cases h
      split at hentered
      · cases hentered
      · exact ⟨⟨_, ha, hentered⟩, hrest⟩
    · exact ih hrest h

/-- When every child is in sight, no activation is left with the next token. -/
theorem coherent_of_take? {s : Setting}
    (hsight : ∀ {a b : Activation} {id : Nat} {point : TracePoint} {e : Entrance},
      Coherent s a → s.points.get? id = some point → a.enter? s point = some (e, b) →
      Plain.beyond s b e = false) {p q : Plain} (hp : ∀ a ∈ p.stack, Coherent s a) {id : Nat}
    {point : TracePoint} (hpoint : s.points.get? id = some point)
    (hq : Plain.take? s p id point = some q) :
    (∀ a ∈ q.stack, Coherent s a) ∧ Plain.leave s [] q = [] := by
  have hstart : ∀ e, Coherent s (start (s.file point.ref) p.tree.size point e).plain :=
    fun e => (coherent_start hpoint p.tree.size e).plain
  unfold Plain.take? at hq
  split at hq
  · rename_i e b below htaker
    cases hq
    obtain ⟨⟨a, ha, hentered⟩, hbelow⟩ := coherent_of_taker? hp htaker
    have hb : Plain.beyond s b e = false := hsight ha hpoint hentered
    refine ⟨fun c hc => ?_, if_neg (by rw [Bool.not_eq_true]; exact hb)⟩
    rcases List.mem_cons.mp hc with rfl | hc
    · exact hstart e
    rcases List.mem_cons.mp hc with rfl | hc
    · exact ha.enter? hentered
    · exact hbelow c hc
  · split at hq
    · cases hq
      refine ⟨fun c hc => ?_, rfl⟩
      rw [List.mem_singleton.mp hc]
      exact hstart .root
    · cases hq

theorem revisits_eq_false {s : Setting}
    (hsight : ∀ {a b : Activation} {id : Nat} {point : TracePoint} {e : Entrance},
      Coherent s a → s.points.get? id = some point → a.enter? s point = some (e, b) →
      Plain.beyond s b e = false) (tokens : List Nat) {p : Plain}
    (hp : ∀ a ∈ p.stack, Coherent s a) : Plain.revisits s [] p tokens = false := by
  induction tokens generalizing p with
  | nil => rfl
  | cons id rest ih =>
    cases hpoint : s.points.get? id with
    | none => exact Plain.revisits_unknown hpoint _ _ _
    | some point =>
      rw [Plain.revisits_cons hpoint]
      cases hq : Plain.take? s p id point with
      | none => rfl
      | some q =>
        obtain ⟨hcoherent, hleave⟩ := coherent_of_take? hsight hp hpoint hq
        have hreturns : Plain.returns [] q = false := by
          unfold Plain.returns
          split <;> rfl
        simp only [hleave, hreturns, ih hcoherent, Bool.or_false]

end Retrace.Reconstruct
