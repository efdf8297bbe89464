import Retrace.Proofs.Instrument.TracePoints
import Retrace.Proofs.Source.Offsets

/-! Trace points and their blocks.

A probe stands directly in the block of its trace point, not in a block further inside
(`directlyIn_of_placement`). As blocks lie inside of one another or apart, no offset is directly in
two of them, and as a block belongs to one trace point (`node_of_block`), no two probes of a file go
to the same offset (`placements_inj`). Conversely every block that is reached is that of a trace
point (`exists_placement_of_block`). -/
namespace Retrace.Instrument
open Java Source

/-- The block of a trace point begins with a brace, behind which its probe stands unless a call of
another constructor comes first. -/
theorem probeOffset_cases {f : File} {x : Placement} (h : x ∈ placements f) :
    ∃ b, Holds f x.node x.kind b ∧ probeBlock? f x.node x.kind = some b ∧
      (delegation? f x.node x.kind = none ∧ x.offset = (f.node b).start + 1 ∨
        ∃ call ∈ f.children b, delegation? f x.node x.kind = some call ∧
          x.offset = (f.node call).stop) := by
  obtain ⟨i, _, hx⟩ := List.mem_filterMap.mp h
  unfold placement? at hx
  split at hx
  · cases hx
  · obtain ⟨kind, hkind, hx⟩ := Option.bind_eq_some_iff.mp hx
    obtain ⟨offset, hoffset, rfl⟩ := Option.map_eq_some_iff.mp hx
    obtain ⟨b, hblock, hholds⟩ := holds_of_kind? hkind
    refine ⟨b, hholds, hblock, ?_⟩
    dsimp only
    unfold probeOffset? at hoffset
    split at hoffset
    · rename_i call hcall
      refine .inr ⟨call, ?_, hcall, (Option.some.inj hoffset).symm⟩
      unfold delegation? at hcall
      split at hcall
      · rename_i hconstructor
        obtain ⟨body, hbody, hfind⟩ := Option.bind_eq_some_iff.mp hcall
        rw [beq_iff_eq.mp hconstructor] at hblock
        cases hbody.symm.trans hblock
        exact List.mem_of_find?_eq_some hfind
      · cases hcall
    · rename_i hnone
      rw [hblock] at hoffset
      exact .inl ⟨hnone, (Option.some.inj hoffset).symm⟩

theorem Holds.fenced {f : File} (hs : f.Shaped) {i b : Nat} {kind : PointKind}
    (hb : Holds f i kind b) : fenced (f.form b) = true := by
  rcases hb.form hs with hform | hform <;> rw [hform] <;> rfl

/-! ### Offsets of probes -/

/-- The offset is inside of the node, but inside of none of its children. -/
structure DirectlyIn (f : File) (b offset : Nat) : Prop where
  inside : (f.node b).start < offset ∧ offset < (f.node b).stop
  outside : ∀ c ∈ f.children b, offset ≤ (f.node c).start ∨ (f.node c).stop ≤ offset

section File
variable {f : File} (hl : f.Linked) (hs : f.Shaped) (hin : f.InText) (hbraces : f.InBraces)

section DirectlyIn
variable {b b' offset : Nat} (h : DirectlyIn f b offset) (h' : DirectlyIn f b' offset)
include hin h h'

theorem DirectlyIn.eq_of_below (hbelow : f.Below b b') : b = b' := by
  rcases hbelow.cases with heq | ⟨c, hc, hbelow⟩
  · exact heq
  · have hspan := hin.below hbelow
    have hinside := h'.inside
    rcases h.outside c hc with hout | hout <;> omega

include hl in
theorem DirectlyIn.unique (hb : b < f.nodes.size) (hb' : b' < f.nodes.size) : b = b' := by
  rcases hin.below_or_apart hl hb hb' with hbelow | hbelow | hapart
  · exact h.eq_of_below hin h' hbelow
  · exact (h'.eq_of_below hin h hbelow).symm
  · have hleft := h.inside
    have hright := h'.inside
    rcases hapart with hapart | hapart <;> omega

end DirectlyIn

include hs hin hbraces in
/-- A probe stands directly in the block of its trace point. -/
theorem directlyIn_of_placement {x : Placement} (h : x ∈ placements f) :
    ∃ b, Holds f x.node x.kind b ∧ DirectlyIn f b x.offset := by
  obtain ⟨b, hholds, _, hoffset⟩ := probeOffset_cases h
  have hfenced := hholds.fenced hs
  refine ⟨b, hholds, ?_⟩
  rcases hoffset with ⟨_, hoffset⟩ | ⟨call, hcall, _, hoffset⟩
  · have hlt := hbraces.lt hfenced
    rw [hoffset]
    exact ⟨⟨Nat.lt_succ_self _, hlt⟩, fun c hc => .inl (hbraces.around hfenced hc).1⟩
  · obtain ⟨hstart, hstop⟩ := hbraces.around hfenced hcall
    have hle := hin.le call
    rw [hoffset]
    refine ⟨⟨by omega, hstop⟩, fun c hc => ?_⟩
    by_cases hne : c = call
    · rw [hne]
      exact .inr (Nat.le_refl _)
    · rcases hin.siblings hc hcall hne with hapart | hapart
      · exact .inr (by omega)
      · exact .inl hapart

/-! ### Blocks -/

include hl hs in
/-- A block belongs to one trace point. -/
theorem node_of_block {i j b : Nat} {kind kind' : PointKind} (hi : Holds f i kind b)
    (hj : Holds f j kind' b) (hkind : kind? f i = some kind) (hkind' : kind? f j = some kind') :
    i = j := by
  by_cases hbi : b = i
  · by_cases hbj : b = j
    · exact hbi.symm.trans hbj
    · rw [← hbi, hj.kind?_eq_none hl hs hbj] at hkind
      cases hkind
  · by_cases hbj : b = j
    · rw [← hbj, hi.kind?_eq_none hl hs hbi] at hkind'
      cases hkind'
    · have hparent := hl.parents.mpr ((hi.child hl).resolve_left hbi)
      have hparent' := hl.parents.mpr ((hj.child hl).resolve_left hbj)
      exact Option.some.inj (hparent.symm.trans hparent')

include hl hs in
theorem placement_of_block {x y : Placement} (hx : x ∈ placements f) (hy : y ∈ placements f)
    {b : Nat} (hbx : Holds f x.node x.kind b) (hby : Holds f y.node y.kind b) :
    x.node = y.node :=
  node_of_block hl hs hbx hby (mem_placements hx).2.1 (mem_placements hy).2.1

include hl hs hin hbraces in
/-- No two probes of a file go to the same offset. -/
theorem placements_inj {x y : Placement} (hx : x ∈ placements f) (hy : y ∈ placements f)
    (hoffset : x.offset = y.offset) : x.node = y.node := by
  obtain ⟨b, hbx, hdx⟩ := directlyIn_of_placement hs hin hbraces hx
  obtain ⟨b', hby, hdy⟩ := directlyIn_of_placement hs hin hbraces hy
  rw [hoffset] at hdx
  have hlt := hl.lt_size_of_below (hbx.below hl) (mem_placements hx).1
  have hlt' := hl.lt_size_of_below (hby.below hl) (mem_placements hy).1
  obtain rfl := hdx.unique hl hin hdy hlt hlt'
  exact placement_of_block hl hs hx hy hbx hby

end File

/-- Placements follow the order of the nodes. -/
theorem pairwise_placements (f : File) :
    (placements f).Pairwise fun x y => x.node < y.node := by
  refine List.Pairwise.filterMap (placement? f) ?_ List.pairwise_lt_range
  intro i j hij x hx y hy
  have hnode : ∀ {n : Nat} {z : Placement}, placement? f n = some z → z.node = n := by
    intro n z hz
    unfold placement? at hz
    split at hz
    · cases hz
    · obtain ⟨_, _, hz⟩ := Option.bind_eq_some_iff.mp hz
      obtain ⟨_, _, rfl⟩ := Option.map_eq_some_iff.mp hz
      rfl
  rw [hnode hx, hnode hy]
  exact hij

/-- A trace point that is no constructor reports behind the brace of its block. -/
theorem mem_placements_of_kind {f : File} {i b : Nat} {kind : PointKind} (hi : i < f.nodes.size)
    (hkind : kind? f i = some kind) (hreached : inUntraced f i = false)
    (hblock : probeBlock? f i kind = some b) (hne : kind ≠ .constructor) :
    ⟨i, kind, (f.node b).start + 1⟩ ∈ placements f := by
  refine List.mem_filterMap.mpr ⟨i, List.mem_range.mpr hi, ?_⟩
  have hdelegation : delegation? f i kind = none := by
    unfold delegation?
    rw [if_neg (by simpa using hne)]
  have hoffset : probeOffset? f i kind = some ((f.node b).start + 1) := by
    unfold probeOffset?
    rw [hdelegation, hblock]
    rfl
  unfold placement?
  rw [hreached, hkind]
  show (probeOffset? f i kind).map _ = _
  rw [hoffset]
  rfl

theorem ofLoop?_of_isLoop {form : Form} (h : form.isLoop = true) :
    ∃ kind, PointKind.ofLoop? form = some kind ∧ kind ≠ .constructor ∧
      (File.endsWithBody form = true ∨ form = .doStatement) := by
  unfold Form.isLoop at h
  split at h
  · exact ⟨.forLoop, rfl, by decide, .inl rfl⟩
  · exact ⟨.forEachLoop, rfl, by decide, .inl rfl⟩
  · exact ⟨.whileLoop, rfl, by decide, .inl rfl⟩
  · exact ⟨.doWhileLoop, rfl, by decide, .inr rfl⟩
  · cases h

theorem kind?_of_ofLoop? {f : File} {i : Nat} {kind : PointKind}
    (h : PointKind.ofLoop? (f.form i) = some kind) :
    kind? f i = (blockBody? f i).map fun _ => kind := by
  unfold kind?
  split
  · rename_i hform
    rw [hform] at h
    cases h
  · rename_i hform
    rw [hform] at h
    cases h
  · rename_i hform
    rw [hform] at h
    cases h
  · rename_i hform
    rw [hform] at h
    cases h
  · rw [h]
    rfl

section Reached
variable {f : File} (hl : f.Linked)
include hl

/-- What is not kept from being traced, is inside of nothing that is. -/
theorem inUntraced_parent {i c : Nat} (hc : c ∈ f.children i) (h : inUntraced f c = false) :
    inUntraced f i = false := by
  unfold inUntraced at h ⊢
  rw [hl.ancestors_child hc, List.any_cons] at h
  exact (Bool.or_eq_false_iff.mp h).2

theorem kind?_of_blockKind? {b : Nat} {kind : PointKind} (hform : f.form b = .block)
    (h : blockKind? f b = some kind) : kind? f b = some kind ∧ kind ≠ .constructor := by
  refine ⟨?_, fun hconstructor => ?_⟩
  · unfold kind?
    rw [hform]
    exact h
  · have hbody := probeBlock?_of_blockKind? h
    rw [hconstructor] at hbody
    exact absurd (hl.bounds (hl.child_of_child? hbody)).1 (Nat.lt_irrefl b)

theorem mem_fields_of_slot? {p b : Nat} {slot : Field} (hb : b ∈ f.children p)
    (h : f.slot? b = some slot) : (slot, b) ∈ (f.node p).fields := by
  unfold File.slot? at h
  rw [hl.parents.mpr hb] at h
  obtain ⟨e, he, hslot⟩ := Option.map_eq_some_iff.mp h
  have hnumber : e.2 = b := by simpa using List.find?_some he
  rw [← hslot, ← hnumber]
  exact List.mem_of_find?_eq_some he

/-- A block that is no trace point is the body of one. -/
theorem kind?_of_body (hs : f.Shaped) (hone : f.OneBody) {p b : Nat} (hb : b ∈ f.children p)
    (hform : f.form b = .block) (h : blockKind? f b = none) :
    ∃ kind, kind? f p = some kind ∧ probeBlock? f p kind = some b ∧ kind ≠ .constructor := by
  have hblockBody : f.child? p .body = some b → blockBody? f p = some b := by
    intro hbody
    unfold blockBody?
    rw [hbody]
    simp [hform]
  unfold blockKind? at h
  rw [hl.parents.mpr hb] at h
  dsimp only at h
  split at h
  · rename_i hmethod
    obtain ⟨hp, hslot⟩ := Bool.and_eq_true_iff.mp hmethod
    replace hp : f.form p = .methodDeclaration := beq_iff_eq.mp hp
    have hbody := hone (.inl (by rw [hp]; rfl)) (mem_fields_of_slot? hl hb (beq_iff_eq.mp hslot))
    refine ⟨.method, ?_, hbody, by decide⟩
    unfold kind?
    rw [hp, hblockBody hbody]
    rfl
  · split at h
    · rename_i hp
      replace hp : f.form p = .staticInitializer := beq_iff_eq.mp hp
      obtain ⟨b', hchildren⟩ := hs.initializer hp
      obtain rfl : b = b' := by
        rw [hchildren] at hb
        exact List.mem_singleton.mp hb
      have hchild : blockChild? f p = some b := by
        unfold blockChild?
        rw [hchildren]
        simp [hform]
      refine ⟨.staticInitializer, ?_, hchild, by decide⟩
      unfold kind?
      rw [hp, hchild]
      rfl
    · split at h
      · cases h
      · split at h
        · rename_i hloop
          obtain ⟨hp, hslot⟩ := Bool.and_eq_true_iff.mp hloop
          obtain ⟨kind, hkind, hne, hends⟩ := ofLoop?_of_isLoop hp
          have hbody := hone hends (mem_fields_of_slot? hl hb (beq_iff_eq.mp hslot))
          refine ⟨kind, ?_, (probeBlock?_ofLoop? hkind).trans hbody, hne⟩
          rw [kind?_of_ofLoop? hkind, hblockBody hbody]
          rfl
        · split at h <;> cases h

/-- Each block that is reached has its trace point, which reports behind the brace. -/
theorem exists_placement_of_block (hs : f.Shaped) (hone : f.OneBody) {b : Nat} (hpos : 0 < b)
    (hb : b < f.nodes.size) (hform : f.form b = .block) (hreached : inUntraced f b = false) :
    ∃ x ∈ placements f, probeBlock? f x.node x.kind = some b ∧ Holds f x.node x.kind b ∧
      x.kind ≠ .constructor ∧ x.offset = (f.node b).start + 1 := by
  obtain ⟨p, hp⟩ := hl.rooted hpos hb
  obtain ⟨i, kind, hi, hkind, hblock, hne, hreached⟩ : ∃ i kind, i < f.nodes.size ∧
      kind? f i = some kind ∧ probeBlock? f i kind = some b ∧ kind ≠ .constructor ∧
        inUntraced f i = false := by
    cases h : blockKind? f b with
    | some kind =>
      obtain ⟨hkind, hne⟩ := kind?_of_blockKind? hl hform h
      exact ⟨b, kind, hb, hkind, probeBlock?_of_blockKind? h, hne, hreached⟩
    | none =>
      obtain ⟨kind, hkind, hblock, hne⟩ := kind?_of_body hl hs hone hp hform h
      exact ⟨p, kind, Nat.lt_trans (hl.bounds hp).1 hb, hkind, hblock, hne,
        inUntraced_parent hl hp hreached⟩
  obtain ⟨b', hblock', hholds⟩ := holds_of_kind? hkind
  cases hblock.symm.trans hblock'
  exact ⟨_, mem_placements_of_kind hi hkind hreached hblock hne, hblock, hholds, hne, rfl⟩

end Reached

end Retrace.Instrument
