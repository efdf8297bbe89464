import Retrace.Proofs.Reconstruct.Entries
import Retrace.Proofs.Reconstruct.Record

/-! What becomes of own ranges.

An activation takes only parts of its scope for its own, and a part either contains the place of a
child or lies apart from it. A part that contains the place of a child is not added once the child
is known, and a range is dropped only for a greater one. So from the start of a child on, the own
ranges of its parent that reach into its place stay the same (`Keeps`), up to the end of the run
(`kept_of_run`). -/
namespace Retrace.Reconstruct
open Java Source Instrument Trace

namespace Activation

/-- What a scan can take for the activation's own, or what runs at the end of a `for` loop. -/
def IsPart (s : Setting) (a : Activation) (r : Range) : Prop :=
  (∃ q ∈ pieces s a, r ∈ q.range :: q.guards) ∨
    r ∈ ((a.fileOf s).childrenUnder a.point.ref.node .update).map (a.fileOf s).range

theorem part_or_apart {p : Project} (h : ∀ n, (p.file n).Laid) (hs : ∀ n, (p.file n).Shaped)
    {a : Activation} (ha : Coherent (.traced p) a) {z : Nat} (hz : Spot p a.point z) {r : Range}
    (hr : IsPart (.traced p) a r) :
    r.contains ((p.file a.point.ref.file).range z) = true ∨
      r.Apart ((p.file a.point.ref.file).range z) := by
  obtain ⟨id, hid⟩ := ha.traced
  have htraced := PointMap.traced_of_get? hid
  obtain ⟨b, hb, hholds⟩ := holds_of_kind? htraced.kind
  have hinside := hz.inside h hs htraced hb hholds
  rcases hr with ⟨q, hq, hr⟩ | hr
  · obtain ⟨c, hc, rfl⟩ := List.mem_map.mp hq
    have hchild : c ∈ (p.file a.point.ref.file).children b := by
      unfold Plain.scope scopeStatements scopeBody? at hc
      rw [show probeBlock? (a.fileOf (.traced p)) _ _ = some b from hb] at hc
      exact (List.mem_filter.mp hc).1
    rcases List.mem_cons.mp hr with rfl | hr
    · rcases hinside.statement (h _) hholds hchild with hbelow | hapart
      · exact .inl ((h _).contains_of_below hbelow)
      · exact .inr hapart
    · obtain ⟨hform, hguard⟩ := guard_of_mem (h _) (hs _) hr
      exact hinside.guard (h _) hholds hchild hform hguard
  · obtain ⟨c, hc, rfl⟩ := List.mem_map.mp hr
    exact hinside.clause (h _) ((h _).child_of_childrenUnder hc)

/-- A new range does not change what reaches into the place of a child. -/
theorem mem_addRange {a : Activation} {r k : Range} (hk : k ∈ a.markers)
    (hr : r.contains k = true ∨ r.Apart k) {q : Range} (hq : q.overlaps k = true) :
    q ∈ (a.addRange r).ranges ↔ q ∈ a.ranges := by
  unfold addRange
  split
  · rfl
  · rename_i hmarkers
    have hapart : r.Apart k := by
      refine hr.resolve_left fun hcontains => hmarkers ?_
      exact List.any_eq_true.mpr ⟨k, hk, hcontains⟩
    have hnot : r.contains q = false := by
      rw [← Bool.not_eq_true]
      intro hcontains
      rw [Range.overlaps_eq_false_iff.mpr (hapart.mono hcontains (Range.contains_refl k))] at hq
      cases hq
    have hne : q ≠ r := by
      rintro rfl
      rw [Range.contains_refl] at hnot
      cases hnot
    split
    · rfl
    · simp [hnot, hne]

theorem markers_addRange (a : Activation) (r : Range) : (a.addRange r).markers = a.markers := by
  obtain ⟨_, hadd⟩ := addRange_eq a r
  rw [hadd]

theorem mem_addRanges {a : Activation} {k : Range} (hk : k ∈ a.markers) {rs : List Range}
    (hrs : ∀ r ∈ rs, r.contains k = true ∨ r.Apart k) {q : Range} (hq : q.overlaps k = true) :
    q ∈ (rs.foldl addRange a).ranges ↔ q ∈ a.ranges := by
  induction rs generalizing a with
  | nil => rfl
  | cons r rs ih =>
    have hk' : k ∈ (a.addRange r).markers := by
      rw [markers_addRange]
      exact hk
    rw [List.foldl_cons, ih hk' fun r' hr' => hrs r' (List.mem_cons_of_mem r hr')]
    exact mem_addRange hk (hrs r List.mem_cons_self) hq

end Activation

namespace Machine
open Activation

/-- Since a child of the activation was started, what reaches into its place has stayed the same.
`open?` is the place of the child that is running. -/
def Keeps (past : List Machine) (open? : Option Range) (c : Activation) : Prop :=
  ∀ x, Known past x → x.parent.index = c.index → x.parent.point = c.point ∧
    ∀ k, x.entrance.marker? = some k → (k ∈ c.markers ∨ open? = some k) ∧
      ∀ q, q.overlaps k = true → (q ∈ c.ranges ↔ q ∈ x.parent.ranges)

def Keeping (past : List Machine) : Option Range → List Activation → Prop
  | _, [] => True
  | open?, c :: below => Keeps past open? c ∧ Keeping past c.entrance.marker? below

/-- The node of an activation that has ended keeps its ranges. -/
def Closed (past : List Machine) (m : Machine) : Prop :=
  ∀ x, Known past x → x.parent.index ∉ m.indices → ∀ k, x.entrance.marker? = some k →
    ∀ q, q.overlaps k = true → (q ∈ m.tree.ranges x.parent.index ↔ q ∈ x.parent.ranges)

structure Kept (s : Setting) (tokens : List Nat) (past : List Machine) (m : Machine) : Prop
    extends Recorded s tokens past m where
  keeping : Keeping past none m.stack
  closed : Closed past m
  bare : m.tree.ranges 0 = []

section Keeps
variable {past past' : List Machine}

theorem Keeps.mono {open? : Option Range} {c : Activation}
    (hpast : ∀ x, Known past' x → x.parent.index = c.index → Known past x)
    (h : Keeps past open? c) : Keeps past' open? c :=
  fun x hx hindex => h x (hpast x hx hindex) hindex

/-- Other entries may be about other activations. -/
theorem Keeping.mono {open? : Option Range} {stack : List Activation}
    (hpast : ∀ x, Known past' x → ∀ c ∈ stack, x.parent.index = c.index → Known past x)
    (h : Keeping past open? stack) : Keeping past' open? stack := by
  induction stack generalizing open? with
  | nil => trivial
  | cons c below ih =>
    exact ⟨h.1.mono fun x hx => hpast x hx c List.mem_cons_self,
      ih (fun x hx d hd => hpast x hx d (List.mem_cons_of_mem c hd)) h.2⟩

/-- Own ranges are parts, so they change nothing. -/
theorem Keeps.addRanges {c : Activation} (h : Keeps past none c) {rs : List Range}
    (hrs : ∀ r ∈ rs, ∀ x, Known past x → x.parent.index = c.index → ∀ k,
      x.entrance.marker? = some k → r.contains k = true ∨ r.Apart k) :
    Keeps past none (rs.foldl addRange c) := by
  have hsame : (rs.foldl addRange c).index = c.index ∧ (rs.foldl addRange c).point = c.point ∧
      (rs.foldl addRange c).markers = c.markers := by
    obtain ⟨_, hadd⟩ := foldl_addRange_eq rs c
    rw [hadd]
    exact ⟨rfl, rfl, rfl⟩
  intro x hx hindex
  rw [hsame.1] at hindex
  rw [hsame.2.1, hsame.2.2]
  obtain ⟨hpoint, hkeeps⟩ := h x hx hindex
  refine ⟨hpoint, fun k hk => ?_⟩
  obtain ⟨hmarker, hranges⟩ := hkeeps k hk
  refine ⟨hmarker, fun q hq => ?_⟩
  have hmem : k ∈ c.markers := hmarker.resolve_right fun hnone => nomatch hnone
  rw [mem_addRanges hmem (fun r hr => hrs r hr x hx hindex k hk) hq]
  exact hranges q hq

/-- Where a child has run, its place is a marker. -/
theorem Keeps.resume {c : Activation} {e : Entrance} (h : Keeps past e.marker? c) :
    Keeps past none (c.resume e) := by
  have hmarkers : ∀ k, k ∈ c.markers ∨ e.marker? = some k → k ∈ (c.resume e).markers := by
    intro k hk
    have hheader : (c.releaseHeader e.header?).markers = c.markers := by
      cases e.header? <;> rfl
    unfold Activation.resume
    cases hmarker : e.marker? with
    | none =>
      rw [hmarker] at hk
      rw [← hheader] at hk
      exact hk.resolve_right fun hnone => nomatch hnone
    | some marker =>
      rw [hmarker] at hk
      rw [← hheader] at hk
      rcases hk with hk | hk
      · exact List.mem_cons_of_mem _ hk
      · cases hk
        exact List.mem_cons_self
  intro x hx hindex
  obtain ⟨_, _, _, hresume⟩ := resume_eq c e
  have hranges : (c.resume e).ranges = c.ranges := by rw [hresume]
  have hpoint : (c.resume e).point = c.point := by rw [hresume]
  have hindex' : x.parent.index = c.index := by rw [hindex, hresume]
  obtain ⟨hsame, hkeeps⟩ := h x hx hindex'
  refine ⟨hsame.trans hpoint.symm, fun k hk => ?_⟩
  rw [hranges]
  obtain ⟨hmarker, hkept⟩ := hkeeps k hk
  exact ⟨.inl (hmarkers k hmarker), hkept⟩

end Keeps

/-! ### One move -/

theorem addOwn_eq_foldl (a : Activation) (own : Option Range) :
    a.addOwn own = own.toList.foldl addRange a := by
  cases own <;> rfl

theorem finish_eq_foldl (s : Setting) (a : Activation) :
    ∃ rs : List Range, a.finish s = rs.foldl addRange a ∧ ∀ r ∈ rs, IsPart s a r := by
  unfold finish
  split
  · exact ⟨_, rfl, fun r hr => .inr hr⟩
  · exact ⟨[], rfl, fun r hr => nomatch hr⟩

theorem isPart_of_go {s : Setting} {a : Activation} (ha : Coherent s a) {scan : Scan}
    {own : Option Range} (hscan : a.scan.step a.cursor = .go scan own) :
    ∀ r ∈ own.toList, IsPart s a r := by
  intro r hr
  cases own with
  | none => cases hr
  | some r' =>
    rw [List.mem_singleton.mp hr]
    exact .inl (Scan.own_of_go ha.within hscan)

section Kept
variable {s : Setting} {tokens : List Nat} {past : List Machine} {m n : Machine}

/-- A move of the innermost activation alone. -/
theorem Kept.innermost (hm : Kept s tokens past m) {a b : Activation}
    {below : List Activation} (hstack : m.stack = a :: below) (hindex : b.index = a.index)
    (hpoint : b.point = a.point) (hentrance : b.entrance = a.entrance)
    (hkeeps : Keeps past none b)
    (hmoves : Moves s m {m with stack := b :: below}) :
    Kept s tokens ({m with stack := b :: below} :: past) {m with stack := b :: below} := by
  have hkeeping := hm.keeping
  rw [hstack] at hkeeping
  have hknown : ∀ x, Known ({m with stack := b :: below} :: past) x → Known past x :=
    fun x hx => hm.known_of_subset (entries_innermost hstack hindex hentrance) hx
  refine ⟨hm.toRecorded.innermost hstack hindex hpoint hentrance hmoves, ⟨?_, ?_⟩,
    fun x hx hnot => ?_, hm.bare⟩
  · exact hkeeps.mono fun x hx _ => hknown x hx
  · rw [hentrance]
    exact hkeeping.2.mono fun x hx _ _ _ => hknown x hx
  · refine hm.closed x (hknown x hx) ?_
    rw [indices_eq hstack, ← hindex]
    exact hnot

theorem Kept.root (hm : Kept s tokens past m) {id : Nat} {rest : List Nat}
    {point : TracePoint} (hstack : m.stack = []) (hmore : m.more = true)
    (hrest : m.rest = id :: rest) (hpoint : s.points.get? id = some point) :
    let n := {Machine.start s m rest 0 id point .root with
      more := point.kind == .staticInitializer}
    Kept s tokens (n :: past) n := by
  intro n
  have hrecorded := hm.toRecorded.root hstack hmore hrest hpoint
  have hnstack : n.stack =
      Activation.start (s.file point.ref) m.tree.size point .root :: [] := by
    rw [← hstack]
    rfl
  have hknown : ∀ x, Known (n :: past) x → Known past x := by
    intro x hx
    rw [known_cons] at hx
    refine hx.resolve_left ?_
    unfold entries
    rw [hnstack]
    exact List.not_mem_nil
  refine ⟨hrecorded, ?_, fun x hx _ => ?_, (Tree.ranges_push rfl 0).trans hm.bare⟩
  · rw [hnstack]
    refine ⟨fun x hx hindex => ?_, trivial⟩
    have hlt := hm.lt_size (hknown x hx)
    exact absurd hindex (Nat.ne_of_lt (Nat.lt_trans hlt.1 hlt.2))
  · rw [show n.tree.ranges x.parent.index = m.tree.ranges x.parent.index from
      Tree.ranges_push rfl _]
    refine hm.closed x (hknown x hx) ?_
    rw [indices, hstack]
    exact List.not_mem_nil

theorem Kept.enter (hm : Kept s tokens past m) {a b : Activation}
    {below : List Activation} {scan : Scan} {id : Nat} {rest : List Nat} {point : TracePoint}
    {e : Entrance} (hstack : m.stack = a :: below)
    (hscan : a.scan.step a.cursor = .ask scan) (hrest : m.rest = id :: rest)
    (hpoint : s.points.get? id = some point)
    (henter : ({a with scan := scan}).enter? s point = some (e, b)) :
    let n := Machine.start s {m with stack := {b with cursor := .unset} :: below} rest
      b.index id point e
    Kept s tokens (n :: past) n := by
  intro n
  obtain ⟨hrecorded, hentries⟩ := hm.toRecorded.enter hstack hscan hrest hpoint henter
  have hkeeping := hm.keeping
  rw [hstack] at hkeeping
  have hdescending : (a.index :: below.map Activation.index).Pairwise (· > ·) := by
    obtain ⟨_, _, hplaced⟩ := hm.placed
    rw [← indices_eq hstack]
    exact hplaced.descending
  have hsize := (hm.index_lt (by rw [hstack]; exact List.mem_cons_self)).2
  have hb : b.index = a.index ∧ b.point = a.point ∧ b.entrance = a.entrance ∧
      b.markers = a.markers ∧ b.ranges = a.ranges := by
    obtain ⟨_, _, _, rfl⟩ := rebound_enter? henter
    exact ⟨rfl, rfl, rfl, rfl, rfl⟩
  have hknown : ∀ x, Known (n :: past) x →
      x = ⟨m.tree.size, e, {b with cursor := .unset}⟩ ∨ Known past x := by
    intro x hx
    rw [known_cons, hentries, List.mem_cons, or_assoc] at hx
    exact hx.imp_right fun hx => hx.elim (fun hx => ⟨m, hm.latest, hx⟩) fun hx => hx
  have hbelow : Keeping past b.entrance.marker? below := by
    rw [hb.2.2.1]
    exact hkeeping.2
  refine ⟨hrecorded, ⟨fun x hx hindex => ?_, fun x hx hindex => ?_, hbelow.mono ?_⟩,
    fun x hx hnot k hk q hq => ?_, (Tree.ranges_push rfl 0).trans hm.bare⟩
  · have hlt : _ ∧ x.child < n.tree.size := hrecorded.lt_size hx
    have hsize' : n.tree.size = m.tree.size + 1 := size_start ..
    have hstart : x.parent.index = m.tree.size := hindex
    omega
  · rcases hknown x hx with rfl | hx
    · exact ⟨rfl, fun k hk => ⟨.inr hk, fun q _ => Iff.rfl⟩⟩
    · obtain ⟨hsame, hkeeps⟩ := hkeeping.1 x hx (hindex.trans hb.1)
      refine ⟨hsame.trans hb.2.1.symm, fun k hk => ?_⟩
      obtain ⟨hmarker, hranges⟩ := hkeeps k hk
      have hmem : k ∈ a.markers := hmarker.resolve_right fun hnone => nomatch hnone
      rw [← hb.2.2.2.1] at hmem
      rw [← hb.2.2.2.2] at hranges
      exact ⟨.inl hmem, hranges⟩
  · intro x hx c hc hindex
    refine (hknown x hx).resolve_left ?_
    rintro rfl
    have hlt := (List.pairwise_cons.mp hdescending).1 c.index (List.mem_map_of_mem hc)
    exact absurd (hb.1.symm.trans hindex) (Nat.ne_of_gt hlt)
  · rw [show n.tree.ranges x.parent.index = m.tree.ranges x.parent.index from
      Tree.ranges_push rfl _]
    have hindices : n.indices = m.tree.size :: m.indices := by
      rw [indices_eq hstack, ← hb.1]
      rfl
    rw [hindices] at hnot
    rcases hknown x hx with rfl | hx
    · refine absurd (List.mem_cons_of_mem _ ?_) hnot
      rw [indices_eq hstack, ← hb.1]
      exact List.mem_cons_self
    · exact hm.closed x hx (fun hmem => hnot (List.mem_cons_of_mem _ hmem)) k hk q hq

end Kept

section Parts
variable {p : Project} (h : ∀ n, (p.file n).Laid) (hs : ∀ n, (p.file n).Shaped)
  {tokens : List Nat} {past : List Machine} {m n : Machine}
include h

/-- The place of a child that a marker stands for is a node's. -/
theorem Recorded.spot (hm : Recorded (.traced p) tokens past m) {x : Entry} (hx : Known past x)
    {k : Range} (hk : x.entrance.marker? = some k) :
    ∃ z, Spot p x.parent.point z ∧ k = (p.file x.parent.point.ref.file).range z := by
  obtain ⟨point, ⟨id, _, hid⟩, a, b, ha, hpoint, henter⟩ := (hm.borne x hx).child
  rw [← hpoint]
  exact spot_of_enter? h ha hid henter hk

include hs

/-- Each part of an activation contains the place of a child of it or lies apart from it. -/
theorem Kept.parts (hm : Kept (.traced p) tokens past m) {a : Activation} {below : List Activation}
    (hstack : m.stack = a :: below) {r : Range} (hr : IsPart (.traced p) a r) {x : Entry}
    (hx : Known past x) (hindex : x.parent.index = a.index) {k : Range}
    (hk : x.entrance.marker? = some k) : r.contains k = true ∨ r.Apart k := by
  have hkeeping := hm.keeping
  rw [hstack] at hkeeping
  obtain ⟨hpoint, _⟩ := hkeeping.1 x hx hindex
  obtain ⟨z, hz, rfl⟩ := hm.spot h hx hk
  have ha := hm.coherent a (by rw [hstack]; exact List.mem_cons_self)
  rw [hpoint] at hz ⊢
  exact part_or_apart h hs ha hz hr

theorem Kept.close (hm : Kept (.traced p) tokens past m) {a : Activation}
    {below : List Activation} (hstack : m.stack = a :: below)
    (hscan : a.scan.step a.cursor = .done) :
    let n := Machine.close (.traced p) m a below
    Kept (.traced p) tokens (n :: past) n := by
  have hrecorded := hm.toRecorded.close hstack hscan
  have hentries : (Machine.close (.traced p) m a below).entries ⊆ m.entries :=
    entries_close hstack
  have hkeeping := hm.keeping
  rw [hstack] at hkeeping
  obtain ⟨hpos, hsize⟩ := hm.index_lt (by rw [hstack]; exact List.mem_cons_self)
  have hindices : m.indices = a.index :: below.map Activation.index := indices_eq hstack
  rw [close_eq] at hrecorded hentries ⊢
  intro n
  have hknown : ∀ x, Known (n :: past) x → Known past x :=
    fun x hx => hm.known_of_subset hentries hx
  refine ⟨hrecorded, ?_, fun x hx hnot k hk q hq => ?_, ?_⟩
  · cases below with
    | nil => trivial
    | cons b below =>
      obtain ⟨_, hb, hbelow⟩ := hkeeping
      obtain ⟨_, _, _, hresume⟩ := resume_eq b a.entrance
      refine ⟨hb.resume.mono fun x hx _ => hknown x hx, ?_⟩
      rw [hresume]
      exact hbelow.mono fun x hx _ _ _ => hknown x hx
  · rw [show n.tree.ranges x.parent.index = _ from Tree.ranges_setRanges hsize _ _]
    have hx' := hknown x hx
    split
    · rename_i heq
      obtain ⟨rs, hfinish, hrs⟩ := finish_eq_foldl (.traced p) a
      have hparts := hkeeping.1.addRanges fun r hr x hx hindex k hk =>
        hm.parts h hs hstack (hrs r hr) hx hindex hk
      rw [← hfinish] at hparts
      obtain ⟨_, hfinished⟩ := finish_eq (.traced p) a
      have hindex : (a.finish (.traced p)).index = a.index := by rw [hfinished]
      exact ((hparts x hx' (heq.trans hindex.symm)).2 k hk).2 q hq
    · rename_i hne
      refine hm.closed x hx' (fun hmem => ?_) k hk q hq
      rw [hindices] at hmem
      refine (List.mem_cons.mp hmem).elim hne fun hmem => hnot ?_
      rw [show n.indices = _ from indices_uncovered a.entrance below]
      exact hmem
  · rw [show n.tree.ranges 0 = _ from Tree.ranges_setRanges hsize _ _,
      if_neg (Nat.ne_of_lt hpos)]
    exact hm.bare

theorem kept_of_moves (hm : Kept (.traced p) tokens past m) (hmoves : Moves (.traced p) m n) :
    Kept (.traced p) tokens (n :: past) n := by
  have hkeeping := hm.keeping
  have hmoves' := hmoves
  cases hmoves with
  | root hstack hmore hrest hpoint => exact hm.root hstack hmore hrest hpoint
  | close hstack hscan => exact hm.close h hs hstack hscan
  | @go a below scan own hstack hscan =>
    rw [hstack] at hkeeping
    have ha := hm.coherent a (by rw [hstack]; exact List.mem_cons_self)
    obtain ⟨_, hown⟩ := addOwn_eq {a with scan := scan} own
    refine hm.innermost hstack (by rw [hown]) (by rw [hown]) (by rw [hown]) ?_ hmoves'
    have hkeeps : Keeps past none {a with scan := scan} := hkeeping.1
    rw [addOwn_eq_foldl]
    exact hkeeps.addRanges fun r hr x hx hindex k hk =>
      hm.parts h hs hstack (isPart_of_go ha hscan r hr) hx hindex hk
  | ended hstack hscan hrest =>
    rw [hstack] at hkeeping
    exact hm.innermost hstack rfl rfl rfl hkeeping.1 hmoves'
  | refuse hstack hscan hrest hpoint henter =>
    rw [hstack] at hkeeping
    exact hm.innermost hstack rfl rfl rfl hkeeping.1 hmoves'
  | enter hstack hscan hrest hpoint henter => exact hm.enter hstack hscan hrest hpoint henter

/-- At the end of a run every node has kept what reached into the places of its children when they
were started. -/
theorem kept_of_run {k : Machine} (hrun : run (.traced p) (ofTokens tokens) = .ok k) :
    Kept (.traced p) tokens (states (.traced p) (ofTokens tokens)).reverse k ∧ k.indices = [] := by
  have hnone : ∀ x, ¬Known [ofTokens tokens] x := by
    rintro x ⟨m, hm, hx⟩
    rw [List.mem_singleton.mp hm] at hx
    cases hx
  have hstart : Kept (.traced p) tokens [ofTokens tokens] (ofTokens tokens) :=
    ⟨recorded_ofTokens _ tokens, trivial, fun x hx => absurd hx (hnone x), rfl⟩
  obtain ⟨hk, hhalt⟩ := run_keeps_past (fun past m n hm hmoves => kept_of_moves h hs hm hmoves)
    hstart hrun
  refine ⟨?_, by rw [indices, (step_eq_none hhalt).1]; rfl⟩
  rw [List.append_nil] at hk
  exact hk

end Parts

end Machine

end Retrace.Reconstruct
