import Retrace.Proofs.Reconstruct.Record
import Retrace.Proofs.Reconstruct.Sight

/-! Who is given a block that is entered.

A trace does not say when an activation ends, and no activation remembers the blocks that it has
entered. A block, a branch or a round goes to the innermost open activation that has it in its
code: going up from the node before it, to the first one that encloses it
(`parent_of_nested_iff`). So an activation is given a block as often as the trace names it, as long
as no later one is open that encloses it too. `branch_given_to_inner_call` shows what this makes of
a method that calls itself between two branches: the branch that the outer call takes behind the
inner one is given to the inner one. -/
namespace Retrace.Trace.Tree

/-- Going up from `i`, `x` is the first node that `P` holds of. -/
inductive Nearest (t : Tree) (P : Nat → Prop) : Nat → Nat → Prop
  | here {i : Nat} (hi : P i) : Nearest t P i i
  | above {i p x : Nat} (hi : ¬P i) (hparent : t.parent? i = some p) (hx : Nearest t P p x) :
    Nearest t P i x

/-- Parents come before their children. -/
def Earlier (t : Tree) : Prop := ∀ c p, t.parent? c = some p → p < c

section Nearest
variable {t : Tree} {P : Nat → Prop} {i x : Nat}

theorem Earlier.le_of_above (h : t.Earlier) {a b : Nat} (hab : t.Above a b) : a ≤ b := by
  induction hab with
  | refl => exact Nat.le_refl a
  | tail _ hc ih => exact Nat.le_trans ih (Nat.le_of_lt (h _ _ hc))

theorem Nearest.unique {y : Nat} (hx : t.Nearest P i x) (hy : t.Nearest P i y) : x = y := by
  induction hx with
  | here hi =>
    cases hy with
    | here _ => rfl
    | above hnot _ _ => exact absurd hi hnot
  | above hnot hparent _ ih =>
    cases hy with
    | here hi => exact absurd hi hnot
    | above _ hparent' hy =>
      rw [hparent] at hparent'
      cases hparent'
      exact ih hy

theorem Nearest.spec (h : t.Nearest P i x) (hearlier : t.Earlier) :
    t.Above x i ∧ P x ∧ ∀ y, t.Above x y → t.Above y i → y ≠ x → ¬P y := by
  induction h with
  | here hi =>
    refine ⟨.refl, hi, fun y hy hyi hne => ?_⟩
    exact absurd (Nat.le_antisymm (hearlier.le_of_above hyi) (hearlier.le_of_above hy)) hne
  | @above i p x hi hparent _ ih =>
    obtain ⟨habove, hx, hnone⟩ := ih
    refine ⟨habove.tail hparent, hx, fun y hy hyi hne => ?_⟩
    rcases Relation.ReflTransGen.cases_tail hyi with rfl | ⟨q, hyq, hq⟩
    · exact hi
    · rw [hparent] at hq
      cases hq
      exact hnone y hy hyq hne

theorem nearest_iff (hearlier : t.Earlier) :
    t.Nearest P i x ↔
      t.Above x i ∧ P x ∧ ∀ y, t.Above x y → t.Above y i → y ≠ x → ¬P y := by
  refine ⟨fun h => h.spec hearlier, ?_⟩
  rintro ⟨habove, hx, hnone⟩
  unfold Above at habove
  induction habove with
  | refl => exact .here hx
  | @tail p i hp hparent ih =>
    have hlt := Nat.lt_of_le_of_lt (hearlier.le_of_above hp) (hearlier _ _ hparent)
    have hinner := ih fun y hy hyp => hnone y hy (hyp.tail hparent)
    exact .above (hnone i (hp.tail hparent) .refl (Nat.ne_of_gt hlt)) hparent hinner

/-- Only the nodes up to `i` matter. -/
theorem Nearest.congr {u : Tree} {Q : Nat → Prop} (h : t.Nearest P i x) (hearlier : t.Earlier)
    (hparent : ∀ c ≤ i, u.parent? c = t.parent? c) (hsame : ∀ c ≤ i, Q c ↔ P c) :
    u.Nearest Q i x := by
  induction h with
  | @here i hi => exact .here ((hsame i (Nat.le_refl i)).mpr hi)
  | @above i p x hi hp _ ih =>
    have hle := Nat.le_of_lt (hearlier i p hp)
    refine .above (mt (hsame i (Nat.le_refl i)).mp hi) ((hparent i (Nat.le_refl i)).trans hp) ?_
    exact ih (fun c hc => hparent c (Nat.le_trans hc hle)) fun c hc => hsame c (Nat.le_trans hc hle)

end Nearest

end Retrace.Trace.Tree

namespace Retrace.Reconstruct
open Source Instrument Trace Activation
open Machine (Bears bears_unique)

/-- `outer` has something to run itself, and `inner` stands strictly inside of it. -/
def Encloses (s : Setting) (outer inner : TracePoint) : Prop :=
  scopeStatements (s.file outer.ref) outer.ref.node outer.kind ≠ [] ∧
    inner.ref.file = outer.ref.file ∧
    ((s.file outer.ref).range outer.ref.node).strictlyContains
      ((s.file inner.ref).range inner.ref.node) = true

/-- The node is that of a trace point that encloses the other. -/
def Surrounds (s : Setting) (t : Tree) (inner : TracePoint) (i : Nat) : Prop :=
  ∃ outer, Bears s t i outer ∧ Encloses s outer inner

/-- The root takes what no other node surrounds. -/
def Takes (s : Setting) (t : Tree) (inner : TracePoint) (i : Nat) : Prop :=
  i = 0 ∨ Surrounds s t inner i

/-- Code that stands inside of other trace points hangs under the nearest node that takes it, going
up from the node before it. -/
def Attributed (s : Setting) (t : Tree) : Prop :=
  ∀ j, 0 < j → j < t.size → ∃ x, t.parent? j = some x ∧ ∀ inner, Bears s t j inner →
    inner.kind.binding = .nested → t.Nearest (Takes s t inner) (j - 1) x

theorem surrounds_iff {s : Setting} {t : Tree} {i : Nat} {outer inner : TracePoint}
    (h : Bears s t i outer) : Surrounds s t inner i ↔ Encloses s outer inner := by
  constructor
  · rintro ⟨other, hother, hencloses⟩
    rw [bears_unique h hother]
    exact hencloses
  · exact fun hencloses => ⟨outer, h, hencloses⟩

theorem nearest_takes_of_same {s : Setting} {t u : Tree} {inner : TracePoint} {i x : Nat}
    (hearlier : t.Earlier) (hparent : ∀ c ≤ i, u.parent? c = t.parent? c)
    (hid : ∀ c ≤ i, u.traceId? c = t.traceId? c) (h : t.Nearest (Takes s t inner) i x) :
    u.Nearest (Takes s u inner) i x := by
  refine h.congr hearlier hparent fun c hc => ?_
  unfold Takes Surrounds Bears
  rw [hid c hc]

theorem nearest_takes_iff {s : Setting} {t : Tree} (hearlier : t.Earlier) {inner : TracePoint}
    {i x : Nat} :
    t.Nearest (Takes s t inner) i x ↔ t.Above x i ∧ (x = 0 ∨ Surrounds s t inner x) ∧
      ∀ y, t.Above x y → t.Above y i → y ≠ x → ¬Surrounds s t inner y := by
  rw [Tree.nearest_iff hearlier]
  refine and_congr_right fun _ => and_congr_right fun _ => forall_congr' fun y =>
    forall_congr' fun hy => imp_congr_right fun _ => imp_congr_right fun hne => ?_
  have hle := hearlier.le_of_above hy
  unfold Takes
  rw [or_iff_right (by omega)]

theorem Attributed.parent_iff {s : Setting} {t : Tree} (h : Attributed s t) {j : Nat} (hj : 0 < j)
    {inner : TracePoint} (hinner : Bears s t j inner) (hnested : inner.kind.binding = .nested)
    (x : Nat) : t.parent? j = some x ↔ t.Nearest (Takes s t inner) (j - 1) x := by
  obtain ⟨p, hp, hnearest⟩ := h j hj (Machine.lt_size_of_bears hinner)
  have hp' := hnearest inner hinner hnested
  rw [hp]
  constructor
  · rintro ⟨⟩
    exact hp'
  · exact fun hx => congrArg some (hp'.unique hx)

theorem attributed_of_outline {s : Setting} {t u : Tree} (htree : u.outline = t.outline)
    (hearlier : t.Earlier) (h : Attributed s t) : Attributed s u := by
  have hparent := Tree.parent?_eq_of_outline htree
  intro j hj hsize
  rw [Tree.size_eq_of_outline htree] at hsize
  obtain ⟨x, hx, hnearest⟩ := h j hj hsize
  refine ⟨x, by rw [hparent]; exact hx, fun inner hinner hnested => ?_⟩
  exact nearest_takes_of_same hearlier (fun c _ => congrFun hparent c)
    (fun c _ => congrFun (Tree.traceId?_eq_of_outline htree) c)
    (hnearest inner (Machine.bears_of_outline htree.symm hinner) hnested)

/-- Code that stands inside of other trace points is entered by an activation that encloses it. -/
theorem enter?_nested {s : Setting} {a : Activation} {inner : TracePoint}
    (hnested : inner.kind.binding = .nested) :
    (if (Plain.scope s a).isEmpty then none else a.enter? s inner) ≠ none ↔
      Encloses s a.point inner := by
  have henter : a.enter? s inner ≠ none ↔ inner.ref.file = a.point.ref.file ∧
      ((a.fileOf s).range a.point.ref.node).strictlyContains
        ((s.file inner.ref).range inner.ref.node) = true := by
    unfold Activation.enter? enterNested?
    rw [hnested]
    by_cases hsame : inner.ref.file = a.point.ref.file
    · have hfile : a.fileOf s = s.file inner.ref := by
        unfold fileOf Setting.file
        rw [hsame]
      simp [hsame, hfile]
    · simp [hsame]
  unfold Encloses
  by_cases hscope : Plain.scope s a = []
  · simp [hscope, show scopeStatements (s.file a.point.ref) a.point.ref.node a.point.kind = []
      from hscope]
  · rw [if_neg (by simpa using hscope), henter]
    exact (and_iff_right hscope).symm

/-! ### The plain machine -/

namespace Plain

/-- The stack holds the node `i` and its ancestors up to the root. -/
inductive Lined (s : Setting) (t : Tree) : Nat → List Activation → Prop
  | root : Lined s t 0 []
  | inner {a : Activation} {below : List Activation} {p : Nat} (hbears : Bears s t a.index a.point)
    (hparent : t.parent? a.index = some p) (hbelow : Lined s t p below) :
    Lined s t a.index (a :: below)

structure Lineal (s : Setting) (p : Plain) : Prop where
  inhabited : 0 < p.tree.size
  earlier : p.tree.Earlier
  lined : Lined s p.tree (p.tree.size - 1) p.stack
  attributed : Attributed s p.tree

theorem lineal_bare (s : Setting) : Lineal s bare where
  inhabited := Nat.one_pos
  earlier c p h := by cases c <;> cases h
  lined := .root
  attributed j hj hsize := absurd hsize (Nat.not_lt.mpr hj)

section Lined
variable {s : Setting} {t : Tree} {i : Nat} {stack : List Activation} (h : Lined s t i stack)
include h

theorem Lined.lt_size (hsize : 0 < t.size) : i < t.size := by
  cases h with
  | root => exact hsize
  | inner _ hparent _ => exact Tree.lt_size_of_parent? hparent

theorem Lined.push {parent id : Nat} {point : TracePoint} {e : Entrance} :
    Lined s (t.push parent (Machine.newNode s t parent id point e)) i stack := by
  induction h with
  | root => exact .root
  | inner hbears hparent _ ih =>
    have hlt := Tree.lt_size_of_parent? hparent
    refine .inner (Machine.bears_push hlt hbears) ?_ ih
    rw [Tree.parent?_push, if_neg (Nat.ne_of_lt hlt)]
    exact hparent

/-- The activation that takes a token stands where the stack had it. -/
theorem lined_of_taker? {point : TracePoint} {below : List Activation} {freed : Option Range}
    {e : Entrance} {b : Activation} (htaker : taker? s point freed stack = some (e, b, below)) :
    Lined s t b.index (b :: below) := by
  induction h generalizing freed with
  | root => cases htaker
  | @inner a rest p hbears hparent hrest ih =>
    rw [taker?] at htaker
    split at htaker
    · rename_i e' b' hsome
      cases htaker
      have henter : (a.releaseHeader freed).enter? s point = some (e, b) := by
        split at hsome
        · cases hsome
        · exact hsome
      obtain ⟨_, _, _, rfl⟩ := rebound_enter? henter
      cases freed <;> exact .inner hbears hparent hrest
    · exact ih htaker

/-- Code that stands inside of other trace points goes to the nearest node that takes it. -/
theorem nearest_of_taker? {inner : TracePoint} (hnested : inner.kind.binding = .nested)
    (hearlier : t.Earlier) (freed : Option Range) :
    (∀ e b below, taker? s inner freed stack = some (e, b, below) →
      t.Nearest (Takes s t inner) i b.index) ∧
    (taker? s inner freed stack = none → t.Nearest (Takes s t inner) i 0) := by
  induction h generalizing freed with
  | root =>
    refine ⟨fun e b below htaker => ?_, fun _ => .here (.inl rfl)⟩
    cases htaker
  | @inner a rest p hbears hparent hrest ih =>
    have hpos : a.index ≠ 0 :=
      Nat.ne_of_gt (Nat.lt_of_le_of_lt (Nat.zero_le p) (hearlier _ _ hparent))
    have hpoint : (a.releaseHeader freed).point = a.point := by cases freed <;> rfl
    have hindex : (a.releaseHeader freed).index = a.index := by cases freed <;> rfl
    have hentrance : (a.releaseHeader freed).entrance = a.entrance := by cases freed <;> rfl
    have hiff := enter?_nested (s := s) (a := a.releaseHeader freed) hnested
    rw [hpoint, ← surrounds_iff hbears] at hiff
    rw [taker?]
    cases henter : if (scope s (a.releaseHeader freed)).isEmpty then none
      else (a.releaseHeader freed).enter? s inner with
    | none =>
      have hnot : ¬Takes s t inner a.index := fun htakes =>
        hiff.mpr (htakes.resolve_left hpos) henter
      obtain ⟨hsome, hnone⟩ := ih a.entrance.header?
      rw [hentrance]
      exact ⟨fun e b below htaker => .above hnot hparent (hsome e b below htaker),
        fun htaker => .above hnot hparent (hnone htaker)⟩
    | some entered =>
      obtain ⟨e, b⟩ := entered
      have hsurrounds : Surrounds s t inner a.index := by
        refine hiff.mp ?_
        rw [henter]
        exact Option.some_ne_none _
      refine ⟨fun e' b' below htaker => ?_, fun htaker => (Option.some_ne_none _ htaker).elim⟩
      cases htaker
      have hb : b.index = a.index := by
        split at henter
        · cases henter
        · obtain ⟨_, _, _, rfl⟩ := rebound_enter? henter
          exact hindex
      rw [hb]
      exact .here (.inr hsurrounds)

end Lined

/-- A new node hangs under the latest node or an ancestor of it, and if it has to stand inside of
its parent's code, under the nearest one that takes it. -/
theorem Lineal.opened {s : Setting} {p : Plain} (h : Lineal s p) {stack : List Activation}
    {more : Bool} {parent id : Nat} {point : TracePoint} {e : Entrance}
    (hpoint : s.points.get? id = some point) (hlined : Lined s p.tree parent stack)
    (hnearest : point.kind.binding = .nested →
      p.tree.Nearest (Takes s p.tree point) (p.tree.size - 1) parent) :
    Lineal s (opened s p.tree stack more parent id point e) := by
  have hlt := hlined.lt_size h.inhabited
  have hparent : ∀ c, (Plain.opened s p.tree stack more parent id point e).tree.parent? c =
      if c = p.tree.size then some parent else p.tree.parent? c := fun c => parent?_opened
  have hsize : (Plain.opened s p.tree stack more parent id point e).tree.size = p.tree.size + 1 :=
    Tree.size_push _ _ _
  have hsame : ∀ {inner i x}, i < p.tree.size → p.tree.Nearest (Takes s p.tree inner) i x →
      (Plain.opened s p.tree stack more parent id point e).tree.Nearest
        (Takes s (Plain.opened s p.tree stack more parent id point e).tree inner) i x := by
    intro inner i x hi
    refine nearest_takes_of_same h.earlier (fun c hc => ?_) fun c hc => ?_
    · rw [hparent, if_neg (by omega)]
    · rw [Plain.opened, Tree.traceId?_push, if_neg (by omega)]
  constructor
  · omega
  · intro c q hq
    rw [hparent] at hq
    split at hq
    · cases hq
      omega
    · exact h.earlier c q hq
  · rw [hsize]
    refine .inner (a := (Activation.start (s.file point.ref) p.tree.size point e).plain)
      (Machine.bears_new hpoint) ?_ hlined.push
    exact (hparent _).trans (if_pos rfl)
  · intro j hj hjsize
    rw [hsize] at hjsize
    rw [hparent]
    split
    · rename_i hnew
      subst hnew
      refine ⟨parent, rfl, fun inner hinner hnested => ?_⟩
      rw [bears_unique hinner (Machine.bears_new hpoint)] at hnested ⊢
      exact hsame (by omega) (hnearest hnested)
    · obtain ⟨x, hx, hold⟩ := h.attributed j hj (by omega)
      refine ⟨x, hx, fun inner hinner hnested => hsame (by omega) (hold inner ?_ hnested)⟩
      obtain ⟨id', hid, hinner⟩ := hinner
      rw [Plain.opened, Tree.traceId?_push, if_neg (by omega)] at hid
      exact ⟨id', hid, hinner⟩

theorem Lineal.take {s : Setting} {p q : Plain} (h : Lineal s p) {id : Nat} {point : TracePoint}
    (hpoint : s.points.get? id = some point) (htake : take? s p id point = some q) :
    Lineal s q := by
  unfold take? at htake
  split at htake
  · rename_i e b below htaker
    cases htake
    refine h.opened hpoint (lined_of_taker? h.lined htaker) fun hnested => ?_
    exact (nearest_of_taker? h.lined hnested h.earlier none).1 e b below htaker
  · rename_i htaker
    split at htake
    · cases htake
      refine h.opened hpoint .root fun hnested => ?_
      exact (nearest_of_taker? h.lined hnested h.earlier none).2 htaker
    · cases htake

theorem Lineal.run {s : Setting} {p : Plain} (h : Lineal s p) (tokens : List Nat) :
    Lineal s (run s p tokens).1 := by
  induction tokens generalizing p with
  | nil => exact h
  | cons id rest ih =>
    rw [Plain.run]
    split
    · rename_i q hq
      obtain ⟨point, hpoint, htake⟩ := Option.bind_eq_some_iff.mp hq
      exact ih (h.take hpoint htake)
    · exact h

end Plain

/-! ### Whole traces -/

section Sources
variable {sources : List (String × String)}
  (horder : ∀ f ∈ (Project.ofSources sources).fileList, f.InOrder) {partially : Bool}
  {tokens : List Nat} (hkept : Plain.revisits (.ofSources sources) [] Plain.bare tokens = false)
  {r : Reconstruction}
  (h : reconstruct (.ofSources sources) partially (Stream.ofTokens tokens) = .ok r)
include horder hkept h

theorem attributed_of_reconstruct :
    r.tree.Earlier ∧ Attributed (.ofSources sources) r.tree := by
  obtain ⟨k, hk, htree, _⟩ := Machine.halts_of_reconstruct h
  have hiff := run_eq_plain_iff (decided_of_laid (laid_ofSources horder) shaped_ofSources) hk
  have hplain := (Plain.lineal_bare (.ofSources sources)).run tokens
  have hsame : r.tree.outline = (Plain.run (.ofSources sources) Plain.bare tokens).1.tree :=
    htree ▸ (Prod.mk.inj (hiff.mpr hkept)).1
  have houtline : r.tree.outline =
      (Plain.run (.ofSources sources) Plain.bare tokens).1.tree.outline := by
    rw [← hsame, Tree.outline_outline]
  refine ⟨?_, attributed_of_outline houtline hplain.earlier hplain.attributed⟩
  unfold Tree.Earlier
  rw [Tree.parent?_eq_of_outline houtline]
  exact hplain.earlier

/-- A block or branch is given to the innermost open activation that encloses it: to the node
before it or an ancestor of that node, below which nothing on the way encloses it; the root stands
in when nothing does. So a node that has been given a block before is given it again exactly when
the node is still open and no later open activation encloses the block. -/
theorem parent_of_nested_iff {j : Nat} {inner : TracePoint} (hj : 0 < j)
    (hinner : Bears (.ofSources sources) r.tree j inner)
    (hkind : inner.kind = .block ∨ inner.kind = .branch) :
    (∀ x, r.tree.parent? j = some x ↔ r.tree.Above x (j - 1) ∧
      (x = 0 ∨ Surrounds (.ofSources sources) r.tree inner x) ∧
      ∀ y, r.tree.Above x y → r.tree.Above y (j - 1) → y ≠ x →
        ¬Surrounds (.ofSources sources) r.tree inner y) ∧
    ∀ i x, 0 < i → r.tree.traceId? i = r.tree.traceId? j → r.tree.parent? i = some x →
      (r.tree.parent? j = some x ↔ r.tree.Above x (j - 1) ∧
        ∀ y, r.tree.Above x y → r.tree.Above y (j - 1) → y ≠ x →
          ¬Surrounds (.ofSources sources) r.tree inner y) := by
  obtain ⟨hearlier, hattributed⟩ := attributed_of_reconstruct horder hkept h
  have hnested : inner.kind.binding = .nested := by
    rcases hkind with hkind | hkind <;> rw [hkind] <;> rfl
  have hlaw := fun x => (hattributed.parent_iff hj hinner hnested x).trans
    (nearest_takes_iff hearlier)
  refine ⟨hlaw, fun i x hi hid hx => (hlaw x).trans (and_congr_right fun _ => ?_)⟩
  have hsame : Bears (.ofSources sources) r.tree i inner := by
    obtain ⟨id, htrace, hpoint⟩ := hinner
    exact ⟨id, hid.trans htrace, hpoint⟩
  have htaken := (hattributed.parent_iff hi hsame hnested x).mp hx
  exact and_iff_right ((nearest_takes_iff hearlier).mp htaken).2.1

end Sources

/-- `f(0)` calls `f(1)`, which calls `f(2)`; that one returns, and the two others come to their
second branch. The innermost call is given both, for nothing says that it has returned. -/
theorem nested_of_recursion :
    let s := Setting.ofSources
      [("A.java", "class A{void f(int n){if(n>1){return;}f(n+1);if(n>=0){}}}")]
    ∃ r inner, reconstruct s true (Stream.ofTokens [1, 1, 1, 2, 3, 3]) = .ok r ∧
      Bears s r.tree 6 inner ∧ r.tree.parent? 5 = some 3 ∧ r.tree.parent? 6 = some 3 ∧
      r.tree.Above 3 5 ∧ ∀ y, r.tree.Above 3 y → r.tree.Above y 5 → y ≠ 3 →
        ¬Surrounds s r.tree inner y := by
  intro s
  have hfacts : ((Machine.outcome? s 90 [1, 1, 1, 2, 3, 3]).any fun r =>
      r.tree.parent? 5 = some 3 ∧ r.tree.parent? 6 = some 3 ∧
      r.tree.traceId? 5 = some (toString 3) ∧ r.tree.traceId? 6 = some (toString 3)) ∧
    ((s.points.get? 3).any fun inner => inner.kind = .branch) ∧
    Plain.revisits s [] Plain.bare [1, 1, 1, 2, 3, 3] = false := by
    decide +kernel
  obtain ⟨hrun, hpoint, hkept⟩ := hfacts
  obtain ⟨r, hok, hfirst, hsecond, hid, hid'⟩ := Machine.exists_reconstruct hrun
  obtain ⟨inner, hinner, hkind⟩ := (Option.any_eq_true _ _).mp hpoint
  have hbears : Bears s r.tree 6 inner := ⟨3, hid', hinner⟩
  have hlaw := (parent_of_nested_iff (inOrder_ofSources (by decide)) hkept hok (by decide) hbears
    (.inr (of_decide_eq_true hkind))).2 5 3 (by decide) (hid.trans hid'.symm) hfirst
  obtain ⟨habove, hnone⟩ := hlaw.mp hsecond
  exact ⟨r, inner, hok, hbears, hfirst, hsecond, habove, hnone⟩

/-- The call that has returned is given the second branch twice. -/
theorem branch_given_to_inner_call :
    let sources := [("A.java", "class A{void f(int n){if(n>1){return;}f(n+1);if(n>=0){}}}")]
    let s := Setting.ofSources sources
    (∀ f ∈ (Project.ofSources sources).fileList, f.InOrder ∧ f.hasErrors = false) ∧
      ¬∀ partially r, reconstruct s partially (Stream.ofTokens [1, 1, 1, 2, 3, 3]) = .ok r →
        ∀ p i j, r.tree.parent? i = some p → r.tree.parent? j = some p →
          r.tree.traceId? i = r.tree.traceId? j → ∀ point, Bears s r.tree i point →
          point.kind = .block ∨ point.kind = .branch → i = j := by
  intro sources s
  have hfacts : ((Machine.outcome? s 90 [1, 1, 1, 2, 3, 3]).any fun r => r.unconsumed = 0 ∧
      r.tree.parent? 5 = some 3 ∧ r.tree.parent? 6 = some 3 ∧
      r.tree.traceId? 5 = some (toString 3) ∧ r.tree.traceId? 6 = some (toString 3)) ∧
    (∀ f ∈ (Project.ofSources sources).fileList, f.hasErrors = false) ∧
    (s.points.get? 3).any fun point => point.kind = .branch := by
    decide +kernel
  obtain ⟨hrun, herrors, hpoint⟩ := hfacts
  refine ⟨fun f hf => ⟨inOrder_ofSources (by decide) f hf, herrors f hf⟩, fun hclaim => ?_⟩
  obtain ⟨r, hok, hunconsumed, hfirst, hsecond, hid, hid'⟩ := Machine.exists_reconstruct hrun
  obtain ⟨point, hpoint, hkind⟩ := (Option.any_eq_true _ _).mp hpoint
  have hsame := hclaim false r (Machine.reconstruct_wholly hok hunconsumed) 3 5 6 hfirst hsecond
    (hid.trans hid'.symm) point
    ⟨3, hid, hpoint⟩ (.inr (of_decide_eq_true hkind))
  cases hsame

end Retrace.Reconstruct
