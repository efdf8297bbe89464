import Mathlib.Data.List.Basic
import Retrace.Proofs.Reconstruct.Preorder
import Retrace.Proofs.Text.Words
import Retrace.Proofs.Trace.Checks

/-! The rounds of loops are counted.

Every node but the root stands for a trace point (`Standing`), and the nodes of a loop know their
rounds. A new node counts the earlier ones of its loop below its parent, so the rounds count up
from one (`tallied_of_grows`). -/
namespace Retrace.Reconstruct.Machine
open Source Instrument Trace

/-- The node is one of a trace point. -/
def Standing (s : Setting) (n : Trace.Node) (id : Nat) (point : TracePoint) : Prop :=
  n.traceId = toString id ∧ s.points.get? id = some point ∧
    n.iteration.isSome = point.kind.isLoop

/-- Every node but the root is one of a trace point, and its loop has been counted. -/
structure Tallied (s : Setting) (t : Tree) : Prop where
  standing : ∀ c n, t.get? c = some n → 0 < c → ∃ id point, Standing s n id point
  counted : t.Counted

theorem tallied_bare (s : Setting) : Tallied s Tree.bare where
  standing c n hn hpos := by
    have := Tree.lt_size_of_get? hn
    change c < 1 at this
    omega
  counted i := by
    cases i <;> rfl

theorem countedChild?_outline (t : Tree) : Tree.countedChild? t.outline = Tree.countedChild? t := by
  funext c
  unfold Tree.countedChild?
  rw [Tree.get?_outline]
  cases t.get? c <;> rfl

theorem tallied_of_outline {s : Setting} {t u : Tree} (h : Tallied s t)
    (hsame : u.outline = t.outline) : Tallied s u where
  standing c n hn hpos := by
    have hnode := Tree.get?_outline t c
    rw [← hsame, Tree.get?_outline, hn] at hnode
    obtain ⟨m, hm, houtline⟩ := Option.map_eq_some_iff.mp hnode.symm
    obtain ⟨id, point, htrace, hpoint, hround⟩ := h.standing c m hm hpos
    have htrace' : m.outline.traceId = n.outline.traceId := congrArg Trace.Node.traceId houtline
    have hround' : m.outline.iteration = n.outline.iteration :=
      congrArg Trace.Node.iteration houtline
    change m.traceId = n.traceId at htrace'
    change m.iteration = n.iteration at hround'
    exact ⟨id, point, by rw [← htrace', htrace], hpoint, by rw [← hround', hround]⟩
  counted i := by
    rw [Tree.children_eq_of_outline hsame, ← countedChild?_outline, hsame, countedChild?_outline]
    exact h.counted i

theorem countedChild?_push {t : Tree} {parent : Nat} {n : Trace.Node} {c : Nat} (hc : c < t.size) :
    Tree.countedChild? (t.push parent n) c = Tree.countedChild? t c := by
  unfold Tree.countedChild?
  rw [Tree.get?_push, if_neg (Nat.ne_of_lt hc)]
  split <;> cases t.get? c <;> rfl

/-- The counted children of a loop are its nodes. -/
theorem count_countedChild? {t : Tree} {w : String} {l : List Nat}
    (h : ∀ c n, t.get? c = some n → n.traceId = w → c ∈ l → n.iteration.isSome = true) :
    ((l.filterMap (Tree.countedChild? t)).map fun y => y.2.1).count w =
      (l.filter fun c => (t.get? c).map Trace.Node.traceId == some w).length := by
  induction l with
  | nil => rfl
  | cons c l ih =>
    have hrest := ih fun d n hd hn hl => h d n hd hn (List.mem_cons_of_mem c hl)
    rw [List.filterMap_cons, List.filter_cons]
    cases hc : t.get? c with
    | none =>
      rw [show Tree.countedChild? t c = none by simp [Tree.countedChild?, hc]]
      exact hrest
    | some n =>
      have hcounted : Tree.countedChild? t c = n.iteration.map fun r => (c, n.traceId, r) := by
        simp [Tree.countedChild?, hc]
      rw [hcounted, Option.map_some, Option.some_beq_some]
      by_cases hid : n.traceId = w
      · obtain ⟨r, hr⟩ := Option.isSome_iff_exists.mp (h c n hc hid List.mem_cons_self)
        simp [hr, hid, hrest]
      · cases hr : n.iteration <;> simp [hid, hrest]

theorem counted_of_loop {s : Setting} {t : Tree} (h : Tallied s t) {id : Nat} {point : TracePoint}
    (hpoint : s.points.get? id = some point) (hloop : point.kind.isLoop = true) {c : Nat}
    {n : Trace.Node} (hn : t.get? c = some n) (hpos : 0 < c) (htrace : n.traceId = toString id) :
    n.iteration.isSome = true := by
  obtain ⟨id', point', htrace', hpoint', hround⟩ := h.standing c n hn hpos
  have hid : id' = id := Text.toString_injective (htrace'.symm.trans htrace)
  rw [hid, hpoint] at hpoint'
  cases hpoint'
  rw [hround, hloop]

theorem tallied_push {s : Setting} {t : Tree} (h : Tallied s t) (hedges : t.Listed)
    (hearlier : ∀ p c, t.parent? c = some p → p < c) {parent id : Nat} {point : TracePoint}
    (hparent : parent < t.size) (hpoint : s.points.get? id = some point) (e : Entrance) :
    Tallied s (t.push parent (newNode s t parent id point e)) where
  standing c n hn hpos := by
    rw [Tree.get?_push] at hn
    split at hn
    · cases hn
      refine ⟨id, point, rfl, hpoint, ?_⟩
      unfold newNode
      cases point.kind.isLoop <;> rfl
    · split at hn
      · obtain ⟨m, hm, rfl⟩ := Option.map_eq_some_iff.mp hn
        exact h.standing c m hm hpos
      · exact h.standing c n hn hpos
  counted i := by
    have hsmall : ∀ c ∈ t.children i, 0 < c ∧ c < t.size := by
      intro c hc
      rw [hedges i] at hc
      have hc' : t.parent? c = some i := by simpa using (List.mem_filter.mp hc).2
      exact ⟨Nat.lt_of_le_of_lt (Nat.zero_le i) (hearlier i c hc'), Tree.lt_size_of_parent? hc'⟩
    have hold : (t.children i).filterMap
        (Tree.countedChild? (t.push parent (newNode s t parent id point e))) =
        (t.children i).filterMap (Tree.countedChild? t) :=
      List.filterMap_congr fun c hc => countedChild?_push (hsmall c hc).2
    rw [Tree.children_push hparent rfl]
    split
    · rename_i hi
      subst hi
      rw [List.filterMap_append, hold]
      have hnew : Tree.countedChild? (t.push i (newNode s t i id point e)) t.size =
          if point.kind.isLoop then some (t.size, toString id, round t i (toString id))
          else none := by
        unfold Tree.countedChild?
        rw [Tree.get?_push, if_pos rfl]
        unfold newNode
        cases point.kind.isLoop <;> rfl
      rw [List.filterMap_cons, hnew, List.filterMap_nil]
      cases hloop : point.kind.isLoop with
      | false =>
        simp only [Bool.false_eq_true, if_false, List.append_nil]
        exact h.counted i
      | true =>
        refine Tree.roundViolations_concat _ _ _ (h.counted i) ?_
        have hcount := count_countedChild? (t := t) (w := toString id) (l := t.children i)
          fun c n hn htrace hc => counted_of_loop h hpoint hloop hn (hsmall c hc).1 htrace
        rw [List.nil_append]
        simp only
        rw [hcount]
        obtain ⟨n, hn⟩ := Tree.exists_node hparent
        unfold round
        rw [hn, Tree.children_of_get? hn]
        simp only
        rw [← Array.length_toList, Array.toList_filter]
    · rw [hold]
      exact h.counted i

theorem tallied_of_grows {s : Setting} {taken : List Nat} {m n : Machine} (hp : Placed s taken m)
    (h : Tallied s m.tree) (hgrows : Grows s m n) : Tallied s n.tree := by
  cases hgrows with
  | still _ _ htree _ => exact tallied_of_outline h htree
  | ends _ _ htree _ => exact tallied_of_outline h htree
  | begins hrest hpoint htree hindices hparent =>
    have hlt := (parent_above hp (hparent.imp And.left fun hr => ⟨hr.1, hr.2.1⟩)).1
    rw [htree]
    exact tallied_push h hp.listed hp.earlier hlt hpoint _

end Retrace.Reconstruct.Machine
