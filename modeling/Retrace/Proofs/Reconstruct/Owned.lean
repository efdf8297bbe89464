import Retrace.Proofs.Reconstruct.OwnRanges

/-! What the ranges and the links of a node are about.

The own ranges of a node are ranges of the code that its trace point runs itself (`OwnCode`), so
they belong to the file of the trace point. The link of a node names the file where the call
stands, which is another one when the call crosses files, but always a file of the project
(`owned_of_reconstruct`). -/
namespace Retrace.Reconstruct
open Source Instrument Trace Activation
open Machine (addOwn_eq_foldl finish_eq_foldl isPart_of_go)

/-- A range of the code that a trace point runs itself: a statement of its scope, what is evaluated
in front of the statement's body, or an update of its loop. -/
def OwnCode (s : Setting) (point : TracePoint) (r : Range) : Prop :=
  (∃ c ∈ scopeStatements (s.file point.ref) point.ref.node point.kind,
    r = (s.file point.ref).range c ∨ r ∈ guardRanges (s.file point.ref) c) ∨
  ∃ c ∈ (s.file point.ref).childrenUnder point.ref.node .update, r = (s.file point.ref).range c

namespace Activation

theorem IsPart.ownCode {s : Setting} {a : Activation} {r : Range} (h : IsPart s a r) :
    OwnCode s a.point r := by
  rcases h with ⟨q, hq, hr⟩ | hr
  · obtain ⟨c, hc, rfl⟩ := List.mem_map.mp hq
    exact .inl ⟨c, hc, List.mem_cons.mp hr⟩
  · obtain ⟨c, hc, rfl⟩ := List.mem_map.mp hr
    exact .inr ⟨c, hc, rfl⟩

theorem mem_ranges_addRange {a : Activation} {q r : Range} (h : q ∈ (a.addRange r).ranges) :
    q = r ∨ q ∈ a.ranges := by
  unfold addRange at h
  split at h
  · exact .inr h
  · split at h
    · exact .inr h
    · rcases List.mem_append.mp h with h | h
      · exact .inr (List.mem_filter.mp h).1
      · exact .inl (List.mem_singleton.mp h)

theorem mem_ranges_foldl {rs : List Range} {a : Activation} {q : Range}
    (h : q ∈ (rs.foldl addRange a).ranges) : q ∈ rs ∨ q ∈ a.ranges := by
  induction rs generalizing a with
  | nil => exact .inr h
  | cons r rs ih =>
    rcases ih h with h | h
    · exact .inl (List.mem_cons_of_mem r h)
    · rcases mem_ranges_addRange h with rfl | h
      · exact .inl List.mem_cons_self
      · exact .inr h

/-- The activation is coherent, and its own ranges are those of its own code. -/
structure Owns (s : Setting) (a : Activation) : Prop where
  coherent : Coherent s a
  ranges : ∀ r ∈ a.ranges, OwnCode s a.point r

theorem owns_lasting (s : Setting) : Machine.Lasting s (Owns s) where
  start index e hpoint := ⟨coherent_start hpoint index e, fun r hr => nomatch hr⟩
  go {a scan own} ha hscan := by
    refine ⟨(coherent_lasting s).go ha.coherent hscan, fun r hr => ?_⟩
    have hpoint : (({a with scan := scan}).addOwn own).point = a.point := by
      obtain ⟨_, hown⟩ := addOwn_eq {a with scan := scan} own
      rw [hown]
    rw [hpoint]
    rw [addOwn_eq_foldl] at hr
    rcases mem_ranges_foldl hr with hr | hr
    · exact (isPart_of_go ha.coherent hscan r hr).ownCode
    · exact ha.ranges r hr
  ask ha hscan := ⟨ha.coherent.ask hscan, ha.ranges⟩
  recursor cursor ha := ⟨ha.coherent.recursor cursor, ha.ranges⟩
  enter ha _ henter := by
    refine ⟨ha.coherent.enter? henter, ?_⟩
    obtain ⟨_, _, _, rfl⟩ := rebound_enter? henter
    exact ha.ranges
  resume {a} e ha := by
    refine ⟨ha.coherent.resume e, ?_⟩
    obtain ⟨_, _, _, hresume⟩ := resume_eq a e
    rw [hresume]
    exact ha.ranges

theorem Owns.finish {s : Setting} {a : Activation} (h : Owns s a) :
    ∀ r ∈ (a.finish s).ranges, OwnCode s a.point r := by
  obtain ⟨rs, hfinish, hparts⟩ := finish_eq_foldl s a
  intro r hr
  rw [hfinish] at hr
  exact (mem_ranges_foldl hr).elim (fun hr => (hparts r hr).ownCode) (h.ranges r)

/-- A link is in the file of the parent, or in that of a class whose setup code holds the call. -/
theorem file_of_link? {s : Setting} {a b : Activation} {point : TracePoint} {e : Entrance}
    (he : a.enter? s point = some (e, b)) {l : Link} (hl : e.link? = some l) :
    l.file = (s.file a.point.ref).path ∨ ∃ k ∈ s.classes, l.file = (s.file k.2).path := by
  unfold Activation.enter? at he
  rcases Option.or_eq_some_iff.mp he with he | ⟨_, he⟩
  · split at he
    · unfold enterMethod? at he
      obtain ⟨name, _, he⟩ := Option.bind_eq_some_iff.mp he
      dsimp only at he
      split at he
      · cases he
        cases hl
        exact .inl rfl
      · obtain ⟨call, hcall, he⟩ := Option.map_eq_some_iff.mp he
        cases he
        cases hl
        obtain ⟨_, ⟨k, hk, rfl⟩, hfile, _⟩ := setup_of_setupCall? hcall
        refine .inr ⟨k, hk, ?_⟩
        unfold Setting.file
        rw [hfile]
    · unfold enterCreation? at he
      obtain ⟨_, _, he⟩ := Option.bind_eq_some_iff.mp he
      obtain ⟨_, _, he⟩ := Option.bind_eq_some_iff.mp he
      obtain ⟨⟨creation, a'⟩, hc, he⟩ := Option.bind_eq_some_iff.mp he
      obtain ⟨_, _, he⟩ := Option.map_eq_some_iff.mp he
      obtain ⟨_, _, _, rfl⟩ := rebound_creationFor? hc
      cases he
      cases hl
      exact .inl rfl
    · cases he
      cases hl
    · cases he
  · obtain ⟨e', he', hpair⟩ := Option.map_eq_some_iff.mp he
    cases hpair
    unfold enterNested? at he'
    dsimp only at he'
    split at he'
    · cases he'
      split at hl <;> cases hl
    · cases he'

end Activation

namespace Machine

/-- The own ranges of a node are of its trace point's own code. -/
def Owned (s : Setting) (t : Tree) : Prop :=
  ∀ i, ∀ r ∈ t.ranges i, ∃ point, Bears s t i point ∧ OwnCode s point r

/-- Links are in files of the project. -/
def Filed (p : Project) (t : Tree) : Prop :=
  ∀ i l, t.link? i = some l → ∃ f ∈ p.fileList, l.file = f.path

theorem owned_of_moves {s : Setting} {m n : Machine} (hmoves : Moves s m n)
    (howns : ∀ a ∈ m.stack, Owns s a) (hnamed : Named s m) (h : Owned s m.tree) :
    Owned s n.tree := by
  have hpush : ∀ {parent id point e}, Owned s
      (m.tree.push parent (newNode s m.tree parent id point e)) := by
    intro parent id point e i r hr
    rw [Tree.ranges_push rfl] at hr
    obtain ⟨inner, hinner, hcode⟩ := h i r hr
    exact ⟨inner, bears_push (lt_size_of_bears hinner) hinner, hcode⟩
  cases hmoves with
  | root _ _ _ _ => exact hpush
  | @close a below hstack _ =>
    have ha : a ∈ m.stack := by
      rw [hstack]
      exact List.mem_cons_self
    have hbears := (hnamed.named a ha).2
    rw [close_eq]
    intro i r hr
    have houtline := Tree.outline_setRanges m.tree a.index (a.finish s).ranges
    dsimp only at hr
    rw [Tree.ranges_setRanges (lt_size_of_bears hbears)] at hr
    split at hr
    · rename_i hi
      subst hi
      exact ⟨a.point, bears_of_outline houtline hbears, (howns a ha).finish r hr⟩
    · obtain ⟨inner, hinner, hcode⟩ := h i r hr
      exact ⟨inner, bears_of_outline houtline hinner, hcode⟩
  | go _ _ => exact h
  | ended _ _ _ => exact h
  | refuse _ _ _ _ _ => exact h
  | enter _ _ _ _ _ => exact hpush

section Traced
variable {p : Project}

theorem mem_fileList {n : Nat} (h : n < p.files.size) : p.file n ∈ p.fileList := by
  unfold Project.file Project.fileList
  rw [Array.getD_eq_getD_getElem?, Array.getElem?_eq_getElem h]
  exact Array.mem_toList_iff.mpr (Array.getElem_mem h)

theorem file_of_class {k : String × Ref} (h : k ∈ (Setting.traced p).classes) :
    (Setting.traced p).file k.2 ∈ p.fileList := by
  obtain ⟨⟨n, f⟩, hn, hk⟩ := List.mem_flatMap.mp h
  obtain ⟨i, _, hk⟩ := List.mem_filterMap.mp hk
  obtain ⟨_, _, rfl⟩ := Option.map_eq_some_iff.mp hk
  exact mem_fileList (mem_numbered hn).1

theorem filed_of_moves {m n : Machine} (hmoves : Moves (.traced p) m n)
    (howns : ∀ a ∈ m.stack, Owns (.traced p) a) (h : Filed p m.tree) : Filed p n.tree := by
  have hpush : ∀ {parent id point} {e : Entrance},
      (∀ l, e.link? = some l → ∃ f ∈ p.fileList, l.file = f.path) →
      Filed p (m.tree.push parent (newNode (.traced p) m.tree parent id point e)) := by
    intro parent id point e he i l hl
    rw [Tree.link?_push] at hl
    split at hl
    · exact he l hl
    · exact h i l hl
  cases hmoves with
  | root _ _ _ _ => exact hpush (e := .root) fun l hl => nomatch hl
  | close _ _ =>
    rw [close_eq]
    intro i l hl
    rw [Tree.link?_eq_of_outline (Tree.outline_setRanges _ _ _)] at hl
    exact h i l hl
  | go _ _ => exact h
  | ended _ _ _ => exact h
  | refuse _ _ _ _ _ => exact h
  | @enter a b below scan id rest point e hstack _ _ _ henter =>
    refine hpush fun l hl => ?_
    obtain ⟨id, hid⟩ := (howns a (by rw [hstack]; exact List.mem_cons_self)).coherent.traced
    rcases file_of_link? henter hl with hfile | ⟨k, hk, hfile⟩
    · exact ⟨_, mem_fileList (PointMap.traced_of_get? hid).file_lt, hfile⟩
    · exact ⟨_, file_of_class hk, hfile⟩

/-- What a machine keeps: its activations own their ranges and have their nodes, and so it is for
the nodes of the tree, whose links are in files of the project. -/
structure Housed (p : Project) (m : Machine) : Prop where
  owns : ∀ a ∈ m.stack, Owns (.traced p) a
  named : Named (.traced p) m
  owned : Owned (.traced p) m.tree
  filed : Filed p m.tree

theorem housed_ofTokens (p : Project) (tokens : List Nat) : Housed p (ofTokens tokens) where
  owns _ ha := nomatch ha
  named := named_ofTokens _ tokens
  owned i r hr := by cases i <;> cases hr
  filed i l hl := by cases i <;> cases hl

theorem Housed.moves {m n : Machine} (h : Housed p m) (hmoves : Moves (.traced p) m n) :
    Housed p n where
  owns := (owns_lasting _).moves hmoves h.owns
  named := named_of_moves hmoves h.named
  owned := owned_of_moves hmoves h.owns h.named h.owned
  filed := filed_of_moves hmoves h.owns h.filed

theorem owned_of_reconstruct {partially : Bool} {tokens : List Nat} {r : Reconstruction}
    (h : reconstruct (.traced p) partially (Stream.ofTokens tokens) = .ok r) :
    Owned (.traced p) r.tree ∧ Filed p r.tree := by
  obtain ⟨k, htree, hk⟩ :=
    reconstruct_keeps (fun _ _ hm hmoves => hm.moves hmoves) h (housed_ofTokens p tokens)
  rw [htree]
  exact ⟨hk.owned, hk.filed⟩

end Traced

end Machine

end Retrace.Reconstruct
