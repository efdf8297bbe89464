import Retrace.Proofs.Instrument.Ids
import Retrace.Proofs.Java.Bodies
import Retrace.Proofs.Reconstruct.Deferral

/-! Whose site a call is.

The scope of a trace point reaches down to the next block, and into blocks only behind a lambda or
in an anonymous class, where no trace point is. So of two trace points around a call only the inner
one has it among its sites (`unit_of_site`), and the nearest block around a call is that of its
trace point, unless a class body comes in between (`exists_unit`). -/
namespace Retrace.Reconstruct
open Java Source Instrument

/-! ### One trace point at most -/

section Linked
variable {f : File} (h : f.Linked)
include h

/-- A block around another one does not share a site with it. -/
theorem eq_of_block_below (hs : f.Shaped) {i j b b' c : Nat} {kind kind' : PointKind} {x : Site}
    (hb : Holds f i kind b) (hc : c ∈ f.children b) (hx : x ∈ sitesWithin f false c)
    (hb' : Holds f j kind' b') (hreached : inUntraced f j = false) (hbelow : f.Below b b')
    (hbx : f.Below b' x.node) : b = b' := by
  refine hbelow.cases.resolve_right ?_
  rintro ⟨d, hd, hdb⟩
  obtain rfl := h.eq_of_below hd hc (hdb.trans hbx) (below_of_mem_sitesWithin hx).1
  have hplace : ∀ {q}, d ∈ f.children q →
      f.form q ≠ .classBody ∧ f.form q ≠ .constructorDeclaration := by
    intro q hq
    rw [h.parent_unique hq hd]
    rcases hb.form hs with hform | hform <;> rw [hform] <;> exact ⟨nofun, nofun⟩
  rw [inUntraced_of_part h hb' hx hdb hbx hplace] at hreached
  cases hreached

/-- A call is a site of one trace point at most. -/
theorem unit_of_site (hs : f.Shaped) {i j : Nat} {kind kind' : PointKind} {x y : Site}
    (hkind : kind? f i = some kind) (hkind' : kind? f j = some kind')
    (hreached : inUntraced f i = false) (hreached' : inUntraced f j = false)
    (hx : x ∈ scopeSites f i kind) (hy : y ∈ scopeSites f j kind') (hsame : x.node = y.node) :
    i = j := by
  obtain ⟨b, c, hb, hc, _, hx⟩ := statement_of_site hkind hx
  obtain ⟨b', c', hb', hc', _, hy⟩ := statement_of_site hkind' hy
  have hbx := (File.below_child hc).trans (below_of_mem_sitesWithin hx).1
  have hby := (File.below_child hc').trans (below_of_mem_sitesWithin hy).1
  have heq : b = b' := by
    rcases h.below_or_below hbx (hsame ▸ hby) with hbelow | hbelow
    · exact eq_of_block_below h hs hb hc hx hb' hreached' hbelow (hsame ▸ hby)
    · exact (eq_of_block_below h hs hb' hc' hy hb hreached hbelow (hsame ▸ hbx)).symm
  subst heq
  exact node_of_block h hs hb hb' hkind hkind'

/-! ### The nearest block -/

/-- The search reaches every site that nothing closed stands above. -/
theorem exists_site_of_open (deferred : Bool) {i s : Nat} (hbelow : f.Below i s)
    (hopen : ∀ g, f.Below i g → f.Below g s → closed f g = false)
    (hsite : isSite (f.form s) = true) : ∃ x ∈ sitesWithin f deferred i, x.node = s := by
  induction deferred, i using sitesWithin.induct f with
  | case1 deferred i form later hskip =>
    have hclosed : closed f i = true := by simpa [closed, form] using (Bool.and_eq_true_iff.mp hskip).2
    rw [hopen i (File.below_refl f i) hbelow] at hclosed
    cases hclosed
  | case2 deferred i form later hskip ih =>
    unfold sitesWithin
    rw [if_neg hskip]
    rcases hbelow.cases with rfl | ⟨c, hc, hcs⟩
    · rw [if_pos hsite]
      exact ⟨_, List.mem_append_right _ List.mem_cons_self, rfl⟩
    · obtain ⟨x, hx, hnode⟩ := ih c (h.bounds hc) hcs fun g hg =>
        hopen g ((File.below_child hc).trans hg)
      refine ⟨x, List.mem_append_left _ (List.mem_flatMap.mpr ⟨c, hc, ?_⟩), hnode⟩
      rw [if_pos (h.bounds hc)]
      exact hx

/-- What is searched for among the nodes above a node stands above it, and nothing else of its sort
in between. -/
theorem child_of_find?_ancestors {wanted : Nat → Bool} {s b : Nat}
    (hfind : (f.ancestors s).find? wanted = some b) :
    ∃ c ∈ f.children b, f.Below c s ∧
      ∀ g, f.Below c g → f.Below g s → g = s ∨ wanted g = false := by
  induction s using Nat.strongRecOn with
  | ind s ih =>
    rw [File.ancestors] at hfind
    split at hfind
    · cases hfind
    · rename_i p hparent
      have hs := h.parents.mp hparent
      rw [if_pos (h.bounds hs).1] at hfind
      by_cases hp : wanted p = true
      · rw [List.find?_cons_of_pos hp] at hfind
        cases hfind
        exact ⟨s, hs, File.below_refl f s, fun g hsg hgs =>
          .inl (Nat.le_antisymm (h.le_of_below hgs) (h.le_of_below hsg))⟩
      · rw [List.find?_cons_of_neg hp] at hfind
        obtain ⟨c, hc, hcp, hnone⟩ := ih p (h.bounds hs).1 hfind
        refine ⟨c, hc, hcp.trans (File.below_child hs), fun g hcg hgs => ?_⟩
        rcases h.below_parent hs hgs with heq | hgp
        · exact .inl heq
        · rcases hnone g hcg hgp with rfl | hg
          · exact .inr (by simpa using hp)
          · exact .inr hg

/-- What is above a node that is reached is reached. -/
theorem inUntraced_of_above {i s : Nat} (hbelow : f.Below i s) (hs : inUntraced f s = false) :
    inUntraced f i = false := by
  induction hbelow with
  | refl => exact hs
  | tail _ hc ih => exact ih (inUntraced_parent h hc hs)

end Linked

/-- The nearest block, body of a constructor or class body around a node. -/
def enclosing? (f : File) (i : Nat) : Option Nat :=
  (f.ancestors i).find? fun a => closed f a || f.form a == .constructorBody

section Parsed
variable {path text : String}

/-- The body of a constructor is that of the node around it. -/
theorem declaration_of_constructorBody {p b : Nat} (hb : b ∈ (parse path text).children p)
    (hform : (parse path text).form b = .constructorBody) :
    (parse path text).form p = .constructorDeclaration ∧
      (parse path text).child? p .body = some b := by
  obtain ⟨root, hat, hsize, hhoused⟩ : ∃ root, At (parse path text).nodes none 0 root ∧
      (parse path text).nodes.size = root.size ∧
        Rule.AllHoused .constructorBody .constructorDeclaration .body root := by
    obtain ⟨ts, hnodes, hts⟩ := parse_eq path text
    rw [hnodes]
    refine ⟨_, at_ofTree _, size_ofTree _, ?_⟩
    rcases hts with rfl | hread
    · exact .node (fun c hc => nomatch hc) fun t ht => nomatch ht
    · exact Grammar.housed_rootOf hread
  obtain ⟨parent, v, hv, hshows⟩ := exists_part hat hsize (lt_size_of_child hb)
  have hnumber := hb
  rw [hshows.children] at hnumber
  obtain ⟨t, ht, hchild, hfields⟩ := exists_of_numbers hshows.inner hnumber
  rw [(shows_of_at hchild).form] at hform
  obtain ⟨howner, hslot⟩ := hhoused v hv t ht hform
  have hp := hshows.form.trans howner
  refine ⟨hp, parse_oneBody path text (.inl (by rw [hp]; rfl)) ?_⟩
  rw [hshows.fields]
  exact hfields _ hslot

/-- Every block and every body of a constructor that is reached is that of a trace point. -/
theorem exists_unit_of_block {b c : Nat} (hc : c ∈ (parse path text).children b)
    (hform : (parse path text).form b = .block ∨ (parse path text).form b = .constructorBody)
    (hreached : inUntraced (parse path text) b = false) :
    ∃ i kind, kind? (parse path text) i = some kind ∧ inUntraced (parse path text) i = false ∧
      probeBlock? (parse path text) i kind = some b := by
  have hl := parse_linked path text
  have hsize := lt_size_of_child hc
  have hpos : 0 < b := by
    refine Nat.pos_of_ne_zero fun hzero => ?_
    rw [hzero, parse_form_root] at hform
    rcases hform with hform | hform <;> cases hform
  rcases hform with hform | hform
  · obtain ⟨x, hx, hblock, _⟩ := exists_placement_of_block hl (parse_shaped path text)
      (parse_oneBody path text) hpos hsize hform hreached
    exact ⟨x.node, x.kind, (mem_placements hx).2.1, (mem_placements hx).2.2, hblock⟩
  · obtain ⟨p, hp⟩ := hl.rooted hpos hsize
    obtain ⟨hdeclaration, hbody⟩ := declaration_of_constructorBody hp hform
    refine ⟨p, .constructor, ?_, inUntraced_parent hl hp hreached, hbody⟩
    unfold kind?
    rw [hdeclaration, hbody]
    rfl

/-- The nearest block around a call that runs in its turn is that of the call's trace point. -/
theorem exists_unit {s b : Nat} (hsite : isSite ((parse path text).form s) = true)
    (hreached : inUntraced (parse path text) s = false)
    (hordinary : ∀ a ∈ (parse path text).ancestors s,
      (parse path text).form a ≠ .explicitConstructorInvocation)
    (hb : enclosing? (parse path text) s = some b)
    (hclass : (parse path text).form b ≠ .classBody) :
    ∃ i kind, kind? (parse path text) i = some kind ∧ inUntraced (parse path text) i = false ∧
      ∃ x ∈ scopeSites (parse path text) i kind, x.node = s := by
  have hl := parse_linked path text
  obtain ⟨c, hc, hcs, hbetween⟩ := child_of_find?_ancestors hl hb
  have hform : (parse path text).form b = .block ∨
      (parse path text).form b = .constructorBody := by
    have hwanted := List.find?_some hb
    simpa [closed, hclass] using hwanted
  obtain ⟨i, kind, hkind, hi, hblock⟩ := exists_unit_of_block hc hform
    (inUntraced_of_above hl ((File.below_child hc).trans hcs) hreached)
  have hopen : ∀ g, (parse path text).Below c g → (parse path text).Below g s →
      closed (parse path text) g = false := by
    intro g hcg hgs
    rcases hbetween g hcg hgs with rfl | hother
    · refine Bool.eq_false_iff.mpr fun hclosed => ?_
      rcases Bool.or_eq_true_iff.mp hclosed with hform | hform <;>
        · rw [beq_iff_eq.mp hform] at hsite
          cases hsite
    · exact (Bool.or_eq_false_iff.mp hother).1
  obtain ⟨x, hx, hnode⟩ := exists_site_of_open hl false hcs hopen hsite
  refine ⟨i, kind, hkind, hi, x, List.mem_flatMap.mpr ⟨c, ?_, hx⟩, hnode⟩
  rw [scopeStatements, scopeBody?, hblock]
  refine List.mem_filter.mpr ⟨hc, ?_⟩
  rcases List.mem_cons.mp (hl.mem_ancestors hcs) with rfl | habove
  · refine bne_iff_ne.mpr fun hform => ?_
    rw [hform] at hsite
    cases hsite
  · exact bne_iff_ne.mpr (hordinary c habove)

end Parsed

/-! ### Ids -/

theorem lt_size_of_kind? {f : File} (h : f.Linked) {i : Nat} {kind : PointKind} {x : Site}
    (hkind : kind? f i = some kind) (hx : x ∈ scopeSites f i kind) : i < f.nodes.size := by
  obtain ⟨b, c, hb, hc, _⟩ := statement_of_site hkind hx
  rcases hb.child h with rfl | hchild
  · exact lt_size_of_child hc
  · exact lt_size_of_child hchild

/-- The node is collected as a site of the trace point with this id, at once or deferred. -/
def SiteOf (p : Project) (id : Nat) (r : Ref) : Prop :=
  ∃ point, (PointMap.ofProject p).get? id = some point ∧ point.ref.file = r.file ∧
    ∃ x ∈ scopeSites (p.file r.file) point.ref.node point.kind, x.node = r.node

/-- A node that is a trace point is placed. -/
theorem exists_placement {f : File} {i : Nat} {kind : PointKind} (hi : i < f.nodes.size)
    (hkind : kind? f i = some kind) (hreached : inUntraced f i = false) :
    ∃ x ∈ placements f, x.node = i ∧ x.kind = kind := by
  obtain ⟨b, hblock, _⟩ := holds_of_kind? hkind
  obtain ⟨offset, hoffset⟩ : ∃ offset, probeOffset? f i kind = some offset := by
    unfold probeOffset?
    split
    · exact ⟨_, rfl⟩
    · exact ⟨_, by rw [hblock]; rfl⟩
  refine ⟨⟨i, kind, offset⟩, List.mem_filterMap.mpr ⟨i, List.mem_range.mpr hi, ?_⟩, rfl, rfl⟩
  unfold placement?
  rw [hreached, hkind, Option.bind_some, hoffset]
  rfl

/-- A node that is a trace point has an id. -/
theorem exists_id {p : Project} {k i : Nat} {kind : PointKind} (hi : i < (p.file k).nodes.size)
    (hkind : kind? (p.file k) i = some kind) (hreached : inUntraced (p.file k) i = false) :
    ∃ id, (PointMap.ofProject p).get? id = some ⟨⟨k, i⟩, kind⟩ := by
  obtain ⟨x, hx, rfl, rfl⟩ := exists_placement hi hkind hreached
  obtain ⟨n, hn⟩ := List.mem_iff_getElem?.mp hx
  have hfile : p.fileList[k]? = some (p.file k) := by
    unfold Project.file at hi ⊢
    unfold Project.fileList
    rw [Array.getD_eq_getD_getElem?] at hi ⊢
    rw [Array.getElem?_toList]
    cases hget : p.files[k]? with
    | some f => rfl
    | none =>
      rw [hget] at hi
      exact absurd hi (Nat.not_lt_zero _)
  exact ⟨_, PointMap.get?_ofProject.mpr ⟨k, _, n, x, hfile, hn, rfl, rfl⟩⟩

/-- In a normalized project every call, method reference and object creation is a site of one trace
point at most. It is a site of exactly one when it runs in its turn: it stands in no untraced code
and in no call of another constructor, and the nearest block or class body around it is a block. -/
theorem sites_have_one_unit {sources : List (String × String)} {p : Project}
    (hp : p = Braces.normalize (Project.ofSources sources)) {r : Ref}
    (hsite : isSite ((p.file r.file).form r.node) = true) :
    (∀ {id id'}, SiteOf p id r → SiteOf p id' r → id = id') ∧
    (inUntraced (p.file r.file) r.node = false →
      (∀ a ∈ (p.file r.file).ancestors r.node,
        (p.file r.file).form a ≠ .explicitConstructorInvocation) →
      (∃ b, enclosing? (p.file r.file) r.node = some b ∧ (p.file r.file).form b ≠ .classBody) →
      ∃ id, SiteOf p id r) := by
  obtain ⟨path, text, hfile⟩ : ∃ path text, p.file r.file = parse path text := by
    rcases file_cases p r.file with hmem | hdefault
    · rw [hp, fileList_normalize] at hmem
      obtain ⟨g, _, hg⟩ := List.mem_map.mp hmem
      exact ⟨_, _, by rw [hp]; exact hg.symm⟩
    · rw [hdefault, form_default] at hsite
      cases hsite
  refine ⟨fun {id id'} => ?_, fun hreached hordinary ⟨b, hb, hclass⟩ => ?_⟩
  · rintro ⟨point, hpoint, hf, x, hx, hnode⟩ ⟨point', hpoint', hf', y, hy, hnode'⟩
    have htraced := PointMap.traced_of_get? hpoint
    have htraced' := PointMap.traced_of_get? hpoint'
    obtain ⟨⟨k, i⟩, kind⟩ := point
    obtain ⟨⟨k', j⟩, kind'⟩ := point'
    obtain rfl : k = r.file := hf
    obtain rfl : k' = r.file := hf'
    have hl := parse_linked path text
    have hs := parse_shaped path text
    rw [← hfile] at hl hs
    have hij := unit_of_site hl hs htraced.kind htraced'.kind htraced.reached htraced'.reached hx hy
      (hnode.trans hnode'.symm)
    exact PointMap.id_inj hpoint hpoint' (congrArg (Ref.mk r.file) hij)
  · rw [hfile] at hsite hreached hordinary hb hclass
    obtain ⟨i, kind, hkind, hi, x, hx, hnode⟩ := exists_unit hsite hreached hordinary hb hclass
    have hsize := lt_size_of_kind? (parse_linked path text) hkind hx
    rw [← hfile] at hkind hi hx hsize
    obtain ⟨id, hid⟩ := exists_id hsize hkind hi
    exact ⟨id, _, hid, rfl, x, hx, hnode⟩

/-- Both calls of a loop, in its test and in its body, have their trace point. -/
theorem units_of_test_and_body :
    let p := Braces.normalize (.ofSources [("A.java", "class A{void m(){while(f()){g();}}}")])
    ∀ i ∈ [11, 16], ∃ id, SiteOf p id ⟨0, i⟩ ∧ ∀ id', SiteOf p id' ⟨0, i⟩ → id' = id := by
  intro p i hi
  have hplain : ∀ i ∈ [11, 16], isSite ((p.file 0).form i) = true ∧
      inUntraced (p.file 0) i = false ∧
      (∀ a ∈ (p.file 0).ancestors i, (p.file 0).form a ≠ .explicitConstructorInvocation) ∧
      (enclosing? (p.file 0) i).any fun b => (p.file 0).form b != .classBody := by
    decide +kernel
  obtain ⟨hsite, hreached, hordinary, hblock⟩ := hplain i hi
  obtain ⟨b, hb, hclass⟩ := (Option.any_eq_true _ _).mp hblock
  have hunits := sites_have_one_unit (r := ⟨0, i⟩) rfl hsite
  obtain ⟨id, hid⟩ := hunits.2 hreached hordinary ⟨b, hb, bne_iff_ne.mp hclass⟩
  exact ⟨id, hid, fun id' hid' => hunits.1 hid' hid⟩

end Retrace.Reconstruct
