import Retrace.Proofs.Reconstruct.Entries
import Retrace.Proofs.Source.Fields

/-! Deferred sites.

A site is deferred when it is collected from within a lambda or the body of an anonymous class
(`deferred_iff`), and only there the search for sites goes on into blocks and class bodies
(`deferred_of_closed`). A site of a trace point that is not deferred is therefore no part of the
setup code of a class (`not_setup_of_site`): between the two would stand a class body, or else a
lambda or an anonymous class around the trace point, which is then none. -/
namespace Retrace.Reconstruct
open Java Source Instrument

/-- The node keeps what stands inside of it for later. -/
def defers (f : File) (g : Nat) : Bool := f.form g == .lambdaExpression || isAnonymousBody f g

/-- The node belongs to other trace points. -/
def closed (f : File) (g : Nat) : Bool := f.form g == .block || f.form g == .classBody

theorem isUntraced_of_defers {f : File} {g : Nat} (h : defers f g = true) :
    isUntraced f g = true := by
  unfold isUntraced
  rcases Bool.or_eq_true_iff.mp h with hform | hbody
  · rw [beq_iff_eq.mp hform]
  · obtain ⟨hform, hparent⟩ := Bool.and_eq_true_iff.mp hbody
    obtain ⟨p, hp, hcreation⟩ := (Option.any_eq_true _ _).mp hparent
    rw [beq_iff_eq.mp hform, hp, Option.map_some, beq_iff_eq.mp hcreation]
    rfl

/-- A site stands in a statement of the block of its trace point. -/
theorem statement_of_site {f : File} {i : Nat} {kind : PointKind} (hkind : kind? f i = some kind)
    {x : Site} (hx : x ∈ scopeSites f i kind) :
    ∃ b c, Holds f i kind b ∧ c ∈ f.children b ∧ f.form c ≠ .explicitConstructorInvocation ∧
      x ∈ sitesWithin f false c := by
  obtain ⟨b, hblock, hb⟩ := holds_of_kind? hkind
  obtain ⟨c, hc, hx⟩ := List.mem_flatMap.mp hx
  rw [scopeStatements, scopeBody?, hblock] at hc
  obtain ⟨hchild, hordinary⟩ := List.mem_filter.mp hc
  exact ⟨b, c, hb, hchild, by simpa using hordinary, hx⟩

section Linked
variable {f : File} (h : f.Linked)
include h

/-! ### Deferral -/

theorem deferred_iff {deferred : Bool} {i : Nat} {x : Site} (hx : x ∈ sitesWithin f deferred i) :
    x.deferred = true ↔
      deferred = true ∨ ∃ g, f.Below i g ∧ f.Below g x.node ∧ defers f g = true := by
  induction deferred, i using sitesWithin.induct f with
  | case1 deferred i form later hskip =>
    unfold sitesWithin at hx
    rw [if_pos hskip] at hx
    cases hx
  | case2 deferred i form later hskip ih =>
    have hlater : later = true ↔ deferred = true ∨ defers f i = true := by
      simp [later, form, defers, or_assoc]
    unfold sitesWithin at hx
    rw [if_neg hskip] at hx
    rcases List.mem_append.mp hx with hx | hx
    · obtain ⟨c, hc, hx⟩ := List.mem_flatMap.mp hx
      split at hx
      · rename_i hbounds
        have hcx := (below_of_mem_sitesWithin hx).1
        rw [ih c hbounds hx, hlater, or_assoc]
        refine or_congr_right ⟨?_, ?_⟩
        · rintro (hi | ⟨g, hg, hgx, hdefers⟩)
          · exact ⟨i, File.below_refl f i, (File.below_child hc).trans hcx, hi⟩
          · exact ⟨g, (File.below_child hc).trans hg, hgx, hdefers⟩
        · rintro ⟨g, hg, hgx, hdefers⟩
          rcases hg.cases with rfl | ⟨d, hd, hdg⟩
          · exact .inl hdefers
          · obtain rfl := h.eq_of_below hd hc (hdg.trans hgx) hcx
            exact .inr ⟨g, hdg, hgx, hdefers⟩
      · cases hx
    · split at hx
      · obtain rfl := List.mem_singleton.mp hx
        refine hlater.trans (or_congr_right ⟨fun hi => ?_, ?_⟩)
        · exact ⟨i, File.below_refl f i, File.below_refl f i, hi⟩
        · rintro ⟨g, hg, hgi, hdefers⟩
          rwa [Nat.le_antisymm (h.le_of_below hg) (h.le_of_below hgi)]
      · cases hx

/-- The search goes on into a closed node only to defer what is found. -/
theorem deferred_of_closed {deferred : Bool} {i g : Nat} {x : Site}
    (hx : x ∈ sitesWithin f deferred i) (hg : f.Below i g) (hgx : f.Below g x.node)
    (hclosed : closed f g = true) :
    deferred = true ∨ ∃ k, f.Below i k ∧ f.Below k g ∧ defers f k = true := by
  induction deferred, i using sitesWithin.induct f with
  | case1 deferred i form later hskip =>
    unfold sitesWithin at hx
    rw [if_pos hskip] at hx
    cases hx
  | case2 deferred i form later hskip ih =>
    have hhere : later = true →
        deferred = true ∨ ∃ k, f.Below i k ∧ f.Below k g ∧ defers f k = true := by
      intro hlater
      simp only [later, form, Bool.or_assoc, Bool.or_eq_true] at hlater
      refine hlater.imp_right fun hi => ⟨i, File.below_refl f i, hg, ?_⟩
      simpa [defers] using hi
    rcases hg.cases with rfl | ⟨d, hd, hdg⟩
    · refine hhere ?_
      by_contra hlater
      exact hskip (by simpa [hlater, form, closed] using hclosed)
    unfold sitesWithin at hx
    rw [if_neg hskip] at hx
    rcases List.mem_append.mp hx with hx | hx
    · obtain ⟨c, hc, hx⟩ := List.mem_flatMap.mp hx
      split at hx
      · rename_i hbounds
        obtain rfl := h.eq_of_below hd hc (hdg.trans hgx) (below_of_mem_sitesWithin hx).1
        rcases ih d hbounds hx hdg with hlater | ⟨k, hk, hkg, hdefers⟩
        · exact hhere hlater
        · exact .inr ⟨k, (File.below_child hc).trans hk, hkg, hdefers⟩
      · cases hx
    · split at hx
      · obtain rfl := List.mem_singleton.mp hx
        have hlt := (h.bounds hd).1
        have hle : d ≤ i := h.le_of_below (hdg.trans hgx)
        omega
      · cases hx

/-- Nothing closed and nothing that defers stands above a site that is not deferred. -/
theorem open_above_site {i g : Nat} {x : Site} (hx : x ∈ sitesWithin f false i)
    (hnow : x.deferred = false) (hg : f.Below i g) (hgx : f.Below g x.node) :
    closed f g = false ∧ defers f g = false := by
  have hnone : ∀ k, f.Below i k → f.Below k x.node → defers f k = false := by
    intro k hk hkx
    refine Bool.eq_false_iff.mpr fun hdefers => ?_
    rw [(deferred_iff h hx).mpr (.inr ⟨k, hk, hkx, hdefers⟩)] at hnow
    cases hnow
  refine ⟨Bool.eq_false_iff.mpr fun hclosed => ?_, hnone g hg hgx⟩
  rcases deferred_of_closed h hx hg hgx hclosed with hfalse | ⟨k, hk, hkg, hdefers⟩
  · cases hfalse
  · rw [hnone k hk (hkg.trans hgx)] at hdefers
    cases hdefers

/-! ### Setup code -/

omit h in
/-- The setup code of a class stands in its body: it is a declarator of a field, or what a
constructor begins with. -/
theorem place_of_setup {k e : Nat} (he : e ∈ setupExpressions f k) :
    ∃ b m, f.child? k .body = some b ∧ m ∈ f.children b ∧
      (f.form m = .fieldDeclaration ∧ e ∈ f.children m ∧ f.form e = .variableDeclarator ∨
        f.form m = .constructorDeclaration ∧ f.form e = .explicitConstructorInvocation ∧
          ∃ body, f.child? m .body = some body ∧ e ∈ f.children body) := by
  obtain ⟨m, hm, he⟩ := List.mem_flatMap.mp he
  obtain ⟨b, hb, hmb⟩ : ∃ b, f.child? k .body = some b ∧ m ∈ f.children b := by
    unfold classMembers at hm
    split at hm
    · exact ⟨_, ‹_›, hm⟩
    · cases hm
  refine ⟨b, m, hb, hmb, ?_⟩
  split at he
  · rename_i hform
    split at he
    · cases he
    · obtain ⟨hchild, hdeclarator⟩ := List.mem_filter.mp he
      exact .inl ⟨hform, hchild, by simpa using hdeclarator⟩
  · rename_i hform
    split at he
    · rename_i body hbody
      obtain ⟨hchild, hinvocation⟩ := List.mem_filter.mp he
      exact .inr ⟨hform, by simpa using hinvocation, body, hbody, hchild⟩
    · cases he
  · cases he

/-- A member of a class stands in a class body. -/
theorem body_of_declaringClass? {i k : Nat} (hclass : declaringClass? f i = some k) :
    ∃ body, i ∈ f.children body ∧ f.form body = .classBody := by
  unfold declaringClass? at hclass
  split at hclass
  · rename_i body hparent
    split at hclass
    · exact ⟨body, h.parents.mp hparent, beq_iff_eq.mp ‹_›⟩
    · cases hclass
  · cases hclass

section Part
variable {e : Nat}

/-- Between a part of the code and a site in it that a closed node holds something defers. -/
theorem exists_defers {g : Nat} {y : Site} (hy : y ∈ sitesWithin f false e) (heg : f.Below e g)
    (hgy : f.Below g y.node) (hclosed : closed f g = true) :
    ∃ k, f.Below k g ∧ defers f k = true := by
  rcases deferred_of_closed h hy heg hgy hclosed with hfalse | ⟨k, _, hkg, hdefers⟩
  · cases hfalse
  · exact ⟨k, hkg, hdefers⟩

theorem inUntraced_of_below {i k : Nat} (hki : f.Below k i) (hk : isUntraced f k = true) :
    inUntraced f i = true :=
  List.any_eq_true.mpr ⟨_, h.mem_ancestors hki, hk⟩

/-- A node whose block holds a site of other code stands where nothing is traced. -/
theorem inUntraced_of_block {i b : Nat} {y : Site} (hform : f.form b = .block)
    (hchild : b = i ∨ b ∈ f.children i) (hy : y ∈ sitesWithin f false e) (heb : f.Below e b)
    (hby : f.Below b y.node) : inUntraced f i = true := by
  obtain ⟨k, hkb, hdefers⟩ := exists_defers h hy heb hby (by rw [closed, hform]; rfl)
  rcases hchild with rfl | hchild
  · exact inUntraced_of_below h hkb (isUntraced_of_defers hdefers)
  · rcases h.below_parent hchild hkb with rfl | hki
    · simp [defers, isAnonymousBody, hform] at hdefers
    · exact inUntraced_of_below h hki (isUntraced_of_defers hdefers)

/-- A trace point stands in a lambda or in an anonymous class, or is a constructor of what is not a
class, when a site in its block is found from a part `e` of the code around it. That part is neither
a member of a class nor the body of a constructor. -/
theorem inUntraced_of_part {i b : Nat} {kind : PointKind} {y : Site}
    (hb : Holds f i kind b) (hy : y ∈ sitesWithin f false e) (heb : f.Below e b)
    (hby : f.Below b y.node) (hplace : ∀ {q}, e ∈ f.children q →
      f.form q ≠ .classBody ∧ f.form q ≠ .constructorDeclaration) : inUntraced f i = true := by
  have hblock : f.form b = .block → b = i ∨ b ∈ f.children i → inUntraced f i = true :=
    fun hform hchild => inUntraced_of_block h hform hchild hy heb hby
  cases hb with
  | itself hform _ => exact hblock hform (.inl rfl)
  | initializer _ hchild hform => exact hblock hform (.inr hchild)
  | method _ hbody hform => exact hblock hform (.inr (h.child_of_child? hbody))
  | loop _ hbody hform => exact hblock hform (.inr (h.child_of_child? hbody))
  | constructor hform hbody =>
    cases hclass : declaringClass? f i with
    | none =>
      refine inUntraced_of_below h (File.below_refl f i) ?_
      rw [isUntraced, hform, hclass]
      rfl
    | some k =>
      -- the body of its class stands below that part as well
      obtain ⟨body, hi, hcbody⟩ := body_of_declaringClass? h hclass
      have hbi := h.child_of_child? hbody
      have hei := (h.below_parent hbi heb).resolve_left fun heq => (hplace (heq ▸ hbi)).2 hform
      have hep := (h.below_parent hi hei).resolve_left fun heq => (hplace (heq ▸ hi)).1 hcbody
      obtain ⟨j, hj, hdefers⟩ := exists_defers h hy hep
        ((File.below_child hi).trans ((File.below_child hbi).trans hby))
        (by rw [closed, hcbody, beq_self_eq_true, Bool.or_true])
      exact inUntraced_of_below h (hj.trans (File.below_child hi)) (isUntraced_of_defers hdefers)

end Part

variable (hf : f.Fielded) (hs : f.Shaped)
include hf hs

/-- A block of a trace point above the setup code of a class is above the body of the class. -/
theorem below_body_of_setup {i b k e c : Nat} {kind : PointKind} (hb : Holds f i kind b)
    (hc : c ∈ f.children b) (hordinary : f.form c ≠ .explicitConstructorInvocation)
    (hk : f.form k = .classDeclaration) (he : e ∈ setupExpressions f k) (hce : f.Below c e) :
    ∃ body, f.form body = .classBody ∧ f.Below c body ∧ f.Below body e := by
  obtain ⟨body, m, hbody, hm, hplace⟩ := place_of_setup he
  have hform := hf.classBody hk hbody
  -- `c` is a child of a block, which none of the nodes from the class body to `e` is
  have hup : ∀ {q d : Nat} {form : Form}, d ∈ f.children q → f.form q = form →
      form ≠ .block ∧ form ≠ .constructorBody → f.Below c d → f.Below c q := by
    intro q d form hd hq hother hcd
    refine (h.below_parent hd hcd).resolve_left ?_
    rintro rfl
    have hparent := h.parents.mpr hd
    rw [h.parents.mpr hc] at hparent
    cases hparent
    exact (hb.form hs).elim (fun hblock => hother.1 (hq.symm.trans hblock))
      fun hblock => hother.2 (hq.symm.trans hblock)
  refine ⟨body, hform, ?_, ?_⟩
  · rcases hplace with ⟨hfield, hem, _⟩ | ⟨hconstructor, hinvocation, part, hpart, hep⟩
    · exact hup hm hform ⟨nofun, nofun⟩ (hup hem hfield ⟨nofun, nofun⟩ hce)
    · have hcp : f.Below c part := by
        refine (h.below_parent hep hce).resolve_left ?_
        rintro rfl
        exact hordinary hinvocation
      exact hup hm hform ⟨nofun, nofun⟩ (hup (h.child_of_child? hpart) hconstructor ⟨nofun, nofun⟩ hcp)
  · rcases hplace with ⟨_, hem, _⟩ | ⟨_, _, part, hpart, hep⟩
    · exact (File.below_child hm).trans (File.below_child hem)
    · exact (File.below_child hm).trans
        ((File.below_child (h.child_of_child? hpart)).trans (File.below_child hep))

/-- No site of a trace point that runs at once is part of the setup code of a class. -/
theorem not_setup_of_site {i k e : Nat} {kind : PointKind} (hkind : kind? f i = some kind)
    (hreached : inUntraced f i = false) {x y : Site} (hx : x ∈ scopeSites f i kind)
    (hnow : x.deferred = false) (hk : f.form k = .classDeclaration)
    (he : e ∈ setupExpressions f k) (hy : y ∈ sitesWithin f false e) : y.node ≠ x.node := by
  intro hsame
  obtain ⟨b, c, hb, hchild, hordinary, hx⟩ := statement_of_site hkind hx
  have hcx := (below_of_mem_sitesWithin hx).1
  have hey := (below_of_mem_sitesWithin hy).1
  rw [hsame] at hey
  have habove : ¬f.Below c e := by
    intro hce
    obtain ⟨body, hform, hcb, hbe⟩ := below_body_of_setup h hf hs hb hchild hordinary hk he hce
    have hopen := (open_above_site h hx hnow hcb (hbe.trans hey)).1
    rw [closed, hform] at hopen
    cases hopen
  have hec := (h.below_or_below hcx hey).resolve_left habove
  rcases h.below_parent hchild hec with rfl | heb
  · exact habove (File.below_refl f e)
  · obtain ⟨_, _, _, _, hplace⟩ := place_of_setup he
    have hmember : ∀ {q}, e ∈ f.children q →
        f.form q ≠ .classBody ∧ f.form q ≠ .constructorDeclaration := by
      intro q hq
      rcases hplace with ⟨hfield, hem, _⟩ | ⟨hconstructor, _, part, hpart, hep⟩
      · obtain rfl := h.parent_unique hq hem
        rw [hfield]
        exact ⟨nofun, nofun⟩
      · obtain rfl := h.parent_unique hq hep
        rw [hs.constructor hconstructor hpart]
        exact ⟨nofun, nofun⟩
    have huntraced := inUntraced_of_part h hb hy heb
      (hsame ▸ (File.below_child hchild).trans hcx) hmember
    rw [hreached] at huntraced
    cases huntraced

end Linked

end Retrace.Reconstruct
