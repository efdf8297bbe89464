import Retrace.Json.Outline
import Retrace.Proofs.Json.Tokens

/-! What is written is read.

A value has its tokens and its outline. Compact or with every item on its own line, a text of a
value is spelt with its tokens (`spells_compact`, `spells_pretty`), and the outline that is built
from them is the value's (`build_tokens`). So a value is read back as a whole and with nothing
behind it (`ofText_write`). -/
namespace Retrace.Json
open Token

namespace Value

mutual

/-- The numbers in the value are whole and not negative, and long words can hold them. -/
def Natural : Value → Prop
  | .number n => ∃ k < Limit.long, n = .whole k
  | .array items => NaturalItems items
  | .object members => NaturalMembers members
  | _ => True

def NaturalItems : List Value → Prop
  | [] => True
  | v :: rest => Natural v ∧ NaturalItems rest

def NaturalMembers : List (String × Value) → Prop
  | [] => True
  | m :: rest => NaturalMember m ∧ NaturalMembers rest

def NaturalMember : String × Value → Prop
  | (_, v) => Natural v

end

theorem naturalItems_of_forall {items : List Value} (h : ∀ v ∈ items, v.Natural) :
    NaturalItems items := by
  induction items with
  | nil => trivial
  | cons v rest ih =>
    obtain ⟨hv, hrest⟩ := List.forall_mem_cons.mp h
    exact ⟨hv, ih hrest⟩

theorem naturalMembers_of_forall {members : List (String × Value)}
    (h : ∀ m ∈ members, m.2.Natural) : NaturalMembers members := by
  induction members with
  | nil => trivial
  | cons m rest ih =>
    obtain ⟨k, v⟩ := m
    obtain ⟨hv, hrest⟩ := List.forall_mem_cons.mp h
    exact ⟨hv, ih hrest⟩

mutual

def tokens : Value → List Token
  | .null => [.null]
  | .bool b => [.bool b]
  | .number n => [ofNumber n]
  | .string s => [ofString s]
  | .array items => .openArray :: itemTokens [] items ++ [.closeArray]
  | .object members => .openObject :: memberTokens [] members ++ [.closeObject]

def itemTokens (lead : List Token) : List Value → List Token
  | [] => []
  | v :: rest => lead ++ tokens v ++ itemTokens [.comma] rest

def memberTokens (lead : List Token) : List (String × Value) → List Token
  | [] => []
  | m :: rest => lead ++ tokensOfMember m ++ memberTokens [.comma] rest

def tokensOfMember : String × Value → List Token
  | (k, v) => ofString k :: .colon :: tokens v

end

mutual

def outline : Value → Outline
  | .null => .null
  | .bool b => .bool b
  | .number n => .number ⟨.ok n, none⟩
  | .string s => .string ⟨.ok s, none⟩
  | .array items => .array (itemOutlines items)
  | .object members => .object (memberOutlines members)

def itemOutlines : List Value → Items
  | [] => .done none
  | v :: rest => .item (outline v) (itemOutlines rest)

def memberOutlines : List (String × Value) → Members
  | [] => .done none
  | m :: rest => .member ⟨.ok m.1, none⟩ (outlineOfMember m) (memberOutlines rest)

def outlineOfMember : String × Value → Outline
  | (_, v) => outline v

end

end Value

/-! ### Texts and their tokens -/

/-- The tokens may be put in front of any others. -/
def Leads (lead : List Char) (tokens : List Token) : Prop :=
  ∀ {cs ts}, Spells cs ts → Spells (lead ++ cs) (tokens ++ ts)

theorem leads_nil : Leads [] [] := fun h => h

theorem leads_comma : Leads [','] [.comma] := .mark rfl

theorem stops_cons {c : Char} {cs : List Char}
    (h : c.isDigit = false ∧ c ≠ '.' ∧ Numeral.isExponentMark c = false) : Stops (c :: cs) := by
  intro d hd
  cases hd
  exact h

theorem stops_compactItems {items : List Value} {cs : List Char} (h : Stops cs) :
    Stops (compactItems [','] items ++ cs) := by
  cases items with
  | nil => exact h
  | cons v rest => exact stops_cons (by decide)

theorem stops_compactMembers {members : List (String × Value)} {cs : List Char} (h : Stops cs) :
    Stops (compactMembers [','] members ++ cs) := by
  cases members with
  | nil => exact h
  | cons m rest => exact stops_cons (by decide)

mutual

/-- Without white space a value is spelt with its tokens. -/
theorem spells_compact {v : Value} (hv : v.Natural) {cs : List Char} {ts : List Token}
    (hstops : Stops cs) (h : Spells cs ts) : Spells (compactChars v ++ cs) (v.tokens ++ ts) := by
  cases v with
  | null => exact .null h
  | bool b => exact .bool b h
  | number n =>
    obtain ⟨k, hk, rfl⟩ := hv
    exact .number hk hstops h
  | string s => exact .string s h
  | array items =>
    rw [compactChars, Value.tokens]
    simp only [List.cons_append, List.append_assoc]
    exact .mark rfl (spells_compactItems hv leads_nil (stops_cons (by decide)) (.mark rfl h))
  | object members =>
    rw [compactChars, Value.tokens]
    simp only [List.cons_append, List.append_assoc]
    exact .mark rfl (spells_compactMembers hv leads_nil (stops_cons (by decide)) (.mark rfl h))

theorem spells_compactItems {items : List Value} (hitems : Value.NaturalItems items)
    {lead : List Char} {tokens : List Token} (hlead : Leads lead tokens) {cs : List Char}
    {ts : List Token} (hstops : Stops cs) (h : Spells cs ts) :
    Spells (compactItems lead items ++ cs) (Value.itemTokens tokens items ++ ts) := by
  cases items with
  | nil => exact h
  | cons v rest =>
    obtain ⟨hv, hrest⟩ := hitems
    rw [compactItems, Value.itemTokens]
    simp only [List.append_assoc]
    exact hlead (spells_compact hv (stops_compactItems hstops)
      (spells_compactItems hrest leads_comma hstops h))

theorem spells_compactMembers {members : List (String × Value)}
    (hmembers : Value.NaturalMembers members) {lead : List Char} {tokens : List Token}
    (hlead : Leads lead tokens) {cs : List Char} {ts : List Token} (hstops : Stops cs)
    (h : Spells cs ts) :
    Spells (compactMembers lead members ++ cs) (Value.memberTokens tokens members ++ ts) := by
  cases members with
  | nil => exact h
  | cons m rest =>
    obtain ⟨hm, hrest⟩ := hmembers
    rw [compactMembers, Value.memberTokens]
    simp only [List.append_assoc]
    exact hlead (spells_compactMember hm (stops_compactMembers hstops)
      (spells_compactMembers hrest leads_comma hstops h))

theorem spells_compactMember {m : String × Value} (hm : Value.NaturalMember m) {cs : List Char}
    {ts : List Token} (hstops : Stops cs) (h : Spells cs ts) :
    Spells (compactMember m ++ cs) (Value.tokensOfMember m ++ ts) := by
  obtain ⟨k, v⟩ := m
  rw [compactMember, Value.tokensOfMember]
  simp only [List.append_assoc, List.cons_append]
  exact .string k (.mark rfl (spells_compact hm hstops h))

end

theorem spells_newLine (level : Nat) {cs : List Char} {ts : List Token} (h : Spells cs ts) :
    Spells (newLine level ++ cs) ts := by
  refine .blank rfl ?_
  induction 2 * level with
  | zero => exact h
  | succ n ih => exact .blank rfl ih

theorem stops_newLine (level : Nat) (cs : List Char) : Stops (newLine level ++ cs) :=
  stops_cons (by decide)

theorem spells_closing {α : Type} (level : Nat) (items : List α) {cs : List Char}
    {ts : List Token} (h : Spells cs ts) : Spells (closing level items ++ cs) ts := by
  unfold closing
  split
  · exact h
  · exact spells_newLine level h

theorem stops_closing {α : Type} (level : Nat) (items : List α) {cs : List Char}
    (h : Stops cs) : Stops (closing level items ++ cs) := by
  unfold closing
  split
  · exact h
  · exact stops_newLine level cs

theorem stops_prettyItems {level : Nat} {items : List Value} {cs : List Char} (h : Stops cs) :
    Stops (prettyItems level [','] items ++ cs) := by
  cases items with
  | nil => exact h
  | cons v rest => exact stops_cons (by decide)

theorem stops_prettyMembers {level : Nat} {members : List (String × Value)} {cs : List Char}
    (h : Stops cs) : Stops (prettyMembers level [','] members ++ cs) := by
  cases members with
  | nil => exact h
  | cons m rest => exact stops_cons (by decide)

mutual

/-- With its items on lines of their own it is spelt with the same tokens. -/
theorem spells_pretty {v : Value} (hv : v.Natural) {level : Nat} {cs : List Char}
    {ts : List Token} (hstops : Stops cs) (h : Spells cs ts) :
    Spells (prettyChars level v ++ cs) (v.tokens ++ ts) := by
  cases v with
  | null => exact .null h
  | bool b => exact .bool b h
  | number n =>
    obtain ⟨k, hk, rfl⟩ := hv
    exact .number hk hstops h
  | string s => exact .string s h
  | array items =>
    rw [prettyChars, Value.tokens]
    simp only [List.cons_append, List.append_assoc]
    exact .mark rfl (spells_prettyItems hv leads_nil
      (stops_closing level items (stops_cons (by decide)))
      (spells_closing level items (.mark rfl h)))
  | object members =>
    rw [prettyChars, Value.tokens]
    simp only [List.cons_append, List.append_assoc]
    exact .mark rfl (spells_prettyMembers hv leads_nil
      (stops_closing level members (stops_cons (by decide)))
      (spells_closing level members (.mark rfl h)))

theorem spells_prettyItems {items : List Value} (hitems : Value.NaturalItems items) {level : Nat}
    {lead : List Char} {tokens : List Token} (hlead : Leads lead tokens) {cs : List Char}
    {ts : List Token} (hstops : Stops cs) (h : Spells cs ts) :
    Spells (prettyItems level lead items ++ cs) (Value.itemTokens tokens items ++ ts) := by
  cases items with
  | nil => exact h
  | cons v rest =>
    obtain ⟨hv, hrest⟩ := hitems
    rw [prettyItems, Value.itemTokens]
    simp only [List.append_assoc]
    exact hlead (spells_newLine level (spells_pretty hv (stops_prettyItems hstops)
      (spells_prettyItems hrest leads_comma hstops h)))

theorem spells_prettyMembers {members : List (String × Value)}
    (hmembers : Value.NaturalMembers members) {level : Nat} {lead : List Char}
    {tokens : List Token} (hlead : Leads lead tokens) {cs : List Char} {ts : List Token}
    (hstops : Stops cs) (h : Spells cs ts) :
    Spells (prettyMembers level lead members ++ cs) (Value.memberTokens tokens members ++ ts) := by
  cases members with
  | nil => exact h
  | cons m rest =>
    obtain ⟨hm, hrest⟩ := hmembers
    rw [prettyMembers, Value.memberTokens]
    simp only [List.append_assoc]
    exact hlead (spells_newLine level (spells_prettyMember hm (stops_prettyMembers hstops)
      (spells_prettyMembers hrest leads_comma hstops h)))

theorem spells_prettyMember {m : String × Value} (hm : Value.NaturalMember m) {level : Nat}
    {cs : List Char} {ts : List Token} (hstops : Stops cs) (h : Spells cs ts) :
    Spells (prettyMember level m ++ cs) (Value.tokensOfMember m ++ ts) := by
  obtain ⟨k, v⟩ := m
  rw [prettyMember, Value.tokensOfMember]
  simp only [List.append_assoc, List.cons_append]
  exact .string k (.mark rfl (.blank rfl (spells_pretty hm hstops h)))

end

theorem tokens_write {v : Value} (hv : v.Natural) (pretty : Bool) :
    Token.tokens (write pretty v) = v.tokens := by
  have hstops : Stops [] := fun _ hc => nomatch hc
  have hcompact : Spells (compactChars v ++ []) (v.tokens ++ []) := spells_compact hv hstops .nil
  have hpretty : Spells (prettyChars 0 v ++ []) (v.tokens ++ []) := spells_pretty hv hstops .nil
  simp only [List.append_nil] at hcompact hpretty
  cases pretty with
  | true => exact tokens_of_spells hpretty
  | false => exact tokens_of_spells hcompact

/-! ### Tokens and their outline -/

namespace Outline

/-- Goes on from where reading stands. -/
def resume (p : Progress) (ts : List Token) : Outline × List Token :=
  match p with
  | .open fs e => build fs e ts
  | .whole v => (v, ts)
  | .cut v => (v, [])

theorem build_cons (fs : List Frame) (e : Expectation) (t : Token) (ts : List Token) :
    build fs e (t :: ts) = resume (advance fs e t) ts := by
  rw [build]
  cases advance fs e t <;> rfl

mutual

/-- Where a value may stand, its tokens are read as its outline. -/
theorem build_tokens (v : Value) {fs : List Frame} {e : Expectation}
    (he : e = .value ∨ e = .firstItem) (ts : List Token) :
    build fs e (v.tokens ++ ts) = resume (settle v.outline fs) ts := by
  cases v with
  | null => exact (build_cons fs e _ ts).trans (by rcases he with rfl | rfl <;> rfl)
  | bool b => exact (build_cons fs e _ ts).trans (by rcases he with rfl | rfl <;> rfl)
  | number n => exact (build_cons fs e _ ts).trans (by rcases he with rfl | rfl <;> rfl)
  | string s => exact (build_cons fs e _ ts).trans (by rcases he with rfl | rfl <;> rfl)
  | array items =>
    have hopen : advance fs e .openArray = .open (.array [] :: fs) .firstItem := by
      rcases he with rfl | rfl <;> rfl
    rw [Value.tokens]
    simp only [List.cons_append, List.append_assoc, List.nil_append]
    rw [build_cons, hopen]
    cases items with
    | nil => exact build_cons (.array [] :: fs) .firstItem .closeArray ts
    | cons v rest =>
      show build (.array [] :: fs) .firstItem _ = _
      rw [Value.itemTokens, List.nil_append, List.append_assoc, build_tokens v (.inr rfl)]
      exact build_itemTokens rest [v.outline] fs ts
  | object members =>
    have hopen : advance fs e .openObject = .open (.object [] none :: fs) .firstName := by
      rcases he with rfl | rfl <;> rfl
    rw [Value.tokens]
    simp only [List.cons_append, List.append_assoc, List.nil_append]
    rw [build_cons, hopen]
    cases members with
    | nil => exact build_cons (.object [] none :: fs) .firstName .closeObject ts
    | cons m rest =>
      show build (.object [] none :: fs) .firstName _ = _
      rw [Value.memberTokens, List.nil_append, List.append_assoc,
        build_tokensOfMember m (.inr rfl)]
      exact build_memberTokens rest [(⟨.ok m.1, none⟩, Value.outlineOfMember m)] fs ts

theorem build_itemTokens (items : List Value) (found : List Outline) (fs : List Frame)
    (ts : List Token) :
    build (.array found :: fs) .next (Value.itemTokens [.comma] items ++ (.closeArray :: ts)) =
      resume (settle (.array (found.foldl (fun rest v => .item v rest)
        (Value.itemOutlines items))) fs) ts := by
  cases items with
  | nil => exact build_cons (.array found :: fs) .next .closeArray ts
  | cons v rest =>
    rw [Value.itemTokens, List.append_assoc, List.append_assoc, List.cons_append, build_cons]
    show build (.array found :: fs) .value _ = _
    rw [List.nil_append, build_tokens v (.inl rfl)]
    exact build_itemTokens rest (v.outline :: found) fs ts

theorem build_memberTokens (members : List (String × Value))
    (found : List (Scan String × Outline)) (fs : List Frame) (ts : List Token) :
    build (.object found none :: fs) .next
        (Value.memberTokens [.comma] members ++ (.closeObject :: ts)) =
      resume (settle (.object (found.foldl (fun rest m => .member m.1 m.2 rest)
        (Value.memberOutlines members))) fs) ts := by
  cases members with
  | nil => exact build_cons (.object found none :: fs) .next .closeObject ts
  | cons m rest =>
    rw [Value.memberTokens, List.append_assoc, List.append_assoc, List.cons_append, build_cons]
    show build (.object found none :: fs) .name _ = _
    rw [List.nil_append, build_tokensOfMember m (.inl rfl)]
    exact build_memberTokens rest ((⟨.ok m.1, none⟩, Value.outlineOfMember m) :: found) fs ts

/-- A member is taken into the object that is open. -/
theorem build_tokensOfMember (m : String × Value) {found : List (Scan String × Outline)}
    {fs : List Frame} {e : Expectation} (he : e = .name ∨ e = .firstName) (ts : List Token) :
    build (.object found none :: fs) e (Value.tokensOfMember m ++ ts) =
      build (.object ((⟨.ok m.1, none⟩, Value.outlineOfMember m) :: found) none :: fs) .next
        ts := by
  obtain ⟨k, v⟩ := m
  have hname : advance (.object found none :: fs) e (ofString k) =
      .open (.object found (some ⟨.ok k, none⟩) :: fs) .colon := by
    rcases he with rfl | rfl <;> rfl
  rw [Value.tokensOfMember, List.cons_append, build_cons, hname]
  show build _ .colon _ = _
  rw [List.cons_append, build_cons]
  show build _ .value _ = _
  rw [build_tokens v (.inl rfl)]
  rfl

end

end Outline

/-- A text of a value is read as the value and nothing behind it. -/
theorem ofText_write {v : Value} (hv : v.Natural) (pretty : Bool) :
    Outline.ofText (write pretty v) = (v.outline, false) := by
  have hbuild : Outline.build [] .value (v.tokens ++ []) = (v.outline, []) :=
    Outline.build_tokens v (.inl rfl) []
  rw [List.append_nil] at hbuild
  unfold Outline.ofText
  rw [tokens_write hv, hbuild]
  rfl

end Retrace.Json
