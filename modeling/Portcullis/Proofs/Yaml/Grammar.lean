/-
  Portcullis.Proofs.Yaml.Grammar — the nodes that the tokens of a tree make up.

  The nodes of a tree get consecutive numbers, a collection before its parts (`Nodes.Stores`).
  - `Grammar.node_tree`: the tokens of a tree make up a node that stores it, and nothing that was
    there before changes.
  - `Grammar.document_table`: so do the tokens of a document.
-/

import Portcullis.Proofs.Yaml.Tokens
import Portcullis.Yaml.Node.Grammar

namespace Portcullis.Yaml

namespace Nodes

variable {ns ns' : Nodes} {r next : Ref} {n : Node}

/-! ## Numbers -/

theorem size_set (ns : Nodes) (r : Ref) (n : Node) : (ns.set r n).size = ns.size := by
  simp [set, size]

theorem get_set_self (h : r < ns.size) : (ns.set r n).get r = n := by
  have hr : r < ns.all.size := h
  simp [set, get, hr]

theorem get_set_ne {i : Ref} (h : i ≠ r) : (ns.set r n).get i = ns.get i := by
  simp [set, get, Array.getD_eq_getD_getElem?, h.symm]

theorem size_add (ns : Nodes) (n : Node) : (ns.add n).2.size = ns.size + 1 := by
  simp [add, size]

theorem get_add_self (ns : Nodes) (n : Node) : (ns.add n).2.get ns.size = n := by
  simp [add, get, size]

theorem get_add_lt {i : Ref} (h : i < ns.size) : (ns.add n).2.get i = ns.get i := by
  have hi : i < ns.all.size := h
  simp [add, get, Array.getD_eq_getD_getElem?, Array.getElem?_push, Nat.ne_of_lt hi]

/-! ## Stored trees -/

mutual

/-- The nodes from one number up to another are those of a tree. -/
def Stores (ns : Nodes) : Tree → Ref → Ref → Prop
  | .text s, r, next => ns.get r = .scalar .text ((valueStyle s.toList).seen s.toList) ∧ next = r + 1
  | .flag b, r, next => ns.get r = .scalar .bool (if b then "true" else "false").toList ∧ next = r + 1
  | .list ts, r, next => ∃ items, ns.get r = .list .seq items ∧ StoresItems ns ts items (r + 1) next
  | .table es, r, next => ∃ entries, ns.get r = .map .map entries ∧ StoresEntries ns es entries (r + 1) next

def StoresItems (ns : Nodes) : List Tree → List Ref → Ref → Ref → Prop
  | [], items, r, next => items = [] ∧ next = r
  | t :: ts, items, r, next => ∃ rest mid, items = r :: rest ∧ Stores ns t r mid ∧ StoresItems ns ts rest mid next

def StoresEntries (ns : Nodes) : List (String × Tree) → List (Ref × Ref) → Ref → Ref → Prop
  | [], entries, r, next => entries = [] ∧ next = r
  | (k, t) :: es, entries, r, next => ∃ rest mid, entries = (r, r + 1) :: rest ∧
      ns.get r = .scalar .text ((keyStyle k.toList).seen k.toList) ∧ Stores ns t (r + 1) mid ∧
      StoresEntries ns es rest mid next

end

mutual

theorem Stores.lt {t : Tree} {r next : Ref} (h : Stores ns t r next) : r < next := by
  match t with
  | .text _ => exact h.2 ▸ Nat.lt_succ_self r
  | .flag _ => exact h.2 ▸ Nat.lt_succ_self r
  | .list ts =>
    obtain ⟨items, -, hts⟩ := h
    exact hts.le
  | .table es =>
    obtain ⟨entries, -, hes⟩ := h
    exact hes.le

theorem StoresItems.le {ts : List Tree} {items : List Ref} {r next : Ref} (h : StoresItems ns ts items r next) :
    r ≤ next := by
  match ts with
  | [] => exact h.2 ▸ Nat.le_refl r
  | t :: ts =>
    obtain ⟨rest, mid, -, ht, hts⟩ := h
    exact ht.lt.le.trans hts.le

theorem StoresEntries.le {es : List (String × Tree)} {entries : List (Ref × Ref)} {r next : Ref}
    (h : StoresEntries ns es entries r next) : r ≤ next := by
  match es with
  | [] => exact h.2 ▸ Nat.le_refl r
  | (k, t) :: es =>
    obtain ⟨rest, mid, -, -, ht, hes⟩ := h
    exact (Nat.le_succ r).trans (ht.lt.le.trans hes.le)

end

mutual

/-- A stored tree is told by its own nodes. -/
theorem Stores.congr {t : Tree} {r next : Ref} (h : Stores ns t r next)
    (hns : ∀ i, r ≤ i → i < next → ns'.get i = ns.get i) : Stores ns' t r next := by
  have hr := hns r (Nat.le_refl r) h.lt
  match t with
  | .text _ => exact ⟨hr.trans h.1, h.2⟩
  | .flag _ => exact ⟨hr.trans h.1, h.2⟩
  | .list ts =>
    obtain ⟨items, hget, hts⟩ := h
    exact ⟨items, hr.trans hget, hts.congr fun i hi => hns i (Nat.le_of_succ_le hi)⟩
  | .table es =>
    obtain ⟨entries, hget, hes⟩ := h
    exact ⟨entries, hr.trans hget, hes.congr fun i hi => hns i (Nat.le_of_succ_le hi)⟩

theorem StoresItems.congr {ts : List Tree} {items : List Ref} {r next : Ref} (h : StoresItems ns ts items r next)
    (hns : ∀ i, r ≤ i → i < next → ns'.get i = ns.get i) : StoresItems ns' ts items r next := by
  match ts with
  | [] => exact h
  | t :: ts =>
    obtain ⟨rest, mid, hitems, ht, hts⟩ := h
    exact ⟨rest, mid, hitems, ht.congr fun i hi hmid => hns i hi (hmid.trans_le hts.le),
      hts.congr fun i hi => hns i (ht.lt.le.trans hi)⟩

theorem StoresEntries.congr {es : List (String × Tree)} {entries : List (Ref × Ref)} {r next : Ref}
    (h : StoresEntries ns es entries r next) (hns : ∀ i, r ≤ i → i < next → ns'.get i = ns.get i) :
    StoresEntries ns' es entries r next := by
  match es with
  | [] => exact h
  | (k, t) :: es =>
    obtain ⟨rest, mid, hentries, hkey, ht, hes⟩ := h
    have hlt : r < next := Nat.lt_of_succ_lt_succ (Nat.succ_lt_succ (ht.lt.le.trans hes.le))
    exact ⟨rest, mid, hentries, (hns r (Nat.le_refl r) hlt).trans hkey,
      ht.congr fun i hi hmid => hns i (Nat.le_of_succ_le hi) (hmid.trans_le hes.le),
      hes.congr fun i hi => hns i ((Nat.le_of_succ_le ht.lt.le).trans hi)⟩

end

end Nodes

namespace Grammar

variable {handles : Handles} {n : Nat} {site : Site} {s s' : Remaining} {r rest : List Token} {i : Ref}

def begun (node : Node) (tokens : List Token) (s : Remaining) : Remaining :=
  { s with tokens, nodes := (s.nodes.add node).2 }

structure Made (s s' : Remaining) (rest : List Token) : Prop where
  tokens : s'.tokens = rest
  anchors : s'.anchors = s.anchors
  size : s.nodes.size ≤ s'.nodes.size
  old : ∀ i < s.nodes.size, s'.nodes.get i = s.nodes.get i

theorem made_begun (node : Node) (rest : List Token) (s : Remaining) : Made s (begun node rest s) rest :=
  ⟨rfl, rfl, by rw [begun, Nodes.size_add]; exact Nat.le_succ _, fun _ hi => Nodes.get_add_lt hi⟩

theorem Made.behind (h : Made { s with tokens := r } s' rest) : Made s s' rest := ⟨h.tokens, h.anchors, h.size, h.old⟩

theorem Made.refl (h : s.tokens = rest) : Made s s rest := ⟨h, rfl, Nat.le_refl _, fun _ _ => rfl⟩

theorem Made.trans {s'' : Remaining} (h : Made s s' r) (h' : Made s' s'' rest) : Made s s'' rest :=
  ⟨h'.tokens, h'.anchors.trans h.anchors, h.size.trans h'.size,
    fun i hi => (h'.old i (hi.trans_le h.size)).trans (h.old i hi)⟩

/-! ## The nodes at their first tokens -/

theorem node_scalar {text : List Char} {plain : Bool} (h : s.tokens = .scalar text plain :: rest) :
    node handles (n + 1) site s =
      .ok (s.nodes.size, begun (.scalar (if plain then implicitTag text else .text) text) rest s) := by
  rw [node]
  simp only [h]
  rfl

theorem node_blockList (h : s.tokens = .blockListStart :: rest) :
    node handles (n + 1) site s =
      (blockItems handles n (begun (.list .seq []) rest s)).map fun p => endList s.nodes.size p.1 p.2 := by
  rw [node]
  simp only [h]
  rfl

theorem node_blockMap (h : s.tokens = .blockMapStart :: rest) :
    node handles (n + 1) site s =
      (blockEntries handles n (begun (.map .map []) rest s)).map fun p => endMap s.nodes.size p.1 p.2 := by
  rw [node]
  simp only [h]
  rfl

theorem node_emptyList (h : s.tokens = .flowListStart :: .flowListEnd :: rest) :
    node handles (n + 2) site s = .ok (endList s.nodes.size [] (begun (.list .seq []) rest s)) := by
  rw [node]
  simp only [h]
  rfl

theorem node_emptyMap (h : s.tokens = .flowMapStart :: .flowMapEnd :: rest) :
    node handles (n + 2) site s = .ok (endMap s.nodes.size [] (begun (.map .map []) rest s)) := by
  rw [node]
  simp only [h]
  rfl

theorem optional_node {absent : Token → Bool} (h : s.tokens.head?.any absent = false) :
    optional handles (n + 1) site absent s = node handles n site s := by
  rw [optional, h]
  rfl

theorem blockItems_end (h : s.tokens = .blockEnd :: rest) :
    blockItems handles (n + 1) s = .ok ([], { s with tokens := rest }) := by
  rw [blockItems]
  simp only [h]

theorem blockEntries_end (h : s.tokens = .blockEnd :: rest) :
    blockEntries handles (n + 1) s = .ok ([], { s with tokens := rest }) := by
  rw [blockEntries]
  simp only [h]

/-! ## Trees -/

def opensContent : Token → Bool
  | .scalar _ _ | .flowListStart | .flowMapStart | .blockListStart | .blockMapStart => true
  | _ => false

theorem opensContent_treeTokens (t : Tree) (rest : List Token) :
    ∃ x r, treeTokens t ++ rest = x :: r ∧ opensContent x = true := by
  rcases t with s | b | (_ | ⟨t, ts⟩) | (_ | ⟨⟨k, t⟩, es⟩)
  all_goals
    rw [treeTokens]
    exact ⟨_, _, rfl, rfl⟩

/-- Where content comes, it is not missing. -/
theorem optional_tree {absent : Token → Bool} (habsent : ∀ x, opensContent x = true → absent x = false) {t : Tree}
    (h : s.tokens = treeTokens t ++ rest) : optional handles (n + 1) site absent s = node handles n site s := by
  obtain ⟨x, r, htokens, hx⟩ := opensContent_treeTokens t rest
  refine optional_node ?_
  rw [h, htokens]
  exact habsent x hx

theorem blockItems_item {s₁ s₂ : Remaining} {item : Ref} {items : List Ref} {t : Tree}
    (h : s.tokens = .item :: (treeTokens t ++ rest))
    (hitem : node handles n .block { s with tokens := treeTokens t ++ rest } = .ok (item, s₁))
    (hitems : blockItems handles (n + 1) s₁ = .ok (items, s₂)) :
    blockItems handles (n + 2) s = .ok (item :: items, s₂) := by
  have hthere : optional handles (n + 1) .block (fun t => t = .item || t = .blockEnd)
      { s with tokens := treeTokens t ++ rest } = node handles n .block { s with tokens := treeTokens t ++ rest } :=
    optional_tree (by intro x hx; cases x <;> first | rfl | cases hx) rfl
  rw [blockItems]
  simp only [h, hthere, hitem]
  show (blockItems handles (n + 1) s₁ >>= _) = _
  rw [hitems]
  rfl

theorem blockEntries_key {s₁ s₂ s₃ : Remaining} {plain : Bool} {text : List Char} {key value : Ref}
    {entries : List (Ref × Ref)} {t : Tree}
    (h : s.tokens = .key :: .scalar text plain :: .value :: (treeTokens t ++ rest))
    (hkey : node handles (n + 1) .entry { s with tokens := .scalar text plain :: .value :: (treeTokens t ++ rest) } =
      .ok (key, { s₁ with tokens := .value :: (treeTokens t ++ rest) }))
    (hvalue : node handles n .entry { s₁ with tokens := treeTokens t ++ rest } = .ok (value, s₂))
    (hentries : blockEntries handles (n + 2) s₂ = .ok (entries, s₃)) :
    blockEntries handles (n + 3) s = .ok ((key, value) :: entries, s₃) := by
  have habsent : ∀ x, opensContent x = true →
      (decide (x = .key) || decide (x = .value) || decide (x = .blockEnd)) = false := by
    intro x hx
    cases x <;> first | rfl | cases hx
  have hthere : optional handles (n + 1) .entry (fun t => t = .key || t = .value || t = .blockEnd)
      { s₁ with tokens := treeTokens t ++ rest } = node handles n .entry { s₁ with tokens := treeTokens t ++ rest } :=
    optional_tree habsent rfl
  have hafter : afterKey handles (n + 2) .entry (fun t => t = .key || t = .value || t = .blockEnd)
      { s₁ with tokens := .value :: (treeTokens t ++ rest) } = .ok (value, s₂) := by
    rw [afterKey]
    exact hthere.trans hvalue
  have hfirst : optional handles (n + 2) .entry (fun t => t = .key || t = .value || t = .blockEnd)
      { s with tokens := .scalar text plain :: .value :: (treeTokens t ++ rest) } =
      .ok (key, { s₁ with tokens := .value :: (treeTokens t ++ rest) }) := (optional_node rfl).trans hkey
  rw [blockEntries]
  simp only [h, hfirst]
  show (afterKey handles (n + 2) .entry _ { s₁ with tokens := .value :: (treeTokens t ++ rest) } >>= _) = _
  rw [hafter]
  show (blockEntries handles (n + 2) s₂ >>= _) = _
  rw [hentries]
  rfl

/-- What is set at its end is the collection alone. -/
theorem Made.set {first : Node} (h : Made (begun first r s) s' rest) (last : Node) :
    Made s { s' with nodes := s'.nodes.set s.nodes.size last } rest ∧
      (s'.nodes.set s.nodes.size last).get s.nodes.size = last ∧ s'.nodes.get s.nodes.size = first ∧
      ∀ i, s.nodes.size + 1 ≤ i → (s'.nodes.set s.nodes.size last).get i = s'.nodes.get i := by
  have hsize : (begun first r s).nodes.size = s.nodes.size + 1 := Nodes.size_add _ _
  have hsizes := h.size
  have hlt : s.nodes.size < s'.nodes.size := by omega
  have hmade := (made_begun first r s).trans h
  refine ⟨⟨h.tokens, h.anchors, ?_, fun i hi => ?_⟩, Nodes.get_set_self hlt, ?_, fun i hi => ?_⟩
  · rw [Nodes.size_set]
    exact hlt.le
  · exact (Nodes.get_set_ne (Nat.ne_of_lt hi)).trans (hmade.old i hi)
  · exact (h.old _ (hsize ▸ Nat.lt_succ_self _)).trans (Nodes.get_add_self _ _)
  · exact Nodes.get_set_ne (Nat.ne_of_gt hi)

theorem plain_textToken (s : String) : textToken s = .scalar ((valueStyle s.toList).seen s.toList) false := by
  unfold textToken
  rcases valueStyle_cases s.toList with ⟨h, -⟩ | h <;> rw [h] <;> rfl

/-- The type of a key is a text in each of its styles. -/
theorem tag_keyToken (k : String) :
    (if decide (keyStyle k.toList = .plain) then implicitTag ((keyStyle k.toList).seen k.toList) else Tag.text) =
      .text := by
  unfold keyStyle
  simp only
  split
  · rename_i h
    simp only [Bool.and_eq_true, decide_eq_true_eq] at h
    exact h.1
  · split <;> rfl

theorem endList_eq (h : s.nodes.get i = .list .seq []) (items : List Ref) :
    endList i items s = (i, { s with nodes := s.nodes.set i (.list .seq items) }) := by
  unfold endList Nodes.tag
  rw [h]
  rfl

theorem endMap_eq (h : s.nodes.get i = .map .map []) (entries : List (Ref × Ref)) :
    endMap i entries s = (i, { s with nodes := s.nodes.set i (.map .map entries) }) := by
  unfold endMap Nodes.tag
  rw [h]
  rfl

mutual

/-- The tokens of a tree make up a node that stores it. -/
theorem node_tree (t : Tree) (site : Site) {n : Nat} {s : Remaining} {rest : List Token}
    (hn : 3 * (treeTokens t).length ≤ n) (h : s.tokens = treeTokens t ++ rest) :
    ∃ s', node handles n site s = .ok (s.nodes.size, s') ∧ Made s s' rest ∧
      s'.nodes.Stores t s.nodes.size s'.nodes.size := by
  match t with
  | .text x =>
    obtain ⟨m, rfl⟩ : ∃ m, n = m + 1 := ⟨n - 1, by simp only [treeTokens, List.length_singleton] at hn; omega⟩
    rw [treeTokens, plain_textToken] at h
    exact ⟨_, node_scalar h, made_begun _ _ _, Nodes.get_add_self _ _, Nodes.size_add _ _⟩
  | .flag b =>
    obtain ⟨m, rfl⟩ : ∃ m, n = m + 1 := ⟨n - 1, by simp only [treeTokens, List.length_singleton] at hn; omega⟩
    rw [treeTokens, flagToken] at h
    have htag : implicitTag (if b then "true" else "false").toList = .bool := by cases b <;> decide
    refine ⟨_, node_scalar h, made_begun _ _ _, ?_, Nodes.size_add _ _⟩
    rw [if_pos rfl, htag]
    exact Nodes.get_add_self _ _
  | .list [] =>
    obtain ⟨m, rfl⟩ : ∃ m, n = m + 2 := ⟨n - 2, by simp [treeTokens] at hn; omega⟩
    obtain ⟨hset, hget, hfirst, -⟩ := (Made.refl (s := begun (.list .seq []) rest s) rfl).set (.list .seq [])
    refine ⟨_, ?_, hset, [], hget, rfl, ?_⟩
    · exact (node_emptyList h).trans (congrArg Except.ok (endList_eq hfirst []))
    · rw [Nodes.size_set]
      exact Nodes.size_add _ _
  | .table [] =>
    obtain ⟨m, rfl⟩ : ∃ m, n = m + 2 := ⟨n - 2, by simp [treeTokens] at hn; omega⟩
    obtain ⟨hset, hget, hfirst, -⟩ := (Made.refl (s := begun (.map .map []) rest s) rfl).set (.map .map [])
    refine ⟨_, ?_, hset, [], hget, rfl, ?_⟩
    · exact (node_emptyMap h).trans (congrArg Except.ok (endMap_eq hfirst []))
    · rw [Nodes.size_set]
      exact Nodes.size_add _ _
  | .list (t :: ts) =>
    have htokens : treeTokens (.list (t :: ts)) = .blockListStart :: (itemTokens (t :: ts) ++ [.blockEnd]) := by
      simp [treeTokens, itemTokens]
    have hstart : s.tokens = .blockListStart :: (itemTokens (t :: ts) ++ .blockEnd :: rest) := by simp [h, htokens]
    rw [htokens, List.length_cons, List.length_append] at hn
    obtain ⟨m, rfl⟩ : ∃ m, n = m + 1 := ⟨n - 1, by omega⟩
    obtain ⟨items, s₁, hitems, hmade, hstores⟩ := blockItems_trees (t :: ts) (n := m)
      (s := begun (.list .seq []) (itemTokens (t :: ts) ++ .blockEnd :: rest) s) (by omega) rfl
    obtain ⟨hset, hget, hfirst, hkeep⟩ := hmade.set (.list .seq items)
    rw [begun, Nodes.size_add] at hstores
    refine ⟨_, ?_, hset, items, hget, ?_⟩
    · rw [node_blockList hstart, hitems]
      exact congrArg Except.ok (endList_eq hfirst items)
    · rw [Nodes.size_set]
      exact hstores.congr fun i hi _ => hkeep i hi
  | .table ((k, t) :: es) =>
    have htokens : treeTokens (.table ((k, t) :: es)) =
        .blockMapStart :: (entryTokens ((k, t) :: es) ++ [.blockEnd]) := by
      simp [treeTokens, entryTokens]
    have hstart : s.tokens = .blockMapStart :: (entryTokens ((k, t) :: es) ++ .blockEnd :: rest) := by simp [h, htokens]
    rw [htokens, List.length_cons, List.length_append] at hn
    obtain ⟨m, rfl⟩ : ∃ m, n = m + 1 := ⟨n - 1, by omega⟩
    obtain ⟨entries, s₁, hentries, hmade, hstores⟩ := blockEntries_trees ((k, t) :: es) (n := m)
      (s := begun (.map .map []) (entryTokens ((k, t) :: es) ++ .blockEnd :: rest) s) (by omega) rfl
    obtain ⟨hset, hget, hfirst, hkeep⟩ := hmade.set (.map .map entries)
    rw [begun, Nodes.size_add] at hstores
    refine ⟨_, ?_, hset, entries, hget, ?_⟩
    · rw [node_blockMap hstart, hentries]
      exact congrArg Except.ok (endMap_eq hfirst entries)
    · rw [Nodes.size_set]
      exact hstores.congr fun i hi _ => hkeep i hi

theorem blockItems_trees (ts : List Tree) {n : Nat} {s : Remaining} {rest : List Token}
    (hn : 3 * (itemTokens ts).length + 1 ≤ n) (h : s.tokens = itemTokens ts ++ .blockEnd :: rest) :
    ∃ items s', blockItems handles n s = .ok (items, s') ∧ Made s s' rest ∧
      s'.nodes.StoresItems ts items s.nodes.size s'.nodes.size := by
  match ts with
  | [] =>
    obtain ⟨m, rfl⟩ : ∃ m, n = m + 1 := ⟨n - 1, by omega⟩
    exact ⟨[], _, blockItems_end h, ⟨rfl, rfl, Nat.le_refl _, fun _ _ => rfl⟩, rfl, rfl⟩
  | t :: ts =>
    have htokens : itemTokens (t :: ts) = .item :: (treeTokens t ++ itemTokens ts) := by simp [itemTokens]
    have hstart : s.tokens = .item :: (treeTokens t ++ (itemTokens ts ++ .blockEnd :: rest)) := by simp [h, htokens]
    rw [htokens, List.length_cons, List.length_append] at hn
    obtain ⟨m, rfl⟩ : ∃ m, n = m + 2 := ⟨n - 2, by omega⟩
    obtain ⟨s₁, hitem, hmade₁, ht⟩ := node_tree t .block (n := m)
      (s := { s with tokens := treeTokens t ++ (itemTokens ts ++ .blockEnd :: rest) }) (by omega) rfl
    obtain ⟨items, s₂, hitems, hmade₂, hts⟩ := blockItems_trees ts (n := m + 1) (by omega) hmade₁.tokens
    exact ⟨_, _, blockItems_item hstart hitem hitems, (hmade₁.trans hmade₂).behind, items, s₁.nodes.size, rfl,
      ht.congr fun i _ hi => hmade₂.old i hi, hts⟩

theorem blockEntries_trees (es : List (String × Tree)) {n : Nat} {s : Remaining} {rest : List Token}
    (hn : 3 * (entryTokens es).length + 1 ≤ n) (h : s.tokens = entryTokens es ++ .blockEnd :: rest) :
    ∃ entries s', blockEntries handles n s = .ok (entries, s') ∧ Made s s' rest ∧
      s'.nodes.StoresEntries es entries s.nodes.size s'.nodes.size := by
  match es with
  | [] =>
    obtain ⟨m, rfl⟩ : ∃ m, n = m + 1 := ⟨n - 1, by omega⟩
    exact ⟨[], _, blockEntries_end h, ⟨rfl, rfl, Nat.le_refl _, fun _ _ => rfl⟩, rfl, rfl⟩
  | (k, t) :: es =>
    have htokens : entryTokens ((k, t) :: es) = .key :: keyToken k :: .value :: (treeTokens t ++ entryTokens es) := by
      simp [entryTokens]
    have hstart : s.tokens =
        .key :: keyToken k :: .value :: (treeTokens t ++ (entryTokens es ++ .blockEnd :: rest)) := by simp [h, htokens]
    rw [htokens, List.length_cons, List.length_cons, List.length_cons, List.length_append] at hn
    obtain ⟨m, rfl⟩ : ∃ m, n = m + 3 := ⟨n - 3, by omega⟩
    let behind := treeTokens t ++ (entryTokens es ++ .blockEnd :: rest)
    let key : Node := .scalar .text ((keyStyle k.toList).seen k.toList)
    let s₁ := begun key (.value :: behind) s
    have hkey : node handles (m + 1) .entry { s with tokens := keyToken k :: .value :: behind } =
        .ok (s.nodes.size, { s₁ with tokens := .value :: behind }) := by
      rw [keyToken, node_scalar rfl, tag_keyToken]
      rfl
    obtain ⟨s₂, hvalue, hmade₂, ht⟩ := node_tree t .entry (n := m) (s := { s₁ with tokens := behind }) (by omega) rfl
    obtain ⟨entries, s₃, hentries, hmade₃, hes⟩ := blockEntries_trees es (n := m + 2) (by omega) hmade₂.tokens
    have hmade := hmade₂.behind.trans hmade₃
    have hsize : s₁.nodes.size = s.nodes.size + 1 := Nodes.size_add _ _
    refine ⟨_, _, blockEntries_key hstart hkey hvalue hentries, (made_begun key _ s).trans hmade, entries,
      s₂.nodes.size, ?_, ?_, ?_, hes⟩
    · exact congrArg (fun i => (s.nodes.size, i) :: entries) hsize
    · exact (hmade.old _ (hsize ▸ Nat.lt_succ_self _)).trans (Nodes.get_add_self _ _)
    · rw [← hsize]
      exact ht.congr fun i _ hi => hmade₃.old i hi

end

/-- The tokens of a document make up its table. -/
theorem document_table {e : String × Tree} {es : List (String × Tree)} {tokens : List Token}
    (h : tokens = treeTokens (.table (e :: es)) ++ [.streamEnd]) :
    ∃ ns, document tokens = .ok (0, ns) ∧ ns.Stores (.table (e :: es)) 0 ns.size := by
  have hlength : 3 * (treeTokens (.table (e :: es))).length ≤ enough tokens := by
    rw [h, enough, List.length_append]
    omega
  obtain ⟨s, hs, hmade, hstores⟩ := @node_tree commonHandles (.table (e :: es)) .block _ { tokens } _ hlength h
  obtain ⟨r, htokens⟩ : ∃ r, tokens = .blockMapStart :: r := ⟨_, h.trans (by rw [treeTokens]; rfl)⟩
  refine ⟨s.nodes, ?_, hstores⟩
  rw [htokens] at hs ⊢
  unfold document
  simp only [List.head?_cons, Option.any_some, reduceCtorEq, decide_false, Bool.or_false, Bool.false_eq_true, if_false]
  rw [hs]
  have hbehind : s.tokens.dropWhile (· = .documentEnd) = [.streamEnd] := by rw [hmade.tokens]; rfl
  simp only [bind, Except.bind, hbehind]
  rfl

end Grammar

end Portcullis.Yaml
