/-
  Portcullis.Proofs.Yaml.Consumed — what the grammar leaves of its tokens.

  Every function of the grammar takes its tokens from the front, so what it leaves is an end of
  what it was given.
  - `streamEnd_of_document`: a document is made only of a stream that ends, not of one that
    breaks off.
-/

import Portcullis.Yaml.Node.Grammar

namespace Portcullis.Yaml.Grammar

variable {α β : Type} {ts ts' : List Token}

def Leaves (ts : List Token) (x : Except Fault (α × Remaining)) : Prop := ∀ a s, x = .ok (a, s) → s.tokens <:+ ts

theorem leaves_error (f : Fault) : Leaves (α := α) ts (.error f) := by
  rintro a s ⟨⟩

theorem leaves_ok {a : α} {s : Remaining} (h : s.tokens <:+ ts) : Leaves ts (.ok (a, s)) := by
  rintro _ _ ⟨⟩
  exact h

theorem Leaves.mono {x : Except Fault (α × Remaining)} (h : Leaves ts' x) (hts : ts' <:+ ts) : Leaves ts x :=
  fun a s hx => (h a s hx).trans hts

theorem Leaves.bind {x : Except Fault (α × Remaining)} {f : α × Remaining → Except Fault (β × Remaining)}
    (h : Leaves ts x)
    (hf : ∀ a s, s.tokens <:+ ts → Leaves ts (f (a, s))) : Leaves ts (x >>= f) := by
  cases x with
  | error e => exact leaves_error e
  | ok r => exact hf r.1 r.2 (h r.1 r.2 rfl)

/-- A step before the tokens are touched. -/
theorem leaves_bind {γ : Type} {x : Except Fault γ} {f : γ → Except Fault (β × Remaining)}
    (hf : ∀ c, x = .ok c → Leaves ts (f c)) : Leaves ts (x >>= f) := by
  cases x with
  | error e => exact leaves_error e
  | ok c => exact hf c rfl

theorem exists_of_bind {γ δ : Type} {x : Except Fault γ} {f : γ → Except Fault δ} {d : δ} (h : x >>= f = .ok d) :
    ∃ c, x = .ok c ∧ f c = .ok d := by
  cases x with
  | error e => cases h
  | ok c => exact ⟨c, rfl, h⟩

/-! ## Parts of nodes -/

theorem suffix_of_properties {r : Option String × Option TagText × List Token} (h : properties ts = .ok r) :
    r.2.2 <:+ ts := by
  unfold properties at h
  split at h
  · cases h
    exact (List.suffix_cons _ _).trans (List.suffix_cons _ _)
  · cases h
    exact (List.suffix_cons _ _).trans (List.suffix_cons _ _)
  · cases h
  · cases h
  · cases h
    exact List.suffix_cons _ _
  · cases h
    exact List.suffix_cons _ _
  · cases h
    exact List.suffix_rfl

theorem suffix_of_separated {first : Bool} (h : separated first ts = .ok ts') : ts' <:+ ts := by
  unfold separated at h
  split at h
  · cases h
    exact List.suffix_rfl
  · split at h
    · cases h
      exact List.suffix_cons _ _
    · cases h

theorem leaves_start {anchor : Option String} {n : Node} {s : Remaining} (h : ts' <:+ ts) :
    Leaves ts (start anchor n ts' s) :=
  leaves_bind fun _ _ => leaves_ok h

theorem leaves_empty {anchor tag : Option String} {s : Remaining} (h : ts' <:+ ts) :
    Leaves ts (empty anchor tag ts' s) := by
  unfold empty
  split
  · exact leaves_error _
  · split
    · exact leaves_start h
    · exact leaves_error _

theorem leaves_resolve {name : String} {s : Remaining} (h : s.tokens <:+ ts) : Leaves ts (resolve name s) := by
  unfold resolve
  split
  · exact leaves_error _
  · exact leaves_ok h

/-! ## Nodes -/

structure Takes (n : Nat) : Prop where
  optional : ∀ handles site absent s, Leaves s.tokens (optional handles n site absent s)
  node : ∀ handles site s, Leaves s.tokens (node handles n site s)
  blockItems : ∀ handles s, Leaves s.tokens (blockItems handles n s)
  indentless : ∀ handles s, Leaves s.tokens (indentless handles n s)
  blockEntries : ∀ handles s, Leaves s.tokens (blockEntries handles n s)
  afterKey : ∀ handles site absent s, Leaves s.tokens (afterKey handles n site absent s)
  flowItems : ∀ handles first s, Leaves s.tokens (flowItems handles n first s)
  flowEntries : ∀ handles first s, Leaves s.tokens (flowEntries handles n first s)

theorem takes_zero : Takes 0 := by
  constructor <;> intros <;> exact leaves_error _

variable {n : Nat}

theorem Takes.optional_succ (h : Takes n) (handles : Handles) (site : Site) (absent : Token → Bool) (s : Remaining) :
    Leaves s.tokens (Grammar.optional handles (n + 1) site absent s) := by
  rw [Grammar.optional]
  split
  · exact leaves_ok List.suffix_rfl
  · exact h.node handles site s

theorem Takes.blockItems_succ (h : Takes n) (handles : Handles) (s : Remaining) :
    Leaves s.tokens (Grammar.blockItems handles (n + 1) s) := by
  rw [Grammar.blockItems]
  split
  · rename_i r heq
    rw [heq]
    refine ((h.optional _ _ _ _).mono (List.suffix_cons _ r)).bind fun item s₁ hs₁ => ?_
    exact ((h.blockItems _ _).mono hs₁).bind fun items s₂ hs₂ => leaves_ok hs₂
  · rename_i r heq
    rw [heq]
    exact leaves_ok (List.suffix_cons _ r)
  · exact leaves_error _

theorem Takes.indentless_succ (h : Takes n) (handles : Handles) (s : Remaining) :
    Leaves s.tokens (Grammar.indentless handles (n + 1) s) := by
  rw [Grammar.indentless]
  split
  · rename_i r heq
    rw [heq]
    refine ((h.optional _ _ _ _).mono (List.suffix_cons _ r)).bind fun item s₁ hs₁ => ?_
    exact ((h.indentless _ _).mono hs₁).bind fun items s₂ hs₂ => leaves_ok hs₂
  · exact leaves_ok List.suffix_rfl

theorem Takes.blockEntries_succ (h : Takes n) (handles : Handles) (s : Remaining) :
    Leaves s.tokens (Grammar.blockEntries handles (n + 1) s) := by
  rw [Grammar.blockEntries]
  split
  · rename_i r heq
    rw [heq]
    refine ((h.optional _ _ _ _).mono (List.suffix_cons _ r)).bind fun key s₁ hs₁ => ?_
    refine ((h.afterKey _ _ _ _).mono hs₁).bind fun value s₂ hs₂ => ?_
    exact ((h.blockEntries _ _).mono hs₂).bind fun entries s₃ hs₃ => leaves_ok hs₃
  · rename_i r heq
    rw [heq]
    exact leaves_ok (List.suffix_cons _ r)
  · exact leaves_error _

theorem Takes.afterKey_succ (h : Takes n) (handles : Handles) (site : Site) (absent : Token → Bool) (s : Remaining) :
    Leaves s.tokens (Grammar.afterKey handles (n + 1) site absent s) := by
  rw [Grammar.afterKey]
  split
  · rename_i r heq
    rw [heq]
    exact (h.optional _ _ _ _).mono (List.suffix_cons _ r)
  · exact leaves_ok List.suffix_rfl

theorem Takes.flowItems_succ (h : Takes n) (handles : Handles) (first : Bool) (s : Remaining) :
    Leaves s.tokens (Grammar.flowItems handles (n + 1) first s) := by
  rw [Grammar.flowItems]
  split
  · rename_i r heq
    rw [heq]
    exact leaves_ok (List.suffix_cons _ r)
  · refine leaves_bind fun tokens hseparated => ?_
    have htokens := suffix_of_separated hseparated
    split
    · exact leaves_ok ((List.suffix_cons _ _).trans htokens)
    · refine ((h.optional _ _ _ _).mono ((List.suffix_cons _ _).trans htokens)).bind fun key s₁ hs₁ => ?_
      refine ((h.afterKey _ _ _ _).mono hs₁).bind fun value s₂ hs₂ => ?_
      refine Leaves.bind ?_ fun items s₃ hs₃ => leaves_ok hs₃
      exact (h.flowItems _ _ _).mono hs₂
    · refine ((h.node _ _ _).mono htokens).bind fun item s₁ hs₁ => ?_
      exact ((h.flowItems _ _ _).mono hs₁).bind fun items s₂ hs₂ => leaves_ok hs₂

theorem Takes.flowEntries_succ (h : Takes n) (handles : Handles) (first : Bool) (s : Remaining) :
    Leaves s.tokens (Grammar.flowEntries handles (n + 1) first s) := by
  rw [Grammar.flowEntries]
  split
  · rename_i r heq
    rw [heq]
    exact leaves_ok (List.suffix_cons _ r)
  · refine leaves_bind fun tokens hseparated => ?_
    have htokens := suffix_of_separated hseparated
    split
    · exact leaves_ok ((List.suffix_cons _ _).trans htokens)
    · refine ((h.optional _ _ _ _).mono ((List.suffix_cons _ _).trans htokens)).bind fun key s₁ hs₁ => ?_
      refine ((h.afterKey _ _ _ _).mono hs₁).bind fun value s₂ hs₂ => ?_
      exact ((h.flowEntries _ _ _).mono hs₂).bind fun entries s₃ hs₃ => leaves_ok hs₃
    · refine ((h.node _ _ _).mono htokens).bind fun key s₁ hs₁ => ?_
      refine Leaves.bind ?_ fun entries s₂ hs₂ => leaves_ok hs₂
      exact (h.flowEntries _ _ _).mono hs₁

/-- A collection is begun, read and ended. -/
theorem leaves_collection {γ : Type} {anchor : Option String} {c : Node} {s : Remaining}
    {parts : Remaining → Except Fault (γ × Remaining)} {close : Ref → γ → Remaining → Ref × Remaining}
    (hparts : ∀ s, Leaves s.tokens (parts s)) (hclose : ∀ r a s, (close r a s).2.tokens = s.tokens) (h : ts' <:+ ts) :
    Leaves ts (do
      let (r, s) ← start anchor c ts' s
      let (a, s) ← parts s
      return close r a s) := by
  refine (leaves_start h).bind fun r s₁ hs₁ => ?_
  refine ((hparts s₁).mono hs₁).bind fun a s₂ hs₂ => ?_
  refine leaves_ok (a := (close r a s₂).1) (s := (close r a s₂).2) ?_
  rwa [hclose]

theorem Takes.node_succ (h : Takes n) (handles : Handles) (site : Site) (s : Remaining) :
    Leaves s.tokens (Grammar.node handles (n + 1) site s) := by
  rw [Grammar.node]
  split
  · rename_i r heq
    rw [heq]
    exact leaves_resolve (List.suffix_cons _ r)
  · refine leaves_bind fun ⟨anchor, written, tokens⟩ hproperties => ?_
    have htokens : tokens <:+ s.tokens := suffix_of_properties hproperties
    have hrest : ∀ {t rest}, tokens = t :: rest → rest <:+ s.tokens := fun heq =>
      (List.suffix_cons _ _).trans (heq ▸ htokens)
    cases written
    all_goals
      refine leaves_bind fun tag _ => ?_
      split
      · split
        · exact leaves_collection (h.indentless handles) (fun _ _ _ => rfl) htokens
        · exact leaves_empty htokens
      · exact leaves_start (hrest rfl)
      · exact leaves_collection (h.flowItems handles true) (fun _ _ _ => rfl) (hrest rfl)
      · exact leaves_collection (h.flowEntries handles true) (fun _ _ _ => rfl) (hrest rfl)
      · exact leaves_collection (h.blockItems handles) (fun _ _ _ => rfl) (hrest rfl)
      · exact leaves_collection (h.blockEntries handles) (fun _ _ _ => rfl) (hrest rfl)
      · exact leaves_empty htokens

theorem takes (n : Nat) : Takes n := by
  induction n with
  | zero => exact takes_zero
  | succ n ih =>
    exact ⟨ih.optional_succ, ih.node_succ, ih.blockItems_succ, ih.indentless_succ, ih.blockEntries_succ,
      ih.afterKey_succ, ih.flowItems_succ, ih.flowEntries_succ⟩

/-! ## Documents -/

theorem suffix_of_directives {version : Bool} {handles : Handles} {r : Handles × List Token}
    (h : directives version handles ts = .ok r) : r.2 <:+ ts := by
  induction ts generalizing version handles with
  | nil =>
    cases h
    exact List.suffix_rfl
  | cons t ts ih =>
    unfold directives at h
    split at h
    · rename_i d _ heq
      cases heq
      cases d with
      | version major =>
        simp only at h
        split at h
        · cases h
        · exact (ih h).trans (List.suffix_cons _ _)
      | handle name uri =>
        simp only at h
        split at h
        · cases h
        · exact (ih h).trans (List.suffix_cons _ _)
      | other => exact (ih h).trans (List.suffix_cons _ _)
    · cases h
      exact List.suffix_rfl

theorem leaves_root (handles : Handles) : Leaves ts (root handles ts) := by
  unfold root
  split
  · exact leaves_ok List.suffix_rfl
  · exact (takes _).node _ _ _

/-- Behind the root only the end of the stream is accepted. -/
theorem streamEnd_of_rest {root : Ref} {s : Remaining} {r : Ref × Nodes}
    (h : (match s.tokens.dropWhile (· = Token.documentEnd) with
      | .streamEnd :: _ => (Except.ok (root, s.nodes) : Except Fault (Ref × Nodes))
      | tokens => do
        let (_, tokens) ← directives false [] tokens
        .error (unexpected tokens)) = .ok r) : .streamEnd ∈ s.tokens := by
  split at h
  · rename_i rest heq
    have hmem : Token.streamEnd ∈ s.tokens.dropWhile (· = .documentEnd) := heq ▸ List.mem_cons_self
    exact (List.dropWhile_suffix _).subset hmem
  · obtain ⟨_, -, herror⟩ := exists_of_bind h
    cases herror

/-- A document is accepted only at the end of its stream. -/
theorem streamEnd_of_document {r : Ref × Nodes} (h : document ts = .ok r) : .streamEnd ∈ ts := by
  unfold document at h
  split at h
  · exact List.mem_cons_self
  · simp only at h
    split at h
    · obtain ⟨⟨handles, tokens⟩, hdirectives, hdocument⟩ := exists_of_bind h
      have htokens : tokens <:+ ts := suffix_of_directives hdirectives
      simp only at hdocument
      split at hdocument
      · obtain ⟨⟨first, s⟩, hroot, hrest⟩ := exists_of_bind hdocument
        have hleaves := (leaves_root handles _ _ hroot).trans ((List.suffix_cons _ _).trans htokens)
        exact hleaves.subset (streamEnd_of_rest hrest)
      · cases hdocument
    · obtain ⟨⟨first, s⟩, hroot, hrest⟩ := exists_of_bind h
      exact ((takes _).node _ _ { tokens := ts } _ _ hroot).subset (streamEnd_of_rest hrest)

end Portcullis.Yaml.Grammar
