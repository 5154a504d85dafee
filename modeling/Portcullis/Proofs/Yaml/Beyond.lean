/-
  Portcullis.Proofs.Yaml.Beyond — documents with a key that is out of reach.

  At the colon behind a key on one line that is too long the key does not count any more, and a
  value cannot stand there. So the stream breaks off, wherever in the document the key stands.
  - `Stream.tree_breaks`: a value with such a key breaks a stream off.
  - `unended_writeDocument`: the tokens of a document with such a key do not come to an end.
-/

import Portcullis.Proofs.Yaml.Tokens

namespace Portcullis.Yaml

namespace Stream

variable {s a : Stream} {T T' : List Token} {I J : List Nat} {rest r : List Char} {p : Place} {step indent column : Nat}

structure Breaks (s : Stream) : Prop where
  unended : .streamEnd ∉ s.tokens.reverse
  fails : (∃ f, s.advance = .error f) ∨ ∃ a c r f, s.advance = .ok a ∧ a.place.rest = c :: r ∧ a.next c r = .error f

theorem unended_broken (h : .streamEnd ∉ s.tokens.reverse) (f : Fault) : .streamEnd ∉ s.broken f := by
  unfold broken
  intro hmem
  rcases List.mem_append.mp hmem with hmem | hmem
  · exact h (List.mem_of_mem_take hmem)
  · simp at hmem

/-- The tokens of a stream that breaks off do not come to an end. -/
theorem Breaks.run (h : s.Breaks) (n : Nat) : .streamEnd ∉ s.run n := by
  cases n with
  | zero => exact unended_broken h.unended _
  | succ n =>
    rw [Stream.run]
    rcases h.fails with ⟨f, hf⟩ | ⟨a, c, r, f, ha, hrest, hf⟩
    · rw [hf]
      exact unended_broken h.unended f
    · rw [ha]
      simp only [hrest, hf]
      exact unended_broken h.unended f

/-! ## The key itself -/

/-- At the colon behind a long key there is no key any more. -/
theorem Past.breaks {w : List Char} {t : Token} (h : Past a (T ++ [t]) I true w (':' :: r) s)
    (hw : ∀ c ∈ w, Inked False c) (hlength : keyReach < w.length) (hr : isBlankOrEnd (r.headD endMark) = true)
    (hT : .streamEnd ∉ T ++ [t]) : Breaks s := by
  refine ⟨h.tokens ▸ hT, ?_⟩
  have hplace := h.place
  rw [Position.foldl_inked hw] at hplace
  have hrest : s.place.rest = ':' :: r := by rw [hplace]
  have hcounts : a.here.counts s.place = false := by
    rw [hplace]
    simp [here, Candidate.counts, hlength]
  have hcandidate : s.candidate = some a.here := h.candidate
  have hcandidates : s.allCandidates = [a.here] := by simp [allCandidates, hcandidate, h.outer]
  rw [advance_here (by rw [hrest]; exact solid_cons (by decide) r)]
  unfold dropStale
  rw [hcandidates]
  cases hrequired : a.here.required with
  -- Where nothing else than a key can stand, that is noticed at once.
  | true => exact .inl ⟨.malformed, by simp [hrequired, hcounts]; rfl⟩
  | false =>
    let m : Stream := { s with candidate := none, outer := [] }
    have hnext : ∀ b : Stream, b.keyAllowed = false → b.candidate = none → b.outer = [] →
        b.next ':' r = .error .malformed := fun b hb hnone houter => by
      rw [next_value b hr]
      unfold Stream.addValue addSign
      rw [hnone]
      simp [hb, inFlow, houter]
    refine .inr ⟨m.closeBlocks (m.place.column < ·), ':', r, .malformed, ?_, ?_, ?_⟩
    · simp only [List.any_cons, List.any_nil, hrequired, Bool.false_and, Bool.or_false, Bool.false_eq_true, if_false,
        hcandidate, h.outer, Option.filter_some, hcounts, List.map_nil]
      rfl
    · simp [closeBlocks, m, inFlow, hrest]
    · exact hnext _ (by simp [closeBlocks, m, inFlow, h.keyAllowed]) (by simp [closeBlocks, m, inFlow])
        (by simp [closeBlocks, m, inFlow])

theorem Opens.subset {start : Token} {column : Nat} (h : Opens start column T I T' J) : T ⊆ T' := by
  cases h with
  | first _ => exact List.subset_append_left _ _
  | more => exact List.Subset.refl _

/-- A key on one line that is out of reach. -/
theorem Arrives.key_breaks {k : String} (hstep : 2 ≤ step) (hwidth : indent + step + 1 ≤ lineWidth)
    (hreach : ¬ InReach k)
    (hr : isBlankOrEnd (r.headD endMark) = true) (ho : Opens .blockMapStart indent T I T' J) (hT : .streamEnd ∉ T')
    (h : s.Arrives T I indent ((writeKey step indent k.toList).1 ++ r) true) : Eventually Breaks s := by
  unfold InReach at hreach
  push Not at hreach
  obtain ⟨hsimple, hlength⟩ := hreach
  have hsuits := suits_keyStyle k.toList
  have hline := line_of_isSimpleKey hsimple
  unfold writeKey at h
  simp only [hsimple, if_true] at h
  rw [List.append_assoc] at h
  refine (h.key_scalar hsuits (fun q hq => ?_) (by omega) hwidth ho.le hr).bind fun s₁ ⟨a, _, hpast⟩ => .here ?_
  · have hle := ho.le q hq
    omega
  · rw [writeScalar_unfolded _ 0 (indent + step) 0 indent hline] at hlength
    have hT : .streamEnd ∉ T := fun hmem => hT (ho.subset hmem)
    exact hpast.breaks (inked_line hsuits hline _ _) hlength hr (by simpa using hT)

/-! ## Keys inside values -/

mutual

theorem unended_tree (t : Tree) : .streamEnd ∉ treeTokens t := by
  match t with
  | .text _ | .flag _ | .list [] | .table [] => simp [treeTokens, textToken, flagToken]
  | .list (t :: ts) => simp [treeTokens, unended_tree t, unended_items ts]
  | .table ((k, t) :: es) => simp [treeTokens, keyToken, unended_tree t, unended_entries es]

theorem unended_items (ts : List Tree) : .streamEnd ∉ itemTokens ts := by
  match ts with
  | [] => simp [itemTokens]
  | t :: ts => simp [itemTokens, unended_tree t, unended_items ts]

theorem unended_entries (es : List (String × Tree)) : .streamEnd ∉ entryTokens es := by
  match es with
  | [] => simp [entryTokens]
  | (k, t) :: es => simp [entryTokens, keyToken, unended_tree t, unended_entries es]

end

/-- Further items begin on a new line, and so does what follows if there are none. -/
theorem writeItems_line (step : Nat) {indent k : Nat} (ts : List Tree) (hk : k ≤ indent) (hrest : Solid rest) :
    ∃ k' rest', writeItems step indent ts ++ (newLine k ++ rest) = newLine k' ++ rest' ∧ k' ≤ indent ∧ Solid rest' := by
  cases ts with
  | nil => exact ⟨k, rest, rfl, hk, hrest⟩
  | cons t ts =>
    rw [writeItems]
    simp only [List.append_assoc]
    exact ⟨indent, _, rfl, Nat.le_refl _, solid_cons (by decide) _⟩

theorem writeEntries_line (step : Nat) {indent k : Nat} (es : List (String × Tree)) (hk : k ≤ indent)
    (hrest : Solid rest) :
    ∃ k' rest', writeEntries step indent es ++ (newLine k ++ rest) = newLine k' ++ rest' ∧
      k' ≤ indent ∧ Solid rest' := by
  cases es with
  | nil => exact ⟨k, rest, rfl, hk, hrest⟩
  | cons e es =>
    rw [writeEntries]
    simp only [List.append_assoc]
    exact ⟨indent, _, rfl, Nat.le_refl _, solid_writeKey _ _ _ _⟩

mutual

/-- A value with a key that is out of reach breaks a stream off. -/
theorem tree_breaks {n indent k : Nat} (t : Tree) {p : Place} {s : Stream} {T : List Token} {J : List Nat}
    {rest : List Char} (hp : p.indent = indent) (hstep : 2 ≤ step) (hwidth : indent + (n + 1) * step + 1 ≤ lineWidth)
    (ht : Keyed (fun _ => True) n t) (hno : ¬ Keyed InReach n t) (hk : k ≤ indent) (hrest : Solid rest)
    (hT : .streamEnd ∉ T) (h : s.Stands p T J (writeTree step p t ++ (newLine k ++ rest))) : Eventually Breaks s := by
  match t, n, ht with
  | .text _, _, _ => exact absurd (by simp [Keyed]) hno
  | .flag _, _, _ => exact absurd (by simp [Keyed]) hno
  | .list [], n + 1, _ => exact absurd (by simp [Keyed, KeyedItems]) hno
  | .table [], n + 1, _ => exact absurd (by simp [Keyed, KeyedEntries]) hno
  | .list (t :: ts), n + 1, ht =>
    subst hp
    rw [writeTree] at h
    simp only [List.append_assoc, List.cons_append] at h
    have harrives := h.arrives_lead hstep (solid_cons (by decide) _)
    exact items_breaks t ts hstep (width_below hwidth) ht hno (Nat.le_add_right_of_le hk) hrest
      (by simpa using hT) (.first (by rintro _ ⟨⟩; omega)) harrives
  | .table ((key, t) :: es), n + 1, ht =>
    subst hp
    rw [writeTree] at h
    simp only [List.append_assoc] at h
    have harrives := h.arrives_lead hstep (solid_writeKey _ _ _ _)
    exact entries_breaks key t es hstep (width_below hwidth) ht hno (Nat.le_add_right_of_le hk) hrest
      (by simpa using hT) (.first (by rintro _ ⟨⟩; omega)) harrives
termination_by sizeOf t

theorem items_breaks {n indent k : Nat} (t : Tree) (ts : List Tree) {s : Stream} {T T' : List Token} {I J : List Nat}
    {rest : List Char} (hstep : 2 ≤ step) (hwidth : indent + (n + 1) * step + 1 ≤ lineWidth)
    (hts : KeyedItems (fun _ => True) n (t :: ts)) (hno : ¬ KeyedItems InReach n (t :: ts)) (hk : k ≤ indent)
    (hrest : Solid rest) (hT : .streamEnd ∉ T') (ho : Opens .blockListStart indent T I T' J)
    (h : s.Arrives T I indent ('-' :: (writeTree step ⟨indent, indent + 1, true⟩ t ++
      (writeItems step indent ts ++ (newLine k ++ rest)))) true) : Eventually Breaks s := by
  obtain ⟨ht, hts⟩ := hts
  have hstands := h.item_stands hstep ho
  by_cases htree : Keyed InReach n t
  · cases ts with
    | nil => exact absurd ⟨htree, trivial⟩ hno
    | cons u us =>
      rw [writeItems] at hstands
      simp only [List.append_assoc, List.cons_append] at hstands
      refine hstands.bind fun s₁ hs₁ => ?_
      refine (tree_read t rfl hstep hwidth htree (Nat.le_refl _) (solid_cons (by decide) _) hs₁).bind fun s₂ hs₂ => ?_
      exact items_breaks u us hstep hwidth hts (fun hus => hno ⟨htree, hus⟩) hk hrest
        (by simp [hT, unended_tree]) .more hs₂
  · obtain ⟨k', rest', htext, hk', hrest'⟩ := writeItems_line step ts hk hrest
    rw [htext] at hstands
    exact hstands.bind fun s₁ hs₁ => tree_breaks t rfl hstep hwidth ht htree hk' hrest' (by simpa using hT) hs₁
termination_by sizeOf t + sizeOf ts + 1

theorem entries_breaks {n indent k : Nat} (key : String) (t : Tree) (es : List (String × Tree)) {s : Stream}
    {T T' : List Token} {I J : List Nat} {rest : List Char} (hstep : 2 ≤ step)
    (hwidth : indent + (n + 1) * step + 1 ≤ lineWidth) (hes : KeyedEntries (fun _ => True) n ((key, t) :: es))
    (hno : ¬ KeyedEntries InReach n ((key, t) :: es)) (hk : k ≤ indent) (hrest : Solid rest) (hT : .streamEnd ∉ T')
    (ho : Opens .blockMapStart indent T I T' J)
    (h : s.Arrives T I indent ((writeKey step indent key.toList).1 ++
      (writeTree step (writeKey step indent key.toList).2 t ++
        (writeEntries step indent es ++ (newLine k ++ rest)))) true) : Eventually Breaks s := by
  obtain ⟨-, ht, hes⟩ := hes
  have hstepWidth := width_of_levels hwidth
  obtain ⟨hplace, hcompact⟩ := place_writeKey step indent key.toList
  by_cases hkey : InReach key
  · have hstands := h.key_stands hstep hstepWidth hkey ho
    by_cases htree : Keyed InReach n t
    · cases es with
      | nil => exact absurd ⟨hkey, htree, trivial⟩ hno
      | cons e us =>
        rw [writeEntries] at hstands
        simp only [List.append_assoc] at hstands
        refine hstands.bind fun s₁ hs₁ => ?_
        refine (tree_read t hplace hstep hwidth htree (Nat.le_refl _) (solid_writeKey _ _ _ _) hs₁).bind
          fun s₂ hs₂ => ?_
        exact entries_breaks e.1 e.2 us hstep hwidth hes (fun hus => hno ⟨hkey, htree, hus⟩) hk hrest
          (by simp [hT, keyToken, unended_tree]) .more hs₂
    · obtain ⟨k', rest', htext, hk', hrest'⟩ := writeEntries_line step es hk hrest
      rw [htext] at hstands
      refine hstands.bind fun s₁ hs₁ => ?_
      exact tree_breaks t hplace hstep hwidth ht htree hk' hrest' (by simp [hT, keyToken]) hs₁
  · have hblank := blank_writeTree hstep (p := (writeKey step indent key.toList).2)
      (fun hc => by rw [hcompact hc, hplace]) t
      (writeEntries step indent es ++ (newLine k ++ rest))
    exact h.key_breaks hstep hstepWidth hkey hblank ho hT
termination_by sizeOf t + sizeOf es + 1
decreasing_by
  · have hsize : sizeOf e.2 < sizeOf e := by
      obtain ⟨_, _⟩ := e
      simp only [Prod.mk.sizeOf_spec]
      omega
    subst_vars
    simp only [List.cons.sizeOf_spec]
    omega
  · decreasing_tactic

end

end Stream

/-- A document with a key that is out of reach breaks off. -/
theorem unended_writeDocument {step n : Nat} (hstep : 2 ≤ step) (hwidth : (n + 1) * step + 1 ≤ lineWidth)
    {es : List (String × Tree)} (hes : KeyedEntries (fun _ => True) n es) (hno : ¬ KeyedEntries InReach n es) :
    .streamEnd ∉ tokensOf (writeDocument step es) := by
  cases es with
  | nil => exact absurd trivial hno
  | cons e es =>
    have harrives := Stream.arrives_writeDocument step e.1 e.2 es
    have hbreaks := Stream.entries_breaks e.1 e.2 es hstep (by omega) hes hno (Nat.le_refl 0)
      (show Solid [] by rintro _ ⟨⟩) (by simp) (.first (by simp)) harrives
    obtain ⟨s, m, hs, -, hrun⟩ := Stream.run_of_eventually hbreaks (Nat.lt_succ_self _)
    unfold tokensOf
    rw [show (writeDocument step (e :: es)).length + 1 =
      (Stream.ofChars (writeDocument step (e :: es))).place.rest.length.succ from rfl, hrun]
    exact hs.run m

end Portcullis.Yaml
