/-
  Portcullis.Proofs.Yaml.Tokens — the tokens of a document that the writer has written.

  They are those of the tree (`treeTokens`), with every text as its style lets it be seen. The
  writer goes down the tree, and so does the proof: a value is read from the place behind its key
  or its hyphen up to the next token, which is indented by no more than the collection around it.
  - `Stream.tree_read`: a value is read as its tokens.
  - `tokensOf_writeDocument`: a document is read as the tokens of its table.
-/

import Portcullis.Proofs.Yaml.Signs

namespace Portcullis.Yaml

/-! ## Keys on one line -/

theorem writePlainRuns_unfolded (i c : Nat) (rs : List (RunClass × List Char)) :
    writePlainRuns i false c rs = rs.flatMap Prod.snd := by
  induction rs generalizing c with
  | nil => rfl
  | cons run rs ih => rw [writePlainRuns, if_neg (by simp), ih, List.flatMap_cons]

theorem writeSingleRuns_unfolded (i j c d : Nat) (inner : Bool) {rs : List (RunClass × List Char)}
    (hline : ∀ run ∈ rs, run.1 ≠ .breaks) :
    writeSingleRuns i false inner c rs = writeSingleRuns j false inner d rs := by
  induction rs generalizing c d inner with
  | nil => rfl
  | cons run rs ih =>
    obtain ⟨k, cs⟩ := run
    obtain ⟨hk, hlines⟩ := List.forall_mem_cons.mp hline
    cases k with
    | breaks => exact absurd rfl hk
    | space =>
      rw [writeSingleRuns, writeSingleRuns, if_neg (by simp), if_neg (by simp), ih _ (d + cs.length) true hlines]
    | other => rw [writeSingleRuns, writeSingleRuns, ih _ (d + (doubleQuotes cs).length) true hlines]

theorem writeDoubleChars_unfolded (i j c d : Nat) (inner fresh : Bool) (cs : List Char) :
    writeDoubleChars i false inner fresh c cs = writeDoubleChars j false inner fresh d cs := by
  induction cs generalizing c d inner fresh with
  | nil => rfl
  | cons e r ih =>
    rw [writeDoubleChars, writeDoubleChars]
    simp only [Bool.false_and, Bool.false_eq_true, if_false]
    split
    · rw [ih _ (d + 1)]
    · rw [ih _ (d + (escape e).length)]

/-- A text on one line is written alike wherever it stands. -/
theorem writeScalar_unfolded (style : Style) (i j c d : Nat) {cs : List Char} (hline : ∀ e ∈ cs, isBreak e = false) :
    writeScalar style i false c cs = writeScalar style j false d cs := by
  cases style with
  | plain => exact (writePlainRuns_unfolded i c _).trans (writePlainRuns_unfolded j d _).symm
  | single =>
    have hruns := writeSingleRuns_unfolded i j (c + 1) (d + 1) false fun run hrun => ne_breaks_of_mem hline hrun
    exact congrArg (fun w => '\'' :: w ++ ['\'']) hruns
  | double => exact congrArg (fun w => '"' :: w ++ ['"']) (writeDoubleChars_unfolded _ _ _ _ _ _ _)

theorem line_of_isSimpleKey {cs : List Char} (h : isSimpleKey cs = true) : ∀ c ∈ cs, isBreak c = false := by
  unfold isSimpleKey at h
  simp only [Bool.and_eq_true, decide_eq_true_eq, Bool.not_eq_true'] at h
  obtain ⟨⟨-, hne⟩, hmultiline⟩ := h
  unfold shape at hmultiline
  rw [if_neg hne] at hmultiline
  simpa [List.any_eq_false] using hmultiline

/-! ## What a tree is read as -/

def keyToken (k : String) : Token := .scalar ((keyStyle k.toList).seen k.toList) (keyStyle k.toList = .plain)

def textToken (s : String) : Token := .scalar ((valueStyle s.toList).seen s.toList) (valueStyle s.toList = .plain)

def flagToken (b : Bool) : Token := .scalar (if b then "true" else "false").toList true

mutual

def treeTokens : Tree → List Token
  | .text s => [textToken s]
  | .flag b => [flagToken b]
  | .list [] => [.flowListStart, .flowListEnd]
  | .table [] => [.flowMapStart, .flowMapEnd]
  | .list (t :: ts) => .blockListStart :: .item :: treeTokens t ++ itemTokens ts ++ [.blockEnd]
  | .table ((k, t) :: es) =>
    .blockMapStart :: .key :: keyToken k :: .value :: treeTokens t ++ entryTokens es ++ [.blockEnd]

def itemTokens : List Tree → List Token
  | [] => []
  | t :: ts => .item :: treeTokens t ++ itemTokens ts

def entryTokens : List (String × Tree) → List Token
  | [] => []
  | (k, t) :: es => .key :: keyToken k :: .value :: treeTokens t ++ entryTokens es

end

/-! ## Trees that can be read -/

/-- A key that is written on one line ends before it is given up as a key. -/
def InReach (k : String) : Prop :=
  isSimpleKey k.toList = true → (writeScalar (keyStyle k.toList) 0 false 0 k.toList).length ≤ keyReach

mutual

def Keyed (kind : String → Prop) : Nat → Tree → Prop
  | _, .text _ | _, .flag _ => True
  | 0, .list _ | 0, .table _ => False
  | n + 1, .list ts => KeyedItems kind n ts
  | n + 1, .table es => KeyedEntries kind n es

def KeyedItems (kind : String → Prop) : Nat → List Tree → Prop
  | _, [] => True
  | n, t :: ts => Keyed kind n t ∧ KeyedItems kind n ts

def KeyedEntries (kind : String → Prop) : Nat → List (String × Tree) → Prop
  | _, [] => True
  | n, (k, t) :: es => kind k ∧ Keyed kind n t ∧ KeyedEntries kind n es

end

/-! ## Keys and values in a stream -/

namespace Stream

variable {s : Stream} {T T' : List Token} {I J : List Nat} {rest r : List Char} {p : Place} {step indent : Nat}

/-- A stream stands at the place of a value: behind a sign, at an indent in all blocks around. -/
def Stands (p : Place) (T : List Token) (J : List Nat) (rest : List Char) (s : Stream) : Prop :=
  ∃ column ka, At s T (p.indent :: J) column rest ka ∧ p.indent < column ∧
    (p.compact = true → column = p.indent + 1 ∧ p.column = column ∧ ka = true)

theorem solid_scalar {style : Style} {cs : List Char} (hsuits : style.Suits cs) (i : Nat) (fold : Bool) (c : Nat)
    (hrest : ∀ d ∈ rest.head?, d ≠ '-' ∧ d ≠ '.') : Solid (writeScalar style i fold c cs ++ rest) := by
  cases style with
  | plain =>
    obtain ⟨d, w, hwritten, hbegin⟩ := begins_plain hsuits i fold c
    show Solid (writePlainRuns i fold c (runs cs) ++ rest)
    rw [hwritten]
    exact solid_plain (hbegin rest hrest)
  | single => exact solid_cons (by decide) _
  | double => exact solid_cons (by decide) _

/-- A key is read with its colon. -/
theorem Arrives.written_key {k : String} (hstep : 2 ≤ step) (hwidth : indent + step + 1 ≤ lineWidth)
    (hreach : InReach k)
    (hr : isBlankOrEnd (r.headD endMark) = true) (ho : Opens .blockMapStart indent T I T' J)
    (h : s.Arrives T I indent ((writeKey step indent k.toList).1 ++ r) true) :
    Eventually (Stands (writeKey step indent k.toList).2 (T' ++ [.key, keyToken k, .value]) J r) s := by
  have hsuits := suits_keyStyle k.toList
  unfold writeKey at h ⊢
  by_cases hsimple : isSimpleKey k.toList = true
  · have hline := line_of_isSimpleKey hsimple
    simp only [hsimple, if_true] at h ⊢
    rw [List.append_assoc] at h
    refine (h.simpleKey hsuits hline (fun q hq => ?_) (by omega) hwidth hr ?_ ho).bind fun s' hat => .here ?_
    · have hle := ho.le q hq
      omega
    · rw [writeScalar_unfolded _ _ 0 _ 0 hline]
      exact hreach hsimple
    · exact ⟨_, _, hat, by simp only; omega, by simp⟩
  · simp only [hsimple, Bool.false_eq_true, if_false] at h ⊢
    generalize hkey : writeScalar (keyStyle k.toList) (indent + step) true (indent + 2) k.toList = key at h
    have htext : ('?' :: ' ' :: key ++ newLine indent ++ [':']) ++ r =
        '?' :: (spaces 1 ++ (key ++ (newLine indent ++ ':' :: r))) := by
      simp [spaces]
    rw [htext] at h
    have hcolon : Solid (':' :: r) := solid_cons (by decide) r
    have hblank : isBlankOrEnd ' ' = true := by decide
    refine (h.question hblank ho).bind fun s₁ hs₁ => ?_
    have hkeySolid : Solid (key ++ (newLine indent ++ ':' :: r)) := hkey ▸ solid_scalar hsuits _ _ _ (by simp [newLine])
    have harrives := hs₁.arrives_spaces hkeySolid
    rw [← hkey] at harrives
    refine (harrives.scalar hsuits (by omega) hwidth (by omega) (Nat.le_refl _) hcolon).bind fun s₂ hs₂ => ?_
    refine (hs₂.colon hr).bind fun s₃ hs₃ => .here ⟨_, _, ?_, Nat.lt_succ_self _, fun _ => ⟨rfl, rfl, rfl⟩⟩
    simpa [keyToken] using hs₃

theorem blank_writeTree (hstep : 2 ≤ step) (hp : p.compact = true → p.column = p.indent + 1) (t : Tree)
    (rest : List Char) :
    isBlankOrEnd ((writeTree step p t ++ rest).headD endMark) = true := by
  have hlead : ∀ w, isBlankOrEnd ((p.lead (p.indent + step) ++ w).headD endMark) = true := fun w => by
    unfold Place.lead
    split
    · rename_i hc
      obtain ⟨n, hn⟩ : ∃ n, p.indent + step - p.column = n + 1 := ⟨step - 2, by rw [hp hc]; omega⟩
      rw [hn, spaces, List.replicate_succ]
      rfl
    · rfl
  rcases t with s | b | (_ | ⟨t, ts⟩) | (_ | ⟨⟨k, t⟩, es⟩)
  case list.cons | table.cons =>
    rw [writeTree]
    simp only [List.append_assoc]
    exact hlead _
  all_goals
    rw [writeTree]
    rfl

/-- The first item of a collection is reached on this line or on the next one. -/
theorem Stands.arrives_lead (hstep : 2 ≤ step) (hrest : Solid rest)
    (h : s.Stands p T J (p.lead (p.indent + step) ++ rest)) :
    s.Arrives T (p.indent :: J) (p.indent + step) rest true := by
  obtain ⟨column, ka, hat, -, hcompact⟩ := h
  unfold Place.lead at hat
  cases hc : p.compact with
  | false =>
    rw [hc] at hat
    exact hat.arrives_newLine hrest
  | true =>
    obtain ⟨rfl, hcolumn, rfl⟩ := hcompact hc
    rw [hc, if_pos rfl, hcolumn] at hat
    have harrives := hat.arrives_spaces hrest
    rwa [show p.indent + 1 + (p.indent + step - (p.indent + 1)) = p.indent + step by omega] at harrives

theorem place_writeKey (step indent : Nat) (cs : List Char) : (writeKey step indent cs).2.indent = indent ∧
    ((writeKey step indent cs).2.compact = true → (writeKey step indent cs).2.column = indent + 1) := by
  unfold writeKey
  split <;> simp

theorem solid_writeKey (step indent : Nat) (k : String) (rest : List Char) :
    Solid ((writeKey step indent k.toList).1 ++ rest) := by
  unfold writeKey
  split
  · rw [List.append_assoc]
    exact solid_scalar (suits_keyStyle _) _ _ _ (by simp)
  · exact solid_cons (by decide) _

/-- Behind its hyphen an item has its place. -/
theorem Arrives.item_stands (hstep : 2 ≤ step) {t : Tree} (ho : Opens .blockListStart indent T I T' J)
    (h : s.Arrives T I indent ('-' :: (writeTree step ⟨indent, indent + 1, true⟩ t ++ rest)) true) :
    Eventually (Stands ⟨indent, indent + 1, true⟩ (T' ++ [.item]) J
      (writeTree step ⟨indent, indent + 1, true⟩ t ++ rest)) s := by
  have hblank := blank_writeTree hstep (p := ⟨indent, indent + 1, true⟩) (fun _ => rfl) t rest
  exact (h.item hblank ho).bind fun s' hs' => .here ⟨_, _, hs', Nat.lt_succ_self _, fun _ => ⟨rfl, rfl, rfl⟩⟩

/-- Behind its key a value has its place. -/
theorem Arrives.key_stands {k : String} (hstep : 2 ≤ step) (hwidth : indent + step + 1 ≤ lineWidth) (hreach : InReach k)
    {t : Tree} (ho : Opens .blockMapStart indent T I T' J)
    (h : s.Arrives T I indent ((writeKey step indent k.toList).1 ++
      (writeTree step (writeKey step indent k.toList).2 t ++ rest)) true) :
    Eventually (Stands (writeKey step indent k.toList).2 (T' ++ [.key, keyToken k, .value]) J
      (writeTree step (writeKey step indent k.toList).2 t ++ rest)) s := by
  obtain ⟨hplace, hcompact⟩ := place_writeKey step indent k.toList
  have hblank := blank_writeTree hstep (p := (writeKey step indent k.toList).2)
    (fun hc => by rw [hcompact hc, hplace]) t rest
  exact h.written_key hstep hwidth hreach hblank ho

theorem plain_flag (b : Bool) : Plain (if b then "true" else "false").toList := by
  cases b <;> exact plain_of_shape (by decide) (by decide)

theorem writePlainRuns_flag (i : Nat) (b : Bool) :
    writePlainRuns i false 0 (runs (if b then "true" else "false").toList) =
      (if b then "true" else "false").toList := by
  rw [writePlainRuns_unfolded, flatMap_runs]

theorem width_of_levels {n : Nat} (h : indent + (n + 1) * step + 1 ≤ lineWidth) : indent + step + 1 ≤ lineWidth := by
  have hle : step ≤ (n + 1) * step := Nat.le_mul_of_pos_left step (Nat.succ_pos n)
  omega

/-- One level deeper, one level less has to fit. -/
theorem width_below {n : Nat} (h : indent + (n + 1 + 1) * step + 1 ≤ lineWidth) :
    indent + step + (n + 1) * step + 1 ≤ lineWidth := by
  rw [Nat.succ_mul (n + 1)] at h
  omega

mutual

/-- A value is read as its tokens, up to the next token on a new line. -/
theorem tree_read {n indent k : Nat} (t : Tree) {p : Place} {s : Stream} {T : List Token} {J : List Nat}
    {rest : List Char} (hp : p.indent = indent) (hstep : 2 ≤ step) (hwidth : indent + (n + 1) * step + 1 ≤ lineWidth)
    (ht : Keyed InReach n t) (hk : k ≤ indent) (hrest : Solid rest)
    (h : s.Stands p T J (writeTree step p t ++ (newLine k ++ rest))) :
    Eventually (Arrives · (T ++ treeTokens t) (indent :: J) k rest true) s := by
  have hstepWidth := width_of_levels hwidth
  subst hp
  match t, n, ht with
  | .text x, _, _ =>
    obtain ⟨column, ka, hat, hcolumn, -⟩ := h
    rw [writeTree] at hat
    have hsuits := suits_valueStyle x.toList
    have harrives := At.arrives_spaces (n := 1) hat (solid_scalar hsuits _ _ _ (by simp [newLine]))
    rw [treeTokens, textToken]
    exact harrives.scalar hsuits (by omega) hstepWidth (by omega) hk hrest
  | .flag b, _, _ =>
    obtain ⟨column, ka, hat, hcolumn, -⟩ := h
    rw [writeTree, ← writePlainRuns_flag (p.indent + 1)] at hat
    have hplain := plain_flag b
    have hsuits : Style.plain.Suits _ := hplain
    have harrives := At.arrives_spaces (n := 1) hat (solid_scalar hsuits _ _ _ (by simp [newLine]))
    rw [treeTokens, flagToken]
    exact harrives.plain hplain (Nat.lt_succ_self _) (by omega) hk hrest
  | .list [], _, _ =>
    obtain ⟨column, ka, hat, hcolumn, -⟩ := h
    rw [writeTree] at hat
    have harrives := At.arrives_spaces (n := 1) hat (solid_cons (by decide) _)
    exact harrives.emptyList (by omega) hrest
  | .table [], _, _ =>
    obtain ⟨column, ka, hat, hcolumn, -⟩ := h
    rw [writeTree] at hat
    have harrives := At.arrives_spaces (n := 1) hat (solid_cons (by decide) _)
    exact harrives.emptyMap (by omega) hrest
  | .list (t :: ts), n + 1, ht =>
    have hwidth' := width_below hwidth
    obtain ⟨ht, hts⟩ := ht
    obtain ⟨k', rest', htext, hk', hrest', hgo⟩ :=
      items_read ts (I := p.indent :: J) hstep hwidth' hts (Nat.le_add_right_of_le hk) hrest
    rw [writeTree] at h
    simp only [List.append_assoc, List.cons_append] at h
    rw [htext] at h
    have hopens : Opens .blockListStart (p.indent + step) T (p.indent :: J) (T ++ [.blockListStart]) (p.indent :: J) :=
      .first (by rintro _ ⟨⟩; omega)
    refine ((h.arrives_lead hstep (solid_cons (by decide) _)).item_stands hstep hopens).bind fun s₁ hs₁ => ?_
    refine (tree_read t rfl hstep hwidth' ht hk' hrest' hs₁).bind fun s₂ hs₂ => ?_
    refine (hgo hs₂).bind fun s₃ hs₃ => .here ?_
    have hclose := hs₃.close (by omega)
    simpa [treeTokens] using hclose
  | .table ((key, t) :: es), n + 1, ht =>
    have hwidth' := width_below hwidth
    obtain ⟨hkey, ht, hes⟩ := ht
    obtain ⟨k', rest', htext, hk', hrest', hgo⟩ :=
      entries_read es (I := p.indent :: J) hstep hwidth' hes (Nat.le_add_right_of_le hk) hrest
    rw [writeTree] at h
    simp only [List.append_assoc] at h
    rw [htext] at h
    have hopens : Opens .blockMapStart (p.indent + step) T (p.indent :: J) (T ++ [.blockMapStart]) (p.indent :: J) :=
      .first (by rintro _ ⟨⟩; omega)
    refine ((h.arrives_lead hstep (solid_writeKey _ _ _ _)).key_stands hstep (width_of_levels hwidth') hkey hopens).bind
      fun s₁ hs₁ => ?_
    refine (tree_read t (place_writeKey _ _ _).1 hstep hwidth' ht hk' hrest' hs₁).bind fun s₂ hs₂ => ?_
    refine (hgo hs₂).bind fun s₃ hs₃ => .here ?_
    have hclose := hs₃.close (by omega)
    simpa [treeTokens] using hclose

theorem items_read {n indent k : Nat} (ts : List Tree) {I : List Nat} {rest : List Char} (hstep : 2 ≤ step)
    (hwidth : indent + (n + 1) * step + 1 ≤ lineWidth) (hts : KeyedItems InReach n ts) (hk : k ≤ indent)
    (hrest : Solid rest) :
    ∃ k' rest', writeItems step indent ts ++ (newLine k ++ rest) = newLine k' ++ rest' ∧ k' ≤ indent ∧ Solid rest' ∧
      ∀ {s : Stream} {T : List Token}, s.Arrives T (indent :: I) k' rest' true →
        Eventually (Arrives · (T ++ itemTokens ts) (indent :: I) k rest true) s := by
  match ts with
  | [] => exact ⟨k, rest, rfl, hk, hrest, fun h => .here (by simpa [itemTokens] using h)⟩
  | t :: ts =>
    obtain ⟨ht, hts⟩ := hts
    obtain ⟨k', rest', htext, hk', hrest', hgo⟩ := items_read ts (I := I) hstep hwidth hts hk hrest
    refine ⟨indent, '-' :: (writeTree step ⟨indent, indent + 1, true⟩ t ++ (newLine k' ++ rest')), ?_, Nat.le_refl _,
      solid_cons (by decide) _, fun {s T} h => ?_⟩
    · rw [writeItems, ← htext]
      simp
    · refine (h.item_stands hstep .more).bind fun s₁ hs₁ => ?_
      refine (tree_read t rfl hstep hwidth ht hk' hrest' hs₁).bind fun s₂ hs₂ => ?_
      simpa [itemTokens] using hgo hs₂

theorem entries_read {n indent k : Nat} (es : List (String × Tree)) {I : List Nat} {rest : List Char} (hstep : 2 ≤ step)
    (hwidth : indent + (n + 1) * step + 1 ≤ lineWidth) (hes : KeyedEntries InReach n es) (hk : k ≤ indent)
    (hrest : Solid rest) :
    ∃ k' rest', writeEntries step indent es ++ (newLine k ++ rest) = newLine k' ++ rest' ∧ k' ≤ indent ∧ Solid rest' ∧
      ∀ {s : Stream} {T : List Token}, s.Arrives T (indent :: I) k' rest' true →
        Eventually (Arrives · (T ++ entryTokens es) (indent :: I) k rest true) s := by
  match es with
  | [] => exact ⟨k, rest, rfl, hk, hrest, fun h => .here (by simpa [entryTokens] using h)⟩
  | (key, t) :: es =>
    obtain ⟨hkey, ht, hes⟩ := hes
    obtain ⟨k', rest', htext, hk', hrest', hgo⟩ := entries_read es (I := I) hstep hwidth hes hk hrest
    refine ⟨indent, (writeKey step indent key.toList).1 ++
      (writeTree step (writeKey step indent key.toList).2 t ++ (newLine k' ++ rest')), ?_, Nat.le_refl _,
      solid_writeKey _ _ _ _, fun {s T} h => ?_⟩
    · rw [writeEntries, ← htext]
      simp
    · refine (h.key_stands hstep (width_of_levels hwidth) hkey .more).bind fun s₁ hs₁ => ?_
      refine (tree_read t (place_writeKey _ _ _).1 hstep hwidth ht hk' hrest' hs₁).bind fun s₂ hs₂ => ?_
      simpa [entryTokens] using hgo hs₂

end

/-- At the end of a document the table at the margin ends too. -/
theorem Arrives.run (h : s.Arrives T [0] 0 [] ka) (n : Nat) : s.run (n + 1) = T ++ [.blockEnd, .streamEnd] := by
  obtain ⟨a, ha, hat⟩ := h.stays (by simp)
  have hended : a.ended = .ok (T ++ [.blockEnd, .streamEnd]) := by
    have hclosed : a.closeBlocks (fun _ => true) = { a with indents := [], tokens := .blockEnd :: a.tokens } := by
      unfold closeBlocks
      rw [hat.inFlow, hat.indents]
      rfl
    unfold ended
    rw [hclosed, dropCandidate_none (s := { a with indents := [], tokens := .blockEnd :: a.tokens }) hat.candidate]
    show Except.ok (Token.streamEnd :: .blockEnd :: a.tokens).reverse = _
    simp [hat.tokens]
  rw [Stream.run, ha]
  simp only [hat.rest, hended]

end Stream

namespace Stream

/-- A document begins with the first key of its table. -/
theorem arrives_writeDocument (step : Nat) (k : String) (t : Tree) (es : List (String × Tree)) :
    (ofChars (writeDocument step ((k, t) :: es))).Arrives [] [] 0 ((writeKey step 0 k.toList).1 ++
      (writeTree step (writeKey step 0 k.toList).2 t ++ (writeEntries step 0 es ++ (newLine 0 ++ [])))) true := by
  have hdocument : writeDocument step ((k, t) :: es) = (writeKey step 0 k.toList).1 ++
      (writeTree step (writeKey step 0 k.toList).2 t ++ (writeEntries step 0 es ++ (newLine 0 ++ []))) := by
    rw [writeDocument]
    simp [newLine, spaces]
  rw [hdocument]
  exact At.arrives_spaces (n := 0) ⟨rfl, rfl, rfl, rfl, rfl, rfl, rfl⟩ (solid_writeKey _ _ _ _)

end Stream

/-- A document is read as the tokens of its table. -/
theorem tokensOf_writeDocument {step n : Nat} (hstep : 2 ≤ step) (hwidth : (n + 1) * step + 1 ≤ lineWidth) {k : String}
    {t : Tree} {es : List (String × Tree)} (hes : KeyedEntries InReach n ((k, t) :: es)) :
    tokensOf (writeDocument step ((k, t) :: es)) = treeTokens (.table ((k, t) :: es)) ++ [.streamEnd] := by
  obtain ⟨hkey, ht, hes⟩ := hes
  have hwidth' : 0 + (n + 1) * step + 1 ≤ lineWidth := by omega
  obtain ⟨k', rest', htext, hk', hrest', hgo⟩ :=
    Stream.entries_read es (I := []) hstep hwidth' hes (Nat.le_refl 0) (show Solid [] by rintro _ ⟨⟩)
  have harrives := Stream.arrives_writeDocument step k t es
  rw [htext] at harrives
  have hread : Stream.Eventually (Stream.Arrives · (.blockMapStart :: entryTokens ((k, t) :: es)) [0] 0 [] true)
      (.ofChars (writeDocument step ((k, t) :: es))) := by
    refine (harrives.key_stands hstep (Stream.width_of_levels hwidth') hkey (.first (by simp))).bind fun s₁ hs₁ => ?_
    refine (Stream.tree_read t (Stream.place_writeKey _ _ _).1 hstep hwidth' ht hk' hrest' hs₁).bind
      fun s₂ hs₂ => ?_
    simpa [entryTokens] using hgo hs₂
  obtain ⟨s, m, hs, hm, hrun⟩ := Stream.run_of_eventually hread (Nat.lt_succ_self _)
  obtain ⟨m, rfl⟩ := Nat.exists_eq_succ_of_ne_zero (Nat.ne_of_gt (Nat.zero_lt_of_lt hm))
  unfold tokensOf
  rw [show (writeDocument step ((k, t) :: es)).length + 1 =
    (Stream.ofChars (writeDocument step ((k, t) :: es))).place.rest.length.succ from rfl, hrun, hs.run]
  simp [treeTokens, entryTokens]

end Portcullis.Yaml
