/-
  Portcullis.Proofs.Yaml.Signs — reading the tokens that a writer makes.

  Each lemma says what one token, or the few that belong together, make of a stream: a hyphen, a
  question mark, brackets around nothing, a scalar, a key with its colon.
-/

import Portcullis.Proofs.Yaml.Steps

namespace Portcullis.Yaml.Stream

variable {s a : Stream} {T T' : List Token} {I J : List Nat} {column : Nat} {rest r : List Char} {ka : Bool} {c : Char}

/-! ## Signs -/

inductive Opens (start : Token) (column : Nat) : List Token → List Nat → List Token → List Nat → Prop
  | first {T : List Token} {I : List Nat} (h : ∀ q ∈ I.head?, q < column) : Opens start column T I (T ++ [start]) I
  | more {T : List Token} {I : List Nat} : Opens start column T (column :: I) T I

theorem Opens.le {start : Token} (h : Opens start column T I T' J) : ∀ q ∈ I.head?, q ≤ column := by
  cases h with
  | first h => exact fun q hq => Nat.le_of_lt (h q hq)
  | more => simp

theorem At.openBlock {start : Token} (h : At s T I column rest ka) (ho : Opens start column T I T' J) :
    At (s.openBlock start) T' (column :: J) column rest ka := by
  unfold Stream.openBlock opens
  rw [h.column, h.indents]
  cases ho with
  | first hI =>
    have hall : I.head?.all (· < column) = true := by simpa [Option.all_eq_true] using hI
    rw [if_pos hall]
    exact ⟨h.rest, h.column, by simp [emit, h.tokens], rfl, h.keyAllowed, h.candidate, h.outer⟩
  | more => simpa using h

/-- Leaving one character behind. -/
theorem At.moveTo (h : At s T I column (c :: rest) ka) (hc : Inked False c) :
    At (s.moveTo rest) T I (column + 1) rest ka := by
  have hplace : s.place.rest = [c] ++ rest := h.rest
  have hmove := Position.moveTo_eq hplace
  rw [Position.foldl_inked (by simpa using hc)] at hmove
  have hcolumn := h.column
  exact ⟨by simp [Stream.moveTo, hmove], by simp [Stream.moveTo, hmove, hcolumn], h.tokens, h.indents, h.keyAllowed,
    h.candidate, h.outer⟩

theorem At.inFlow (h : At s T I column rest ka) : s.inFlow = false := by
  simp [Stream.inFlow, h.outer]

theorem At.emit (h : At s T I column rest ka) (t : Token) (allowed : Bool) :
    At { s.emit t with keyAllowed := allowed } (T ++ [t]) I column rest allowed :=
  ⟨h.rest, h.column, by simp [Stream.emit, h.tokens], h.indents, rfl, h.candidate, h.outer⟩

theorem dropCandidate_none (h : s.candidate = none) : s.dropCandidate = .ok s := by
  obtain ⟨_, _, _, _, _, _⟩ := s
  cases h
  rfl

theorem At.addSign {start : Token} (sign : Token) (allowed : Bool) (h : At s T I column (c :: r) true)
    (hc : Inked False c)
    (ho : Opens start column T I T' J) :
    ∃ s', s.addSign start sign allowed r = .ok s' ∧ At s' (T' ++ [sign]) (column :: J) (column + 1) r allowed := by
  have hopen := h.openBlock ho
  have hmove := hopen.moveTo hc
  refine ⟨_, ?_, hmove.emit sign allowed⟩
  unfold Stream.addSign
  simp only [h.inFlow, h.keyAllowed, Bool.not_true, Bool.and_false, Bool.false_eq_true, if_false,
    dropCandidate_none hopen.candidate]
  rfl

/-- No marker begins with a character and a blank. -/
theorem isMarker_blank (hr : isBlankOrEnd (r.headD endMark) = true) : isMarker (c :: r) = false := by
  cases r with
  | nil => rfl
  | cons d r =>
    rw [List.headD_cons] at hr
    have hd : d ≠ '-' ∧ d ≠ '.' := by
      constructor <;> (rintro rfl; exact absurd hr (by decide))
    cases r <;> simp [isMarker, hd.1, hd.2]

theorem isMarker_of_ne (hminus : c ≠ '-') (hdot : c ≠ '.') : isMarker (c :: r) = false := by
  match r with
  | [] | [_] => rfl
  | _ :: _ :: _ => simp [isMarker, hminus, hdot]

theorem next_item (s : Stream) (hr : isBlankOrEnd (r.headD endMark) = true) :
    s.next '-' r = s.addSign .blockListStart .item true r := by
  unfold next
  rw [isMarker_blank hr, hr]
  simp

theorem next_key (s : Stream) (hr : isBlankOrEnd (r.headD endMark) = true) :
    s.next '?' r = s.addSign .blockMapStart .key (!s.inFlow) r := by
  unfold next
  rw [isMarker_blank hr, hr]
  simp

theorem next_value (s : Stream) (hr : isBlankOrEnd (r.headD endMark) = true) : s.next ':' r = s.addValue r := by
  unfold next
  rw [isMarker_blank hr, hr]
  simp

/-- The hyphen of an item. -/
theorem Arrives.item (h : s.Arrives T I column ('-' :: r) true) (hr : isBlankOrEnd (r.headD endMark) = true)
    (ho : Opens .blockListStart column T I T' J) :
    Eventually (At · (T' ++ [.item]) (column :: J) (column + 1) r true) s :=
  h.eventually ho.le fun a hat => by
    obtain ⟨s', hs', hat'⟩ := hat.addSign .item true (inked_of_printed (by decide)) ho
    exact ⟨s', (next_item a hr).trans hs', by rw [hat'.rest], hat'⟩

/-- The question mark before a key. -/
theorem Arrives.question (h : s.Arrives T I column ('?' :: r) true) (hr : isBlankOrEnd (r.headD endMark) = true)
    (ho : Opens .blockMapStart column T I T' J) :
    Eventually (At · (T' ++ [.key]) (column :: J) (column + 1) r true) s :=
  h.eventually ho.le fun a hat => by
    obtain ⟨s', hs', hat'⟩ := hat.addSign .key true (inked_of_printed (by decide)) ho
    refine ⟨s', ?_, by rw [hat'.rest], hat'⟩
    rw [next_key a hr, hat.inFlow]
    exact hs'

/-- The colon behind a key that has a question mark. -/
theorem Arrives.colon (h : s.Arrives T (column :: I) column (':' :: r) true)
    (hr : isBlankOrEnd (r.headD endMark) = true) :
    Eventually (At · (T ++ [.value]) (column :: I) (column + 1) r true) s :=
  h.eventually (by simp) fun a hat => by
    obtain ⟨s', hs', hat'⟩ := hat.addSign .value true (inked_of_printed (by decide))
      (show Opens .blockMapStart _ _ _ _ _ from .more)
    refine ⟨s', ?_, by rw [hat'.rest], hat'⟩
    rw [next_value a hr]
    unfold addValue
    rw [hat.candidate, hat.inFlow]
    exact hs'

/-! ## Content -/

def here (s : Stream) : Candidate :=
  ⟨s.tokens.length, s.place.index, s.place.line, s.place.column, !s.inFlow && s.indents.head? = some s.place.column⟩

/-- A stream behind content that began where `s` stands. -/
structure Past (s : Stream) (T : List Token) (I : List Nat) (ka : Bool) (w rest : List Char) (s' : Stream) : Prop where
  place : s'.place = { w.foldl .count s.place with rest }
  tokens : s'.tokens.reverse = T
  indents : s'.indents = I
  keyAllowed : s'.keyAllowed = false
  candidate : s'.candidate = if ka then some s.here else none
  outer : s'.outer = []

theorem At.addContent {w : List Char} (h : At s T I column (w ++ rest) ka) (t : Token) :
    ∃ s', s.addContent t rest = .ok s' ∧ Past s (T ++ [t]) I ka w rest s' := by
  have hmove := Position.moveTo_eq h.rest
  unfold Stream.addContent addCandidate
  rw [h.keyAllowed]
  cases ka with
  | false =>
    refine ⟨_, rfl, hmove, ?_, h.indents, rfl, h.candidate, h.outer⟩
    simp [Stream.emit, Stream.moveTo, h.tokens]
  | true =>
    rw [if_pos rfl, dropCandidate_none h.candidate]
    refine ⟨_, rfl, hmove, ?_, h.indents, rfl, rfl, h.outer⟩
    simp [Stream.emit, Stream.moveTo, h.tokens]

/-! ## Scalars -/

variable {style : Style} {cs : List Char} {indent : Nat}

/-- What begins a plain scalar has no other meaning. -/
theorem next_plain (h : Begins c r) (hs : s.inFlow = false) : s.next c r = s.addPlain c r := by
  have hother : ∀ d ∈ leadingIndicators, c ≠ d := fun d hd hc => h.leading (hc ▸ hd)
  simp only [leadingIndicators, List.forall_mem_cons] at hother
  have hsign := h.sign
  unfold next
  rw [h.marker]
  simp only [hother, decide_false, Bool.false_and, Bool.and_false, Bool.false_eq_true, if_false, hs, Bool.false_or]
  split <;> simp_all

theorem beginsPlain_of_begins (h : Begins c r) : beginsPlain false c (r.headD endMark) = true := by
  have hother : ∀ d ∈ leadingIndicators, c ≠ d := fun d hd hc => h.leading (hc ▸ hd)
  simp only [leadingIndicators, List.forall_mem_cons] at hother
  unfold beginsPlain indicators
  by_cases hsign : c = '-' ∨ c = '?' ∨ c = ':'
  · rw [h.sign hsign]
    simp [hsign]
  · push Not at hsign
    simp [h.notBlank, hother, hsign]

theorem addPlain_eq (h : Begins c r) (hs : s.inFlow = false) {p : PlainText}
    (hp : readPlain false s.innerIndent .empty (c :: r) = p) :
    s.addPlain c r = (s.addContent (.scalar p.text true) p.rest).map fun s => { s with keyAllowed := p.broken } := by
  unfold addPlain
  rw [hs, if_pos (beginsPlain_of_begins h), hp]
  rfl

theorem next_single (h : Single cs) (hi : 0 < indent) (fold : Bool) (wc : Nat) (hrest : rest.head? ≠ some '\'')
    (s : Stream) :
    s.next '\'' (writeSingleRuns indent fold false wc (runs cs) ++ '\'' :: rest) =
      s.addContent (.scalar (seenRuns (runs cs)) false) rest := by
  have hmarker : isMarker ('\'' :: (writeSingleRuns indent fold false wc (runs cs) ++ '\'' :: rest)) = false :=
    isMarker_of_ne (by decide) (by decide)
  unfold next
  rw [hmarker]
  simp only [Bool.and_false, Bool.false_eq_true, if_false]
  show s.addQuoted .single _ = _
  unfold addQuoted
  rw [readQuoted_single h hi fold wc hrest]
  rfl

theorem next_double (cs : List Char) (hi : 0 < indent) (hwidth : indent + 1 ≤ lineWidth) (fold : Bool) (wc : Nat)
    (rest : List Char) (s : Stream) :
    s.next '"' (writeDoubleChars indent fold false true wc cs ++ '"' :: rest) =
      s.addContent (.scalar cs false) rest := by
  have hmarker : isMarker ('"' :: (writeDoubleChars indent fold false true wc cs ++ '"' :: rest)) = false :=
    isMarker_of_ne (by decide) (by decide)
  unfold next
  rw [hmarker]
  simp only [Bool.and_false, Bool.false_eq_true, if_false]
  show s.addQuoted .double _ = _
  unfold addQuoted
  rw [readQuoted_double cs hi hwidth fold wc rest]
  rfl

theorem solid_plain (h : Begins c r) : Solid (c :: r) := by
  obtain ⟨hspace, hbreak⟩ := not_space_of_not_blank h.notBlank
  have hhash : c ≠ '#' := fun hc => h.leading (by rw [hc]; decide)
  exact solid_cons (by simp [isSolid, hspace, hhash, h.mark, hbreak]) r

/-- The white space behind a plain scalar ends it where a block is indented by no more. -/
theorem readPlain_newLine {least k : Nat} (hk : k < least) (hrest : Solid rest) :
    readPlain false least .empty (newLine k ++ rest) = ⟨[], rest, true⟩ := by
  have hbreak : isBreak '\n' = true := by decide
  have hgap : Gap.empty.newLine '\n' = ⟨[], ['\n'], 0⟩ := rfl
  have hbroken : Gap.broken ⟨[], ['\n'], k⟩ = true := rfl
  rw [newLine, List.cons_append, readPlain, if_neg (by decide), if_pos hbreak, hgap, plain_indent (by simp),
    Nat.zero_add]
  split
  · -- Only at the margin there may be a marker, and then it is left as it is.
    rename_i hmarker
    obtain rfl : k = 0 := by
      by_contra hne
      rw [isMarker_newLine (Nat.pos_of_ne_zero hne)] at hmarker
      cases hmarker
    rfl
  · cases rest with
    | nil => rfl
    | cons c r =>
      have hc := hrest c rfl
      simp only [isSolid, Bool.and_eq_true, decide_eq_true_eq, Bool.not_eq_true'] at hc
      rw [readPlain, if_neg hc.1.1.1, if_neg (by simp [hc.2]), if_pos (by simp [hbroken, hk]), hbroken]

/-! ## Behind scalars -/

/-- Behind content that need not be a key a new line leads on. -/
theorem Past.arrives_newLine {w : List Char} {q n : Nat} (h : Past a T (q :: I) ka w (newLine n ++ rest) s)
    (ha : At a T' (q :: I) column r ka) (hq : q < column) (hrest : Solid rest) : s.Arrives T (q :: I) n rest true := by
  have hplace := h.place
  have hline := Stream.arrives_newLine (by rw [h.place]) hrest h.outer fun c hc => by
    rw [h.candidate] at hc
    cases ka with
    | false => cases hc
    | true =>
      cases hc
      refine ⟨?_, ?_⟩
      · have hne : q ≠ column := Nat.ne_of_lt hq
        simp [here, ha.indents, ha.column, hne]
      · rw [h.place]
        exact Position.line_le_foldl w a.place
  rwa [h.tokens, h.indents] at hline

/-- The same if the new line belongs to the content. -/
theorem Past.arrives_here {w : List Char} {q n : Nat} (h : Past a T (q :: I) ka (w ++ newLine n) rest s)
    (ha : At a T' (q :: I) column r ka) (hq : q < column) (hrest : Solid rest) :
    Arrives { s with keyAllowed := true } T (q :: I) n rest true := by
  have hplace := h.place
  rw [List.foldl_append, Position.foldl_newLine] at hplace
  have hhere := Stream.arrives_here (s := { s with keyAllowed := true }) (by rw [hplace]) hrest h.outer fun c hc => by
    change c ∈ s.candidate at hc
    rw [h.candidate] at hc
    cases ka with
    | false => cases hc
    | true =>
      cases hc
      refine ⟨?_, ?_⟩
      · have hne : q ≠ column := Nat.ne_of_lt hq
        simp [here, ha.indents, ha.column, hne]
      · rw [hplace]
        exact Nat.lt_succ_of_le (Position.line_le_foldl w a.place)
  have hcolumn : s.place.column = n := by rw [hplace]
  simpa [h.tokens, h.indents, hcolumn] using hhere

/-- Content that is read as a token. -/
theorem Arrives.past {t : Token} {w : List Char} (hI : ∀ q ∈ I.head?, q ≤ column)
    (hnext : ∀ a, At a T I column (c :: (w ++ rest)) ka → a.next c (w ++ rest) = a.addContent t rest)
    (h : s.Arrives T I column (c :: (w ++ rest)) ka) :
    Eventually (fun s' => ∃ a, At a T I column (c :: (w ++ rest)) ka ∧ Past a (T ++ [t]) I ka (c :: w) rest s') s := by
  refine h.eventually hI fun a ha => ?_
  obtain ⟨s', hs', hpast⟩ := At.addContent (w := c :: w) ha t
  refine ⟨s', (hnext a ha).trans hs', ?_, a, ha, hpast⟩
  rw [hpast.place]
  show rest.length ≤ (w ++ rest).length
  rw [List.length_append]
  omega

/-- Content that is read up to a new line. -/
theorem Arrives.content {q k : Nat} {t : Token} {w : List Char} (hq : q < column) (hrest : Solid rest)
    (hnext : ∀ a : Stream, a.next c (w ++ (newLine k ++ rest)) = a.addContent t (newLine k ++ rest))
    (h : s.Arrives T (q :: I) column (c :: (w ++ (newLine k ++ rest))) ka) :
    Eventually (Arrives · (T ++ [t]) (q :: I) k rest true) s := by
  refine (h.past (by rintro _ ⟨⟩; exact Nat.le_of_lt hq) fun a _ => hnext a).bind fun s' ⟨a, ha, hpast⟩ => ?_
  exact .here (hpast.arrives_newLine ha hq hrest)

/-- A plain scalar takes the new line with it. -/
theorem Arrives.plain {q k wc : Nat} {fold : Bool} (hcs : Plain cs) (hi : q < indent) (hq : q < column) (hk : k ≤ q)
    (hrest : Solid rest)
    (h : s.Arrives T (q :: I) column (writePlainRuns indent fold wc (runs cs) ++ (newLine k ++ rest)) ka) :
    Eventually (Arrives · (T ++ [.scalar cs true]) (q :: I) k rest true) s := by
  obtain ⟨c, w, hwritten, hbegin⟩ := begins_plain hcs indent fold wc
  have hbegins := hbegin (newLine k ++ rest) (by simp [newLine])
  have hread := readPlain_text hcs (Nat.zero_lt_of_lt hi) (show q + 1 ≤ indent from hi) fold wc (newLine k ++ rest)
  rw [readPlain_newLine (Nat.lt_succ_of_le hk) hrest, hwritten] at hread
  rw [hwritten] at h
  refine h.eventually (by rintro _ ⟨⟩; exact Nat.le_of_lt hq) fun a ha => ?_
  have hinner : a.innerIndent = q + 1 := by simp [innerIndent, ha.indents]
  have hall : At a T (q :: I) column ((c :: w ++ newLine k) ++ rest) ka := by
    rw [List.append_assoc]
    exact ha
  obtain ⟨s', hs', hpast⟩ := hall.addContent (.scalar cs true)
  refine ⟨{ s' with keyAllowed := true }, ?_, ?_, hpast.arrives_here ha hq hrest⟩
  · show a.next c (w ++ (newLine k ++ rest)) = _
    rw [next_plain hbegins ha.inFlow, addPlain_eq hbegins ha.inFlow (hinner ▸ hread)]
    show Except.map _ (a.addContent (.scalar (cs ++ []) true) rest) = _
    rw [List.append_nil, hs']
    rfl
  · show s'.place.rest.length ≤ (w ++ (newLine k ++ rest)).length
    rw [hpast.place, List.length_append, List.length_append]
    show rest.length ≤ _
    omega

/-- A scalar that is no key on one line. -/
theorem Arrives.scalar (hsuits : style.Suits cs) {q k wc : Nat} {fold : Bool} (hi : q < indent)
    (hwidth : indent + 1 ≤ lineWidth) (hq : q < column) (hk : k ≤ q) (hrest : Solid rest)
    (h : s.Arrives T (q :: I) column (writeScalar style indent fold wc cs ++ (newLine k ++ rest)) ka) :
    Eventually (Arrives · (T ++ [.scalar (style.seen cs) (style = .plain)]) (q :: I) k rest true) s := by
  have hpos : 0 < indent := Nat.zero_lt_of_lt hi
  cases style with
  | plain => exact h.plain hsuits hi hq hk hrest
  | single =>
    refine Arrives.content (w := writeSingleRuns indent fold false (wc + 1) (runs cs) ++ ['\'']) hq hrest (fun a => ?_) h
    rw [List.append_assoc]
    exact next_single hsuits hpos fold (wc + 1) (by simp [newLine]) a
  | double =>
    refine Arrives.content (w := writeDoubleChars indent fold false true (wc + 1) cs ++ ['"']) hq hrest (fun a => ?_) h
    rw [List.append_assoc]
    exact next_double cs hpos hwidth fold (wc + 1) _ a

/-! ## Keys -/

theorem dropStale_of_counts (h : ∀ c ∈ s.candidate, c.counts s.place = true) (houter : s.outer = []) :
    s.dropStale = .ok s := by
  obtain ⟨place, tokens, indents, keyAllowed, candidate, outer⟩ := s
  cases houter
  cases candidate with
  | none => rfl
  | some c =>
    have hc : c.counts place = true := h c rfl
    simp [dropStale, allCandidates, hc]

theorem closeBlocks_of_stays {closes : Nat → Bool} (h : ∀ q ∈ s.indents.head?, closes q = false) :
    s.closeBlocks closes = s := by
  obtain ⟨place, tokens, indents, keyAllowed, candidate, outer⟩ := s
  unfold closeBlocks
  cases indents with
  | nil => simp
  | cons q I =>
    have hq : closes q = false := h q rfl
    simp [hq]

/-- Behind a key on one line the colon follows at once, and the key still counts. -/
theorem Past.advance {w : List Char} {t : Token} (h : Past a (T ++ [t]) I true w (':' :: r) s)
    (ha : At a T I column rest true) (hI : ∀ q ∈ I.head?, q ≤ column) (hw : ∀ c ∈ w, Inked False c)
    (hlength : w.length ≤ keyReach) : s.advance = .ok s := by
  have hplace := h.place
  rw [Position.foldl_inked hw] at hplace
  have hrest : s.place.rest = ':' :: r := by rw [hplace]
  have hcolumn : s.place.column = column + w.length := by rw [hplace, ← ha.column]
  have hstale : s.dropStale = .ok s := by
    refine dropStale_of_counts (fun c hc => ?_) h.outer
    rw [h.candidate] at hc
    cases hc
    rw [hplace]
    simp [here, Candidate.counts, hlength]
  have hclose : s.closeBlocks (s.place.column < ·) = s := closeBlocks_of_stays fun q hq => by
    rw [h.indents] at hq
    have hle := hI q hq
    rw [hcolumn]
    exact decide_eq_false (by omega)
  rw [advance_here (by rw [hrest]; exact solid_cons (by decide) r), hstale]
  exact congrArg Except.ok hclose

/-- The colon behind a key on one line makes a key of it. -/
theorem Past.addValue {w : List Char} {t : Token} (h : Past a (T ++ [t]) I true w (':' :: r) s)
    (ha : At a T I column rest true) (hw : ∀ c ∈ w, Inked False c) (ho : Opens .blockMapStart column T I T' J) :
    ∃ s', s.addValue r = .ok s' ∧ At s' (T' ++ [.key, t, .value]) (column :: J) (column + w.length + 1) r false := by
  have hplace := h.place
  rw [Position.foldl_inked hw] at hplace
  have hrest : s.place.rest = [':'] ++ r := by rw [hplace]; rfl
  have hcolumn : s.place.column = column + w.length := by rw [hplace, ← ha.column]
  have hmove := Position.moveTo_eq hrest
  rw [Position.foldl_inked (by simpa using inked_of_printed (by decide))] at hmove
  have htokens : s.tokens = t :: T.reverse := by
    rw [← List.reverse_reverse s.tokens, h.tokens]
    simp
  have hnumber : a.tokens.length = T.length := by
    rw [← ha.tokens]
    simp
  have hflow : s.inFlow = false := by simp [inFlow, h.outer]
  unfold Stream.addValue
  rw [h.candidate, if_pos rfl]
  simp only [hflow, Bool.not_false, Bool.true_and, here, ha.column, opens, h.indents]
  cases ho with
  | first hI =>
    have hall : I.head?.all (· < column) = true := by simpa [Option.all_eq_true] using hI
    simp only [hall, if_true]
    refine ⟨_, rfl, ?_, ?_, ?_, ?_, rfl, rfl, h.outer⟩ <;>
      simp [putIn, emit, Stream.moveTo, hmove, hcolumn, hnumber, htokens, h.indents]
  | more =>
    simp only [List.head?_cons, Option.all_some, Nat.lt_irrefl, decide_false, Bool.false_eq_true, if_false]
    refine ⟨_, rfl, ?_, ?_, ?_, ?_, rfl, rfl, h.outer⟩ <;>
      simp [putIn, emit, Stream.moveTo, hmove, hcolumn, hnumber, htokens, h.indents]

/-- Content forbids a key behind it. -/
theorem addContent_forbids (s : Stream) (t : Token) (rest : List Char) :
    (s.addContent t rest).map (fun s => { s with keyAllowed := false }) = s.addContent t rest := by
  unfold addContent
  cases s.addCandidate <;> rfl

theorem readPlain_colon (least : Nat) (hr : isBlankOrEnd (r.headD endMark) = true) :
    readPlain false least .empty (':' :: r) = ⟨[], ':' :: r, false⟩ := by
  have hends : endsPlain false ':' (r.headD endMark) = true := by
    unfold endsPlain
    rw [hr]
    rfl
  rw [readPlain, if_neg (by decide), if_neg (by decide), hends]
  rfl

/-- A scalar on one line before a colon. -/
theorem Arrives.key_scalar (hsuits : style.Suits cs) {wc : Nat} (hi : ∀ q ∈ I.head?, q < indent) (hpos : 0 < indent)
    (hwidth : indent + 1 ≤ lineWidth) (hI : ∀ q ∈ I.head?, q ≤ column) (hr : isBlankOrEnd (r.headD endMark) = true)
    (h : s.Arrives T I column (writeScalar style indent false wc cs ++ ':' :: r) true) :
    Eventually (fun s' => ∃ a, At a T I column (writeScalar style indent false wc cs ++ ':' :: r) true ∧
      Past a (T ++ [.scalar (style.seen cs) (style = .plain)]) I true
        (writeScalar style indent false wc cs) (':' :: r) s')
      s := by
  cases style with
  | plain =>
    obtain ⟨c, w, hwritten, hbegin⟩ := begins_plain hsuits indent false wc
    have hbegins := hbegin (':' :: r) (by simp)
    have hscalar : writeScalar .plain indent false wc cs = c :: w := hwritten
    rw [hscalar] at h ⊢
    refine h.past hI fun a ha => ?_
    have hinner : a.innerIndent ≤ indent := by
      unfold innerIndent
      rw [ha.indents]
      cases I with
      | nil => exact Nat.zero_le _
      | cons q I => exact hi q rfl
    have hread := readPlain_text hsuits hpos hinner false wc (':' :: r)
    rw [readPlain_colon _ hr, hwritten] at hread
    rw [next_plain hbegins ha.inFlow, addPlain_eq hbegins ha.inFlow hread]
    show (a.addContent (.scalar (cs ++ []) true) (':' :: r)).map (fun s => { s with keyAllowed := false }) = _
    rw [List.append_nil, addContent_forbids]
    rfl
  | single =>
    refine Arrives.past (w := writeSingleRuns indent false false (wc + 1) (runs cs) ++ ['\'']) hI (fun a _ => ?_) h
    rw [List.append_assoc]
    exact next_single hsuits hpos false (wc + 1) (by simp) a
  | double =>
    refine Arrives.past (w := writeDoubleChars indent false false true (wc + 1) cs ++ ['"']) hI (fun a _ => ?_) h
    rw [List.append_assoc]
    exact next_double cs hpos hwidth false (wc + 1) _ a

/-- What is written of a text on one line stays on the line. -/
theorem inked_line (hsuits : style.Suits cs) (hline : ∀ c ∈ cs, isBreak c = false) (indent wc : Nat) :
    ∀ c ∈ writeScalar style indent false wc cs, Inked False c := by
  refine inked_scalar hsuits (by simp) ?_ wc
  rintro ⟨c, hc, hbreak⟩
  rw [hline c hc] at hbreak
  cases hbreak

/-- A key on one line, with its colon. -/
theorem Arrives.simpleKey (hsuits : style.Suits cs) {wc : Nat} (hline : ∀ c ∈ cs, isBreak c = false)
    (hi : ∀ q ∈ I.head?, q < indent) (hpos : 0 < indent)
    (hwidth : indent + 1 ≤ lineWidth) (hr : isBlankOrEnd (r.headD endMark) = true)
    (hlength : (writeScalar style indent false wc cs).length ≤ keyReach) (ho : Opens .blockMapStart column T I T' J)
    (h : s.Arrives T I column (writeScalar style indent false wc cs ++ ':' :: r) true) :
    Eventually (At · (T' ++ [.key, .scalar (style.seen cs) (style = .plain), .value]) (column :: J)
      (column + (writeScalar style indent false wc cs).length + 1) r false) s := by
  have hinked := inked_line hsuits hline indent wc
  refine (h.key_scalar hsuits hi hpos hwidth ho.le hr).bind fun s₁ ⟨a, ha, hpast⟩ => ?_
  obtain ⟨s₂, hs₂, hat⟩ := hpast.addValue ha hinked ho
  refine .step ⟨s₁, ':', r, hpast.advance ha ho.le hinked hlength, ?_, (next_value s₁ hr).trans hs₂, ?_⟩ (.here hat)
  · rw [hpast.place]
  · rw [hat.rest, hpast.place]
    simp

/-! ## Brackets -/

structure Inside (s : Stream) (T : List Token) (I : List Nat) (rest : List Char)
    (around : Option Candidate) : Prop where
  rest : s.place.rest = rest
  tokens : s.tokens.reverse = T
  indents : s.indents = I
  candidate : s.candidate = none
  outer : s.outer = [around]
  around : ∀ c ∈ around, c.required = false ∧ c.line ≤ s.place.line

theorem At.openBracket {q : Nat} {t : Token} (h : At s T (q :: I) column (c :: rest) ka) (hq : q < column) :
    ∃ s' around, s.openBracket t rest = .ok s' ∧ Inside s' (T ++ [t]) (q :: I) rest around := by
  have hplace : s.place.rest = [c] ++ rest := h.rest
  have hmove := Position.moveTo_eq hplace
  have hline : s.place.line ≤ (s.place.moveTo rest).line := by
    rw [hmove]
    exact Position.line_le_foldl [c] s.place
  unfold Stream.openBracket addCandidate
  rw [h.keyAllowed]
  cases ka with
  | false =>
    refine ⟨_, none, rfl, ?_, ?_, h.indents, rfl, ?_, by simp⟩
    · simp [Stream.emit, Stream.moveTo, hmove]
    · simp [Stream.emit, Stream.moveTo, h.tokens]
    · simp [h.candidate, h.outer]
  | true =>
    rw [if_pos rfl, dropCandidate_none h.candidate]
    refine ⟨_, some s.here, rfl, ?_, ?_, h.indents, rfl, ?_, ?_⟩
    · simp [Stream.emit, Stream.moveTo, hmove]
    · simp [Stream.emit, Stream.moveTo, h.tokens]
    · simp [h.outer, here]
    · rintro _ ⟨⟩
      have hne : q ≠ column := Nat.ne_of_lt hq
      exact ⟨by simp [here, h.indents, h.column, hne], hline⟩

/-- The closing bracket that follows at once. -/
theorem Inside.advance {around : Option Candidate} (h : Inside s T I (c :: rest) around) (hc : isSolid c = true) :
    ∃ a around, s.advance = .ok a ∧ Inside a T I (c :: rest) around := by
  have hrequired : s.allCandidates.any (fun c => c.required && !c.counts s.place) = false := by
    rw [List.any_eq_false]
    intro d hd
    have hmem : d ∈ around := by simpa [allCandidates, h.candidate, h.outer, eq_comm] using hd
    simp [(h.around d hmem).1]
  rw [advance_here (by rw [h.rest]; exact solid_cons hc rest), dropStale, hrequired, if_neg (by decide)]
  refine ⟨_, around.filter (·.counts s.place), rfl, ?_⟩
  have hflow : ∀ t : Stream, t.outer ≠ [] → t.closeBlocks (t.place.column < ·) = t := fun t ht => by
    unfold closeBlocks
    rw [if_pos (by simpa [inFlow] using ht)]
  show (closeBlocks _ _).Inside _ _ _ _
  rw [hflow _ (by simp [h.outer])]
  refine ⟨h.rest, h.tokens, h.indents, by simp [h.candidate], by simp [h.outer], fun d hd => h.around d ?_⟩
  exact (Option.filter_eq_some_iff.mp hd).1

/-- The closing bracket gives the candidate around it back. -/
theorem Inside.closeBracket {k : Nat} {around : Option Candidate} (h : Inside s T I (c :: (newLine k ++ rest)) around)
    (hrest : Solid rest) (t : Token) : ∃ s', s.closeBracket t (newLine k ++ rest) = .ok s' ∧
      s'.place.rest = newLine k ++ rest ∧ s'.Arrives (T ++ [t]) I k rest true := by
  have hplace : s.place.rest = [c] ++ (newLine k ++ rest) := h.rest
  have hmove := Position.moveTo_eq hplace
  have hline : s.place.line ≤ (s.place.moveTo (newLine k ++ rest)).line := by
    rw [hmove]
    exact Position.line_le_foldl [c] s.place
  let s' : Stream :=
    { (s.emit t).moveTo (newLine k ++ rest) with keyAllowed := false, candidate := around, outer := [] }
  have hs' : s.closeBracket t (newLine k ++ rest) = .ok s' := by
    have houter := h.outer
    unfold Stream.closeBracket
    rw [dropCandidate_none h.candidate]
    obtain ⟨place, tokens, indents, keyAllowed, candidate, outer⟩ := s
    cases houter
    rfl
  have hrest' : s'.place.rest = newLine k ++ rest := congrArg Position.rest hmove
  refine ⟨s', hs', hrest', ?_⟩
  have harrives := Stream.arrives_newLine hrest' hrest rfl fun d hd =>
    ⟨(h.around d hd).1, (h.around d hd).2.trans hline⟩
  have htokens : s'.tokens.reverse = T ++ [t] := by simp [s', Stream.moveTo, emit, h.tokens]
  rwa [htokens, show s'.indents = I from h.indents] at harrives

/-- Brackets around nothing. -/
theorem Arrives.brackets {q k : Nat} {c d : Char} {t t' : Token}
    (hopen : ∀ (a : Stream) r, a.next c r = a.openBracket t r)
    (hclose : ∀ (a : Stream) r, a.next d r = a.closeBracket t' r) (hd : isSolid d = true) (hq : q < column)
    (hrest : Solid rest) (h : s.Arrives T (q :: I) column (c :: d :: (newLine k ++ rest)) ka) :
    Eventually (Arrives · (T ++ [t, t']) (q :: I) k rest true) s := by
  refine (h.eventually (P := fun s' => ∃ around, Inside s' (T ++ [t]) (q :: I) (d :: (newLine k ++ rest)) around)
    (by rintro _ ⟨⟩; exact Nat.le_of_lt hq) fun a ha => ?_).bind fun s₁ ⟨around, hinside⟩ => ?_
  · obtain ⟨s', around, hs', hinside⟩ := ha.openBracket (t := t) hq
    exact ⟨s', (hopen a _).trans hs', by rw [hinside.rest], around, hinside⟩
  · obtain ⟨a, around, hadvance, ha⟩ := hinside.advance hd
    obtain ⟨s', hs', hrest', harrives⟩ := ha.closeBracket hrest t'
    refine .step ⟨a, d, _, hadvance, ha.rest, (hclose a _).trans hs', ?_⟩ (.here ?_)
    · rw [hrest', hinside.rest]
      exact Nat.lt_succ_self _
    · simpa using harrives

theorem Arrives.emptyList {q k : Nat} (hq : q < column) (hrest : Solid rest)
    (h : s.Arrives T (q :: I) column ('[' :: ']' :: (newLine k ++ rest)) ka) :
    Eventually (Arrives · (T ++ [.flowListStart, .flowListEnd]) (q :: I) k rest true) s :=
  h.brackets (fun a r => by simp [next, isMarker_of_ne]) (fun a r => by simp [next, isMarker_of_ne])
    (by decide) hq hrest

theorem Arrives.emptyMap {q k : Nat} (hq : q < column) (hrest : Solid rest)
    (h : s.Arrives T (q :: I) column ('{' :: '}' :: (newLine k ++ rest)) ka) :
    Eventually (Arrives · (T ++ [.flowMapStart, .flowMapEnd]) (q :: I) k rest true) s :=
  h.brackets (fun a r => by simp [next, isMarker_of_ne]) (fun a r => by simp [next, isMarker_of_ne])
    (by decide) hq hrest

end Portcullis.Yaml.Stream
