/-
  Portcullis.Proofs.Yaml.Steps — the reading of a stream, seen from token to token.

  Between two tokens a stream stands behind the first one (`At`), goes over the white space and
  closes the blocks that end there. `Arrives` says where it gets to, and `Eventually` what holds
  after some tokens more.
  - `arrives_of_gap`: white space is left behind, and a candidate of an earlier line with it.
  - `run_of_eventually`: what holds after some tokens decides the tokens of the whole stream.
-/

import Portcullis.Proofs.Yaml.Ink
import Portcullis.Yaml.Token.Stream

namespace Portcullis.Yaml

/-! ## Places -/

namespace Position

variable {p : Position} {u rest : List Char}

theorem moveTo_eq (h : p.rest = u ++ rest) : p.moveTo rest = { u.foldl count p with rest } := by
  unfold moveTo
  rw [h, List.length_append, Nat.add_sub_cancel, List.take_left]

theorem line_le_count (p : Position) (c : Char) : p.line ≤ (p.count c).line := by
  unfold count
  split
  · exact Nat.le_succ _
  · exact Nat.le_refl _

theorem line_le_foldl (u : List Char) (p : Position) : p.line ≤ (u.foldl count p).line := by
  induction u generalizing p with
  | nil => exact Nat.le_refl _
  | cons c u ih => exact (line_le_count p c).trans (ih (p.count c))

/-- Characters on one line. -/
theorem foldl_inked (h : ∀ c ∈ u, Inked False c) (p : Position) :
    u.foldl count p = { p with index := p.index + u.length, column := p.column + u.length } := by
  induction u generalizing p with
  | nil => rfl
  | cons c u ih =>
    obtain ⟨hc, hu⟩ := List.forall_mem_cons.mp h
    have hbreak : isBreak c = false := Bool.eq_false_iff.mpr hc.line
    rw [List.foldl_cons, ih hu, count, if_neg (by simp [hbreak]), if_neg hc.mark]
    simp only [List.length_cons, Position.mk.injEq, true_and]
    omega

theorem foldl_newLine (n : Nat) (p : Position) :
    (newLine n).foldl count p = { p with index := p.index + 1 + n, line := p.line + 1, column := n } := by
  have hspaces : ∀ c ∈ spaces n, Inked False c := fun c hc => inked_spaces hc
  have hbreak : isBreak '\n' = true := by decide
  rw [newLine, List.foldl_cons, foldl_inked hspaces, count, if_pos hbreak]
  simp [spaces]

end Position

/-! ## White space -/

def isSolid (c : Char) : Bool := c ≠ ' ' && c ≠ '#' && c ≠ byteOrderMark && !isBreak c

def Solid (rest : List Char) : Prop := ∀ c ∈ rest.head?, isSolid c = true

variable {rest : List Char}

theorem solid_cons {c : Char} (h : isSolid c = true) (r : List Char) : Solid (c :: r) := by
  rintro _ ⟨⟩
  exact h

theorem Solid.mark (h : Solid rest) : rest.head? ≠ some byteOrderMark := fun hmark =>
  absurd (h _ hmark) (by decide)

theorem skipGap_solid (h : Solid rest) : Stream.skipGap false rest = (rest, false) := by
  cases rest with
  | nil => rfl
  | cons c r =>
    have hc := h c rfl
    simp only [isSolid, Bool.and_eq_true, decide_eq_true_eq, Bool.not_eq_true'] at hc
    simp [Stream.skipGap, hc]

theorem skipGap_spaces (n : Nat) (rest : List Char) :
    Stream.skipGap false (spaces n ++ rest) = Stream.skipGap false rest := by
  have hbreak : isBreak ' ' = false := by decide
  induction n with
  | zero => rfl
  | succ n ih =>
    rw [show spaces (n + 1) = ' ' :: spaces n from rfl, List.cons_append, Stream.skipGap]
    simpa [hbreak] using ih

theorem skipGap_newLine (h : Solid rest) (n : Nat) : Stream.skipGap false (newLine n ++ rest) = (rest, true) := by
  have hbreak : isBreak '\n' = true := by decide
  rw [newLine, List.cons_append, Stream.skipGap, if_pos hbreak, skipGap_spaces, skipGap_solid h]

namespace Stream

/-! ## Standing behind a token, and at one -/

/-- Where a stream stands in the block context, without a key under way. -/
structure At (s : Stream) (T : List Token) (I : List Nat) (column : Nat) (rest : List Char) (keyAllowed : Bool) :
    Prop where
  rest : s.place.rest = rest
  column : s.place.column = column
  tokens : s.tokens.reverse = T
  indents : s.indents = I
  keyAllowed : s.keyAllowed = keyAllowed
  candidate : s.candidate = none
  outer : s.outer = []

/-- The next token begins at a column, where the blocks that are indented further end. -/
def Arrives (s : Stream) (T : List Token) (I : List Nat) (column : Nat) (rest : List Char) (keyAllowed : Bool) : Prop :=
  rest.length ≤ s.place.rest.length ∧ ∃ a, s.advance = .ok a ∧
    At a (T ++ List.replicate (I.takeWhile (column < ·)).length .blockEnd) (I.dropWhile (column < ·)) column rest
      keyAllowed

variable {s : Stream} {T : List Token} {I : List Nat} {column : Nat} {ka : Bool}

/-- Inside a block that is indented by no more, no block ends. -/
theorem Arrives.stays (h : s.Arrives T I column rest ka) (hI : ∀ q ∈ I.head?, q ≤ column) :
    ∃ a, s.advance = .ok a ∧ At a T I column rest ka := by
  obtain ⟨-, a, ha, hat⟩ := h
  refine ⟨a, ha, ?_⟩
  cases I with
  | nil => simpa using hat
  | cons q I =>
    have hq : ¬ column < q := Nat.not_lt.mpr (hI q rfl)
    simpa [hq] using hat

/-- A block that is indented further ends. -/
theorem Arrives.close {q : Nat} (h : s.Arrives T (q :: I) column rest ka) (hq : column < q) :
    s.Arrives (T ++ [.blockEnd]) I column rest ka := by
  obtain ⟨hlen, a, ha, hat⟩ := h
  refine ⟨hlen, a, ha, ?_⟩
  simpa [hq, List.replicate_succ] using hat

/-- White space leads to the next token, and a candidate of an earlier line is given up. -/
theorem arrives_of_gap {u : List Char} {broken : Bool} (hrest : s.place.rest = u ++ rest)
    (hgap : skipGap false (u ++ rest) = (rest, broken)) (hmark : (u ++ rest).head? ≠ some byteOrderMark)
    (houter : s.outer = [])
    (hcandidate : ∀ c ∈ s.candidate, c.required = false ∧ c.line < (u.foldl .count s.place).line) :
    s.Arrives s.tokens.reverse s.indents (u.foldl .count s.place).column rest (s.keyAllowed || broken) := by
  have hmove := Position.moveTo_eq hrest
  have hcounts : ∀ c ∈ s.candidate, c.counts (s.place.moveTo rest) = false := fun c hc => by
    have hline := (hcandidate c hc).2
    rw [hmove]
    simp [Candidate.counts, Nat.ne_of_lt hline]
  have hstale : (s.candidate.filter fun c => c.counts (s.place.moveTo rest)) = none := by
    rw [Option.filter_eq_none_iff]
    intro c hc
    simp [hcounts c hc]
  have hrequired :
      ([s.candidate].filterMap id).any (fun c => c.required && !c.counts (s.place.moveTo rest)) = false := by
    rw [List.any_eq_false]
    intro c hc
    have hmem : c ∈ s.candidate := by simpa [eq_comm] using hc
    simp [(hcandidate c hmem).1]
  let m : Stream := { s.moveTo rest with keyAllowed := s.keyAllowed || broken, candidate := none, outer := [] }
  refine ⟨by rw [hrest, List.length_append]; omega, m.closeBlocks (m.place.column < ·), ?_, ?_⟩
  · have hno : decide ((u ++ rest).head? = some byteOrderMark) = false := decide_eq_false hmark
    simp only [advance, hrest, hno, Bool.and_false, Bool.false_eq_true, if_false, hgap, dropStale,
      allCandidates, moveTo, hstale, inFlow, houter, List.isEmpty_nil, Bool.not_true, Bool.not_false, Bool.and_true,
      List.map_nil]
    simp only [hrequired, Bool.false_eq_true, if_false]
    rfl
  · refine ⟨?_, ?_, ?_, ?_, ?_, ?_, ?_⟩ <;> simp [m, closeBlocks, inFlow, houter, moveTo, hmove]

theorem At.arrives_spaces {n : Nat} (h : At s T I column (spaces n ++ rest) ka) (hrest : Solid rest) :
    s.Arrives T I (column + n) rest ka := by
  have hspaces : ∀ c ∈ spaces n, Inked False c := fun c hc => inked_spaces hc
  have hmark : (spaces n ++ rest).head? ≠ some byteOrderMark := by
    cases n with
    | zero => exact hrest.mark
    | succ n => simp [spaces, List.replicate_succ, show ' ' ≠ byteOrderMark by decide]
  have hgap := arrives_of_gap h.rest ((skipGap_spaces n rest).trans (skipGap_solid hrest)) hmark h.outer
    (by simp [h.candidate])
  rw [Position.foldl_inked hspaces] at hgap
  simpa [h.tokens, h.indents, h.column, h.keyAllowed, spaces] using hgap

/-- Behind a scalar comes a new line, where a candidate of this line is given up. -/
theorem arrives_newLine {n : Nat} (hplace : s.place.rest = newLine n ++ rest) (hrest : Solid rest)
    (houter : s.outer = [])
    (hcandidate : ∀ c ∈ s.candidate, c.required = false ∧ c.line ≤ s.place.line) :
    s.Arrives s.tokens.reverse s.indents n rest true := by
  have hmark : (newLine n ++ rest).head? ≠ some byteOrderMark := by simp [newLine, show '\n' ≠ byteOrderMark by decide]
  have hgap := arrives_of_gap hplace (skipGap_newLine hrest n) hmark houter fun c hc => by
    rw [Position.foldl_newLine]
    exact ⟨(hcandidate c hc).1, Nat.lt_succ_of_le (hcandidate c hc).2⟩
  rw [Position.foldl_newLine] at hgap
  simpa using hgap

theorem At.arrives_newLine {n : Nat} (h : At s T I column (newLine n ++ rest) ka) (hrest : Solid rest) :
    s.Arrives T I n rest true := by
  have hline := Stream.arrives_newLine h.rest hrest h.outer (by simp [h.candidate])
  rwa [h.tokens, h.indents] at hline

/-- A plain scalar has taken the new line with it. -/
theorem arrives_here (hplace : s.place.rest = rest) (hrest : Solid rest) (houter : s.outer = [])
    (hcandidate : ∀ c ∈ s.candidate, c.required = false ∧ c.line < s.place.line) :
    s.Arrives s.tokens.reverse s.indents s.place.column rest s.keyAllowed := by
  have hgap := arrives_of_gap (u := []) hplace (skipGap_solid hrest) hrest.mark houter hcandidate
  simpa using hgap

/-- At a token nothing is skipped. -/
theorem advance_here (hrest : Solid s.place.rest) :
    s.advance = s.dropStale.map fun s => s.closeBlocks (s.place.column < ·) := by
  have hmark : decide (s.place.rest.head? = some byteOrderMark) = false := decide_eq_false hrest.mark
  have hsame : s.place.moveTo s.place.rest = s.place := Position.moveTo_eq (u := []) rfl
  have hmove : ({ s.moveTo s.place.rest with keyAllowed := s.keyAllowed || (false && !s.inFlow) } : Stream) = s := by
    simp only [moveTo, hsame, Bool.false_and, Bool.or_false]
  unfold advance
  simp only [hmark, Bool.and_false, Bool.false_eq_true, if_false, skipGap_solid hrest]
  rw [hmove]
  cases s.dropStale <;> rfl

/-! ## Some tokens more -/

def Leads (s s' : Stream) : Prop :=
  ∃ a c r, s.advance = .ok a ∧ a.place.rest = c :: r ∧ a.next c r = .ok s' ∧ s'.place.rest.length < s.place.rest.length

inductive Eventually (P : Stream → Prop) : Stream → Prop
  | here {s : Stream} (h : P s) : Eventually P s
  | step {s s' : Stream} (h : s.Leads s') (hs : Eventually P s') : Eventually P s

variable {P Q : Stream → Prop}

theorem Eventually.bind (h : Eventually P s) (hPQ : ∀ s, P s → Eventually Q s) : Eventually Q s := by
  induction h with
  | here h => exact hPQ _ h
  | step h _ ih => exact .step h ih

/-- The token at the place where a stream arrives. -/
theorem Arrives.eventually {c : Char} {r : List Char} (h : s.Arrives T I column (c :: r) ka)
    (hI : ∀ q ∈ I.head?, q ≤ column)
    (hnext : ∀ a, At a T I column (c :: r) ka → ∃ s', a.next c r = .ok s' ∧ s'.place.rest.length ≤ r.length ∧ P s') :
    Eventually P s := by
  obtain ⟨a, ha, hat⟩ := h.stays hI
  obtain ⟨s', hs', hlength, hP⟩ := hnext a hat
  refine .step ⟨a, c, r, ha, hat.rest, hs', ?_⟩ (.here hP)
  have hlen := h.1
  rw [List.length_cons] at hlen
  omega

/-- The tokens of a stream are decided by what holds after some of them. -/
theorem run_of_eventually (h : Eventually P s) {n : Nat} (hn : s.place.rest.length < n) :
    ∃ s' m, P s' ∧ s'.place.rest.length < m ∧ s.run n = s'.run m := by
  induction h generalizing n with
  | here h => exact ⟨_, n, h, hn, rfl⟩
  | @step s s' h _ ih =>
    obtain ⟨a, c, r, ha, hrest, hnext, hlength⟩ := h
    obtain ⟨n, rfl⟩ := Nat.exists_eq_succ_of_ne_zero (Nat.ne_of_gt (Nat.zero_lt_of_lt hn))
    obtain ⟨t, m, hP, hm, hrun⟩ := ih (n := n) (by omega)
    refine ⟨t, m, hP, hm, ?_⟩
    rw [← hrun, run, ha]
    simp only [hrest, hnext]

end Stream

end Portcullis.Yaml
