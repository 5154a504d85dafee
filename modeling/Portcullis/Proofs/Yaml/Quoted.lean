/-
  Portcullis.Proofs.Yaml.Quoted — what a text written in quotes is read as.

  - `readQuoted_double`: a text in double quotes reads back as itself.
  - `readQuoted_single`: a text in single quotes reads back with its runs of breaks as they are
    read (`seenBreaks`): a next line counts as a line feed.
  - `seenRuns_eq_iff`: so it reads back as itself if and only if there is no next line in it.
-/

import Mathlib.Algebra.GroupWithZero.Nat
import Portcullis.Proofs.Yaml.Runs
import Portcullis.Yaml.Token.Quoted

namespace Portcullis.Yaml

open Portcullis.Text

/-! ## Double quotes -/

@[simp] theorem Quoted.after_ok (a text rest : List Char) :
    Quoted.after a (.ok (text, rest)) = .ok (a ++ text, rest) := rfl

@[simp] theorem Quoted.after_nil (q : Quoted) : Quoted.after [] q = q := by
  cases q <;> rfl

theorem toNat_le (c : Char) : c.toNat ≤ lastCharacter := by
  have hvalid : c.toNat < 0xD800 ∨ 0xDFFF < c.toNat ∧ c.toNat < 0x110000 := c.valid
  unfold lastCharacter
  omega

theorem value?_upperDigit : ∀ d < 16, Hex.value? (Hex.upperDigit d) = some d := by decide

/-- The digits of a number of a character, up to the last ones. -/
theorem readQuoted_digits {q : QuoteKind} (w k m n : Nat) (rest : List Char) (hk : 1 ≤ k) (hn : n < 16 ^ w) :
    readQuoted q (.code (w + k) m) (Hex.upper w n ++ rest) = readQuoted q (.code k (16 ^ w * m + n)) rest := by
  induction w generalizing k n rest with
  | zero =>
    have hzero : n = 0 := by simpa using hn
    simp [Hex.upper, Hex.fixed, hzero]
  | succ w ih =>
    have hlt : n / 16 < 16 ^ w := by rw [Nat.div_lt_iff_lt_mul (by decide), ← Nat.pow_succ]; exact hn
    have hfront := ih (k + 1) (n / 16) (Hex.upperDigit (n % 16) :: rest) (by omega) hlt
    unfold Hex.upper at hfront ⊢
    rw [Hex.fixed, List.append_assoc, List.singleton_append, show w + 1 + k = w + (k + 1) by omega, hfront]
    rw [readQuoted, value?_upperDigit _ (Nat.mod_lt _ (by decide))]
    simp only [show 1 < k + 1 by omega, if_true, Nat.add_sub_cancel]
    congr 2
    rw [Nat.pow_succ, Nat.mul_add, ← Nat.mul_assoc, Nat.mul_comm 16 (16 ^ w)]
    omega

/-- A number of a character reads as that character. -/
theorem readQuoted_code {q : QuoteKind} {w : Nat} {c : Char} (rest : List Char) (hw : c.toNat < 16 ^ (w + 1)) :
    readQuoted q (.code (w + 1) 0) (Hex.upper (w + 1) c.toNat ++ rest) =
      Quoted.after [c] (readQuoted q (.text .empty) rest) := by
  have hlt : c.toNat / 16 < 16 ^ w := by rw [Nat.div_lt_iff_lt_mul (by decide), ← Nat.pow_succ]; exact hw
  have hfront := @readQuoted_digits q w 1 0 (c.toNat / 16) (Hex.upperDigit (c.toNat % 16) :: rest) le_rfl hlt
  have hlast : ¬ lastCharacter < c.toNat := Nat.not_lt.mpr (toNat_le c)
  unfold Hex.upper at hfront ⊢
  rw [Hex.fixed, List.append_assoc, List.singleton_append, hfront, readQuoted,
    value?_upperDigit _ (Nat.mod_lt _ (by decide))]
  simp only [Nat.lt_irrefl, if_false, Nat.mul_zero, Nat.zero_add, Nat.div_add_mod, hlast, Char.ofNat_toNat]

/-- An escaped character reads as that character. -/
theorem readQuoted_escape (c : Char) : ∃ letters, escape c = '\\' :: letters ∧ ∀ rest,
    readQuoted .double .escape (letters ++ rest) = Quoted.after [c] (readQuoted .double (.text .empty) rest) := by
  unfold escape
  cases hc : escapes.find? (fun e => e.1 = c) with
  | some e =>
    refine ⟨[e.2], rfl, fun rest => ?_⟩
    have hback : ∀ e ∈ escapes, (unescapes.find? fun u => u.1 = e.2) = some (e.2, e.1) := by decide
    have he : e.1 = c := by simpa using List.find?_some hc
    rw [List.singleton_append, readQuoted, hback e (List.mem_of_find?_eq_some hc), he]
  | none =>
    simp only
    split
    · exact ⟨_, rfl, fun rest => readQuoted_code rest (by omega)⟩
    · split
      · exact ⟨_, rfl, fun rest => readQuoted_code rest (by omega)⟩
      · have hle : c.toNat ≤ 0x10FFFF := toNat_le c
        exact ⟨_, rfl, fun rest => readQuoted_code rest (by omega)⟩

structure Open (c : Char) : Prop where
  quote : c ≠ '"'
  backslash : c ≠ '\\'
  notBreak : isBreak c = false
  tab : c ≠ '\t'

theorem open_of_isOpen {c : Char} (h : isOpen c = true) : Open c := by
  simp only [isOpen, Bool.and_eq_true, decide_eq_true_eq, Bool.or_eq_true] at h
  obtain ⟨⟨⟨⟨⟨⟨hquote, hbackslash⟩, hnext⟩, hline⟩, hparagraph⟩, -⟩, hrange⟩ := h
  have hlarge : 0x20 ≤ c.toNat := by omega
  have hfeed : c ≠ '\n' := by rintro rfl; exact absurd hlarge (by decide)
  refine ⟨hquote, hbackslash, by simp [isBreak, hfeed, hnext, hline, hparagraph], ?_⟩
  rintro rfl
  exact absurd hlarge (by decide)

theorem continued_spaces {q : QuoteKind} (n : Nat) (rest : List Char) :
    readQuoted q .continued (spaces n ++ rest) = readQuoted q .continued rest := by
  induction n with
  | zero => rfl
  | succ n ih => rw [spaces, List.replicate_succ, List.cons_append, readQuoted]; exact ih

/-- An escaped break leaves no trace. -/
theorem escape_newLine {n : Nat} (hn : 0 < n) (rest : List Char) :
    readQuoted .double .escape (newLine n ++ rest) = readQuoted .double .continued rest := by
  rw [newLine, List.cons_append, readQuoted]
  have hunescape : (unescapes.find? fun e => e.1 = '\n') = none := by decide
  have hwidth : codeWidth? '\n' = none := by decide
  have hbreak : isBreak '\n' = true := by decide
  simp only [hunescape, hwidth, hbreak, isMarker_newLine hn, Bool.not_false, Bool.and_self, if_true, continued_spaces]

/-- Behind an escaped break the text goes on as before it. -/
theorem continued_text {c : Char} {r : List Char} (hblank : isSpaceOrTab c = false) (hbreak : isBreak c = false)
    (hquote : c ≠ '"') : readQuoted .double .continued (c :: r) = readQuoted .double (.text .empty) (c :: r) := by
  rw [readQuoted, readQuoted]
  simp only [hblank, hbreak, QuoteKind.char, hquote, Bool.false_eq_true, if_false, decide_true, Bool.and_true,
    decide_eq_true_eq]
  split
  · exact (Quoted.after_nil _).symm
  · rfl

theorem text_open {c : Char} (hc : Open c) (hspace : c ≠ ' ') (blanks r : List Char) :
    readQuoted .double (.text (.ofBlanks blanks)) (c :: r) =
      Quoted.after (blanks ++ [c]) (readQuoted .double (.text .empty) r) := by
  rw [readQuoted]
  simp [isSpaceOrTab, hspace, hc.tab, hc.notBreak, QuoteKind.char, hc.quote, hc.backslash]

theorem text_space (q : QuoteKind) (blanks r : List Char) :
    readQuoted q (.text (.ofBlanks blanks)) (' ' :: r) = readQuoted q (.text (.ofBlanks (blanks ++ [' ']))) r := by
  rw [readQuoted]
  simp [isSpaceOrTab]

theorem text_backslash (blanks r : List Char) :
    readQuoted .double (.text (.ofBlanks blanks)) ('\\' :: r) = Quoted.after blanks (readQuoted .double .escape r) := by
  rw [readQuoted]
  simp [isSpaceOrTab, show isBreak '\\' = false by decide, QuoteKind.char]

theorem text_escape (c : Char) (blanks r : List Char) :
    readQuoted .double (.text (.ofBlanks blanks)) (escape c ++ r) =
      Quoted.after blanks (Quoted.after [c] (readQuoted .double (.text .empty) r)) := by
  obtain ⟨letters, hletters, hread⟩ := readQuoted_escape c
  rw [hletters, List.cons_append, text_backslash, hread]

theorem escape_space (r : List Char) :
    readQuoted .double .escape (' ' :: r) = Quoted.after [' '] (readQuoted .double (.text .empty) r) := by
  have hunescape : (unescapes.find? fun e => e.1 = ' ') = some (' ', ' ') := by decide
  rw [readQuoted, hunescape]

/-- A fold before a space: the space is escaped. -/
theorem read_fold_space {indent : Nat} (hi : 0 < indent) (blanks r : List Char) :
    readQuoted .double (.text (.ofBlanks blanks)) ((foldDouble indent (some ' ')).chars ++ ' ' :: r) =
      Quoted.after blanks (Quoted.after [' '] (readQuoted .double (.text .empty) r)) := by
  have hbackslash : readQuoted .double .continued ('\\' :: ' ' :: r) =
      Quoted.after [' '] (readQuoted .double (.text .empty) r) := by
    rw [continued_text (by decide) (by decide) (by decide), ← Gap.ofBlanks_nil, text_backslash, escape_space,
      Quoted.after_nil, Gap.ofBlanks_nil]
  simp only [foldDouble, if_true, List.cons_append, List.append_assoc, List.nil_append]
  rw [text_backslash, escape_newLine hi, hbackslash]

/-- A fold before anything else. -/
theorem read_fold {indent : Nat} (hi : 0 < indent) {next : Option Char} (hnext : next ≠ some ' ')
    (blanks r : List Char) :
    readQuoted .double (.text (.ofBlanks blanks)) ((foldDouble indent next).chars ++ r) =
      Quoted.after blanks (readQuoted .double .continued r) := by
  simp only [foldDouble, if_neg hnext, List.cons_append]
  rw [text_backslash, escape_newLine hi]

/-- What is written for a text that does not begin with a space begins with none, and with
    nothing that means something else behind an escaped break. -/
theorem continued_doubleChars {indent column : Nat} {fold inner fresh : Bool} {c : Char} {r rest : List Char}
    (hc : c ≠ ' ') :
    readQuoted .double .continued (writeDoubleChars indent fold inner fresh column (c :: r) ++ rest) =
      readQuoted .double (.text .empty) (writeDoubleChars indent fold inner fresh column (c :: r) ++ rest) := by
  obtain ⟨d, tail, hwritten, hd⟩ : ∃ d tail, writeDoubleChars indent fold inner fresh column (c :: r) = d :: tail ∧
      (d = '\\' ∨ Open d ∧ d ≠ ' ') := by
    obtain ⟨letters, hletters, -⟩ := readQuoted_escape c
    rw [writeDoubleChars]
    by_cases hopen : isOpen c = true
    · simp only [hopen, if_true]
      split
      · simp only [foldDouble]
        split <;> exact ⟨'\\', _, rfl, .inl rfl⟩
      · exact ⟨c, _, rfl, .inr ⟨open_of_isOpen hopen, hc⟩⟩
    · simp only [hopen, Bool.false_eq_true, if_false, hletters]
      split <;> exact ⟨'\\', _, rfl, .inl rfl⟩
  rw [hwritten, List.cons_append]
  rcases hd with rfl | ⟨hd, hspace⟩
  · exact continued_text (by decide) (by decide) (by decide)
  · exact continued_text (by simp [isSpaceOrTab, hspace, hd.tab]) hd.notBreak hd.quote

/-- A text in double quotes reads back as itself. -/
theorem readQuoted_doubleChars {indent : Nat} (hi : 0 < indent) (hwidth : indent + 1 ≤ lineWidth) (fold : Bool)
    (rest : List Char) : ∀ (cs : List Char) (inner fresh : Bool) (column : Nat) (blanks : List Char),
    readQuoted .double (.text (.ofBlanks blanks)) (writeDoubleChars indent fold inner fresh column cs ++ '"' :: rest) =
      .ok (blanks ++ cs, rest)
  | [], inner, fresh, column, blanks => by
    rw [writeDoubleChars, List.nil_append, readQuoted]
    simp [isSpaceOrTab, show isBreak '"' = false by decide, QuoteKind.char]
  | c :: r, inner, fresh, column, blanks => by
    have ih := readQuoted_doubleChars hi hwidth fold rest r
    have ihempty := fun inner fresh column => ih inner fresh column []
    simp only [Gap.ofBlanks_nil, List.nil_append] at ihempty
    rw [writeDoubleChars]
    by_cases hopen : isOpen c = true
    · have hc := open_of_isOpen hopen
      simp only [hopen, if_true]
      by_cases hspace : c = ' '
      · subst hspace
        split
        · rw [List.append_assoc, List.cons_append, read_fold_space hi, ihempty]
          rfl
        · rw [List.cons_append, text_space, ih]
          simp
      · split
        · rw [List.append_assoc, List.cons_append, read_fold hi (by simpa using hspace),
            continued_text (by simp [isSpaceOrTab, hspace, hc.tab]) hc.notBreak hc.quote, ← Gap.ofBlanks_nil,
            text_open hc hspace, ihempty]
          rfl
        · rw [List.cons_append, text_open hc hspace, ihempty]
          simp
    · simp only [hopen, Bool.false_eq_true, if_false]
      split
      · rename_i hfold
        rw [List.append_assoc, List.append_assoc, text_escape, ← Gap.ofBlanks_nil]
        cases r with
        | nil => simp at hfold
        | cons d r =>
          by_cases hspace : d = ' '
          · subst hspace
            -- Behind the fold the column is small again, so there is no second one at the space.
            have hnext := readQuoted_doubleChars hi hwidth fold rest r true false (indent + 2) []
            have hwritten : writeDoubleChars indent fold true true (indent + 1) (' ' :: r) =
                ' ' :: writeDoubleChars indent fold true false (indent + 2) r := by
              rw [writeDoubleChars]
              simp [show isOpen ' ' = true by decide, Nat.not_lt.mpr hwidth]
            rw [List.head?_cons, show (foldDouble indent (some ' ')).column = indent + 1 from rfl, hwritten,
              List.cons_append, read_fold_space hi, ← Gap.ofBlanks_nil, hnext]
            simp
          · rw [List.head?_cons, read_fold hi (by simpa using hspace), continued_doubleChars hspace, ihempty]
            simp
      · rw [List.append_assoc, text_escape, ihempty]
        simp

/-! ## Single quotes -/

/-- What a run of breaks in single quotes is read as. -/
def seenBreaks (cs : List Char) : List Char :=
  (Gap.mk [] (((if cs.head? = some '\n' then ['\n'] else []) ++ cs).map readBreak) 0).folded

def seenRuns (rs : List (RunClass × List Char)) : List Char :=
  rs.flatMap fun run => if run.1 = .breaks then seenBreaks run.2 else run.2

/-- Breaks without a next line are read as they are. -/
theorem seenBreaks_eq {cs : List Char} (hbreak : ∀ c ∈ cs, isBreak c = true) (hne : cs ≠ [])
    (h : nextLine ∉ cs) : seenBreaks cs = cs := by
  have hread : cs.map readBreak = cs := by
    refine (List.map_congr_left fun c hc => ?_).trans (List.map_id cs)
    have hnext : c ≠ nextLine := fun hnext => h (hnext ▸ hc)
    simp [readBreak, hnext]
  obtain ⟨c, r, rfl⟩ := List.exists_cons_of_ne_nil hne
  unfold seenBreaks
  by_cases hc : c = '\n'
  · subst hc
    rw [List.head?_cons, if_pos rfl, List.map_append, hread]
    rfl
  · rw [List.head?_cons, if_neg (by simpa using hc), List.nil_append, hread]
    unfold Gap.folded
    split <;> simp_all

/-- No next line is left. -/
theorem nextLine_not_mem_seenBreaks (cs : List Char) : nextLine ∉ seenBreaks cs := by
  have hread : ∀ cs : List Char, nextLine ∉ cs.map readBreak := by
    intro cs h
    obtain ⟨c, -, hc⟩ := List.mem_map.mp h
    unfold readBreak at hc
    split at hc
    · exact absurd hc (by decide)
    · exact absurd hc ‹_›
  have hmap := hread ((if cs.head? = some '\n' then ['\n'] else []) ++ cs)
  unfold seenBreaks Gap.folded
  generalize ((if cs.head? = some '\n' then ['\n'] else []) ++ cs).map readBreak = bs at hmap
  simp only
  split
  · simp
  · simp [nextLine]
  · exact fun h => hmap (List.mem_cons_of_mem _ h)
  · exact hmap

theorem text_blanks (q : QuoteKind) (n : Nat) (rest : List Char) :
    readQuoted q (.text .empty) (spaces n ++ rest) = readQuoted q (.text (.ofBlanks (spaces n))) rest := by
  have hblanks : ∀ n blanks, readQuoted q (.text (.ofBlanks blanks)) (spaces n ++ rest) =
      readQuoted q (.text (.ofBlanks (blanks ++ spaces n))) rest := by
    intro n
    induction n with
    | zero => simp [spaces]
    | succ n ih =>
      intro blanks
      rw [show spaces (n + 1) = ' ' :: spaces n from rfl, List.cons_append, text_space, ih]
      simp
  exact hblanks n []

/-- The blanks at the beginning of a line do not count. -/
theorem text_indent (q : QuoteKind) {breaks : List Char} (hne : breaks ≠ []) (n column : Nat) (rest : List Char) :
    readQuoted q (.text ⟨[], breaks, column⟩) (spaces n ++ rest) =
      readQuoted q (.text ⟨[], breaks, column + n⟩) rest := by
  induction n generalizing column with
  | zero => rfl
  | succ n ih =>
    have hblank : (Gap.mk [] breaks column).blank ' ' = ⟨[], breaks, column + 1⟩ := by
      simp [Gap.blank, Gap.broken, hne]
    rw [show spaces (n + 1) = ' ' :: spaces n from rfl, List.cons_append, readQuoted]
    simp only [isSpaceOrTab, decide_true, Bool.true_or, if_true, hblank, ih]
    rw [Nat.add_assoc, Nat.add_comm 1 n]

/-- No marker stands behind a break, if another break or a space follows. -/
theorem isMarker_of_break {c : Char} (hc : isBreak c = true) (rest : List Char) : isMarker (c :: rest) = false := by
  have hhyphen : c ≠ '-' := by rintro rfl; exact absurd hc (by decide)
  have hdot : c ≠ '.' := by rintro rfl; exact absurd hc (by decide)
  rcases rest with _ | ⟨d, _ | ⟨e, r⟩⟩ <;> simp [isMarker, hhyphen, hdot]

theorem text_breaks (q : QuoteKind) {n : Nat} (hn : 0 < n) (rest : List Char) {cs : List Char}
    (hcs : ∀ c ∈ cs, isBreak c = true) (breaks : List Char) (column : Nat) (hne : cs ≠ []) :
    readQuoted q (.text ⟨[], breaks, column⟩) (cs ++ (spaces n ++ rest)) =
      readQuoted q (.text ⟨[], breaks ++ cs.map readBreak, n⟩) rest := by
  induction cs generalizing breaks column with
  | nil => exact absurd rfl hne
  | cons c cs ih =>
    obtain ⟨hc, hcs⟩ := List.forall_mem_cons.mp hcs
    have hblank : isSpaceOrTab c = false := by
      simp only [isSpaceOrTab, Bool.or_eq_false_iff, decide_eq_false_iff_not]
      constructor <;> (rintro rfl; exact absurd hc (by decide))
    rw [List.cons_append, readQuoted]
    simp only [hblank, hc, Bool.false_eq_true, if_false, if_true]
    cases cs with
    | nil =>
      rw [List.nil_append, if_neg (by simp [isMarker_newLine hn])]
      show readQuoted q (.text ⟨[], breaks ++ [readBreak c], 0⟩) _ = _
      rw [text_indent q (by simp), Nat.zero_add]
      rfl
    | cons d cs =>
      rw [if_neg (by simp [isMarker_of_break (hcs d List.mem_cons_self)])]
      show readQuoted q (.text ⟨[], breaks ++ [readBreak c], 0⟩) _ = _
      rw [ih hcs _ _ (by simp)]
      simp

theorem text_newLine (q : QuoteKind) {n : Nat} (hn : 0 < n) (rest : List Char) :
    readQuoted q (.text .empty) (newLine n ++ rest) = readQuoted q (.text ⟨[], ['\n'], n⟩) rest :=
  text_breaks q hn rest (List.forall_mem_singleton.mpr (by decide)) [] 0 (by simp)

/-- A character that is nothing special in single quotes but for the quote itself. -/
theorem text_other {c : Char} (hc : runClass c = .other) (htab : c ≠ '\t') (g : Gap) (rest : List Char) :
    readQuoted .single (.text g) (doubleQuotes [c] ++ rest) =
      Quoted.after (g.folded ++ [c]) (readQuoted .single (.text .empty) rest) := by
  have hspace : c ≠ ' ' := fun h => by rw [runClass_space.mpr h] at hc; cases hc
  have hbreak : isBreak c = false := Bool.eq_false_iff.mpr fun h => by rw [runClass_breaks.mpr h] at hc; cases hc
  by_cases hquote : c = '\''
  · subst hquote
    rw [show doubleQuotes ['\''] = ['\'', '\''] from rfl, List.cons_append, readQuoted]
    simp only [isSpaceOrTab, show isBreak '\'' = false by decide, QuoteKind.char]
    simp [readQuoted]
  · rw [show doubleQuotes [c] = [c] by simp [doubleQuotes, hquote], List.singleton_append, readQuoted]
    simp [isSpaceOrTab, hspace, htab, hbreak, QuoteKind.char, hquote]

theorem Quoted.after_after (a b : List Char) (q : Quoted) :
    Quoted.after a (Quoted.after b q) = Quoted.after (a ++ b) q := by
  cases q with
  | error e => rfl
  | ok p => simp [Quoted.after, Except.map]

theorem text_others {cs : List Char} (hcs : ∀ c ∈ cs, runClass c = .other ∧ c ≠ '\t') (hne : cs ≠ []) (g : Gap)
    (rest : List Char) :
    readQuoted .single (.text g) (doubleQuotes cs ++ rest) =
      Quoted.after (g.folded ++ cs) (readQuoted .single (.text .empty) rest) := by
  induction cs generalizing g with
  | nil => exact absurd rfl hne
  | cons c cs ih =>
    obtain ⟨hc, hcs⟩ := List.forall_mem_cons.mp hcs
    rw [show doubleQuotes (c :: cs) = doubleQuotes [c] ++ doubleQuotes cs by simp [doubleQuotes], List.append_assoc,
      text_other hc.1 hc.2]
    cases cs with
    | nil => rfl
    | cons d cs =>
      rw [ih hcs (by simp), Quoted.after_after]
      simp [Gap.empty, Gap.folded]

/-- Runs in single quotes, behind white space that has been read. -/
theorem readQuoted_singleRuns {indent : Nat} (hi : 0 < indent) (fold : Bool) {rest : List Char}
    (hrest : rest.head? ≠ some '\'') (rs : List (RunClass × List Char)) (inner : Bool) (column : Nat) (g : Gap)
    (hrun : ∀ run ∈ rs, IsRun run) (halt : Alternating rs) (htab : ∀ run ∈ rs, ∀ c ∈ run.2, c ≠ '\t')
    (hg : g = .empty ∨ ∀ run ∈ rs.head?, run.1 = .other) :
    readQuoted .single (.text g) (writeSingleRuns indent fold inner column rs ++ '\'' :: rest) =
      .ok (g.folded ++ seenRuns rs, rest) := by
  induction rs generalizing inner column g with
  | nil =>
    rw [writeSingleRuns, List.nil_append, readQuoted]
    simp only [isSpaceOrTab, show isBreak '\'' = false by decide, QuoteKind.char]
    cases rest with
    | nil => simp [readQuoted, seenRuns]
    | cons c r =>
      have hc : c ≠ '\'' := by simpa using hrest
      simp [readQuoted, seenRuns, hc]
  | cons run rs ih =>
    obtain ⟨k, cs⟩ := run
    obtain ⟨hcs, hruns⟩ := List.forall_mem_cons.mp hrun
    obtain ⟨hplain, htabs⟩ := List.forall_mem_cons.mp htab
    have hlater : Alternating rs := halt.tail
    have hfollow : ∀ other ∈ rs.head?, k = .other ↔ other.1 ≠ .other := by
      cases rs with
      | nil => simp
      | cons other rs => simpa using (List.isChain_cons_cons.mp halt).1
    -- White space stands only before other characters, so there is none before this run otherwise.
    have hempty : k ≠ .other → g = .empty := fun hk => hg.resolve_right fun h => hk (h (k, cs) rfl)
    have hnext : k ≠ .other → ∀ other ∈ rs.head?, other.1 = .other := fun hk other hother => by
      by_contra hne
      exact hk ((hfollow other hother).mpr hne)
    cases k with
    | space =>
      obtain rfl := hempty (by simp)
      rw [writeSingleRuns]
      split
      · rename_i hfold
        simp only [Bool.and_eq_true, decide_eq_true_eq] at hfold
        have hone : cs = [' '] := by rw [spaces_of_isRun hcs, hfold.1.2]; rfl
        rw [List.append_assoc, text_newLine .single hi, ih _ _ _ hruns hlater htabs (.inr (hnext (by simp))), hone]
        rfl
      · have hblanks := text_blanks .single cs.length
          (writeSingleRuns indent fold true (column + cs.length) rs ++ '\'' :: rest)
        rw [← spaces_of_isRun hcs] at hblanks
        rw [List.append_assoc, hblanks, ih _ _ _ hruns hlater htabs (.inr (hnext (by simp)))]
        rfl
    | breaks =>
      obtain rfl := hempty (by simp)
      have hbreaks : ∀ c ∈ (if cs.head? = some '\n' then ['\n'] else []) ++ cs, isBreak c = true := by
        intro c hc
        rcases List.mem_append.mp hc with hc | hc
        · split at hc
          · rw [List.mem_singleton.mp hc]; decide
          · cases hc
        · exact runClass_breaks.mp (hcs.runClass c hc)
      rw [writeSingleRuns, writeBreaks, List.append_assoc, List.append_assoc]
      have hread := text_breaks .single hi (writeSingleRuns indent fold true indent rs ++ '\'' :: rest) hbreaks [] 0
        (by simp [hcs.ne_nil])
      rw [show Gap.empty = ⟨[], [], 0⟩ from rfl, hread, ih _ _ _ hruns hlater htabs (.inr (hnext (by simp)))]
      rfl
    | other =>
      rw [writeSingleRuns, List.append_assoc, text_others (fun c hc => ⟨hcs.runClass c hc, hplain c hc⟩) hcs.ne_nil,
        ih _ _ _ hruns hlater htabs (.inl rfl)]
      simp [seenRuns, Gap.empty, Gap.folded]

/-! ## Texts -/

theorem tab_of_single {cs : List Char} (h : Single cs) : ∀ run ∈ runs cs, ∀ c ∈ run.2, c ≠ '\t' := by
  intro run hrun c hc
  exact (h.fair c (mem_of_mem_runs hrun hc)).tab

/-- A text in single quotes reads back as its runs are seen. -/
theorem readQuoted_single {cs : List Char} (h : Single cs) {indent : Nat} (hi : 0 < indent) (fold : Bool) (column : Nat)
    {rest : List Char} (hrest : rest.head? ≠ some '\'') :
    readQuoted .single (.text .empty) (writeSingleRuns indent fold false column (runs cs) ++ '\'' :: rest) =
      .ok (seenRuns (runs cs), rest) :=
  readQuoted_singleRuns hi fold hrest (runs cs) false column .empty (isRun_of_mem cs) h.alternating (tab_of_single h)
    (.inl rfl)

/-- A text in double quotes reads back as itself. -/
theorem readQuoted_double (cs : List Char) {indent : Nat} (hi : 0 < indent) (hwidth : indent + 1 ≤ lineWidth)
    (fold : Bool) (column : Nat) (rest : List Char) :
    readQuoted .double (.text .empty) (writeDoubleChars indent fold false true column cs ++ '"' :: rest) =
      .ok (cs, rest) :=
  readQuoted_doubleChars hi hwidth fold rest cs false true column []

/-- A text in single quotes reads back as itself if and only if there is no next line in it. -/
theorem seenRuns_eq_iff (cs : List Char) : seenRuns (runs cs) = cs ↔ nextLine ∉ cs := by
  constructor
  · intro h hmem
    rw [← h] at hmem
    obtain ⟨run, hrun, hc⟩ := List.mem_flatMap.mp hmem
    split at hc
    · exact nextLine_not_mem_seenBreaks _ hc
    · rename_i hk
      exact hk (((isRun_of_mem cs run hrun).runClass _ hc).symm.trans (runClass_breaks.mpr (by decide)))
  · intro h
    conv_rhs => rw [← flatMap_runs cs]
    refine List.flatMap_congr fun run hrun => ?_
    have hisRun := isRun_of_mem cs run hrun
    split
    · rename_i hk
      refine seenBreaks_eq (fun c hc => runClass_breaks.mp ((hisRun.runClass c hc).trans hk)) hisRun.ne_nil fun hmem =>
        h (mem_of_mem_runs hrun hmem)
    · rfl

end Portcullis.Yaml
