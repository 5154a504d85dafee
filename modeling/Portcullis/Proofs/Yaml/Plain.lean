/-
  Portcullis.Proofs.Yaml.Plain — what a text written without quotes is read as.

  Nothing in such a text ends a plain scalar, and only spaces stand between its words, so
  `readPlain_text`: it reads back as itself, with whatever follows it on the page.
-/

import Portcullis.Proofs.Yaml.Runs
import Portcullis.Yaml.Token.Plain

namespace Portcullis.Yaml

/-! ## Characters and spaces -/

def PlainText.behind (cs : List Char) (p : PlainText) : PlainText := { p with text := cs ++ p.text }

theorem PlainText.behind_behind (a b : List Char) (p : PlainText) : (p.behind b).behind a = p.behind (a ++ b) := by
  simp [behind]

theorem not_space_of_not_blank {c : Char} (h : isBlankOrEnd c = false) : c ≠ ' ' ∧ isBreak c = false := by
  simp only [isBlankOrEnd, isGap, isBreakOrEnd, Bool.or_eq_false_iff, decide_eq_false_iff_not] at h
  exact ⟨h.2.1, h.2.2.2⟩

variable {least : Nat}

/-- A character that goes on with a plain scalar. -/
theorem plain_char {c : Char} (hc : isBlankOrEnd c = false) {r : List Char} {g : Gap}
    (hcolon : c = ':' → isBlankOrEnd (r.headD endMark) = false) (hhash : c = '#' → g.isEmpty = true)
    (hcolumn : g.broken = true → least ≤ g.column) :
    readPlain false least g (c :: r) = (readPlain false least .empty r).behind (g.folded ++ [c]) := by
  obtain ⟨hspace, hbreak⟩ := not_space_of_not_blank hc
  have hfirst : (!g.isEmpty && decide (c = '#')) = false := by
    by_cases h : c = '#'
    · simp [hhash h]
    · simp [h]
  have hends : endsPlain false c (r.headD endMark) = false := by
    by_cases h : c = ':'
    · simp only [endsPlain, hc, hcolon h, Bool.false_and, Bool.or_false, Bool.and_false]
    · simp only [endsPlain, hc, h, decide_false, Bool.false_and, Bool.or_false]
  have hdeep : (g.broken && decide (g.column < least)) = false := by
    cases h : g.broken
    · rfl
    · simpa using hcolumn h
  rw [readPlain, if_neg hspace, if_neg (by simp [hbreak]), hfirst, hends, Bool.not_false, Bool.true_and, hdeep,
    if_neg (by decide)]
  simp [PlainText.behind]

/-- A run of other characters in a text that has no inner indicators. What follows it on the
    page may be something else than in the text. -/
theorem plain_run {cs T : List Char} (hcs : ∀ c ∈ cs, isBlankOrEnd c = false) (hne : cs ≠ [])
    (hT : isBlankOrEnd (T.headD endMark) = true) {before : Char} (hin : hasInnerIndicator before (cs ++ T) = false)
    {g : Gap} (hg : g.isEmpty = false → isBlankOrEnd before = true) (hcolumn : g.broken = true → least ≤ g.column)
    (rest : List Char) :
    readPlain false least g (cs ++ rest) = (readPlain false least .empty rest).behind (g.folded ++ cs) ∧
      ∃ last, hasInnerIndicator last T = false := by
  induction cs generalizing before g with
  | nil => exact absurd rfl hne
  | cons c cs ih =>
    obtain ⟨hc, hcs⟩ := List.forall_mem_cons.mp hcs
    rw [List.cons_append, hasInnerIndicator] at hin
    simp only [Bool.or_eq_false_iff, Bool.and_eq_false_imp, decide_eq_true_eq] at hin
    obtain ⟨⟨hcolon, hhash⟩, hin⟩ := hin
    have hempty : c = '#' → g.isEmpty = true := fun h => by
      by_contra hne
      have hblank := hg (by simpa using hne)
      rw [hhash h] at hblank
      cases hblank
    cases cs with
    | nil =>
      have hnot : c ≠ ':' := fun h => by
        have hblank := hcolon h
        rw [List.nil_append, hT] at hblank
        cases hblank
      exact ⟨plain_char hc (fun h => absurd h hnot) hempty hcolumn, c, hin⟩
    | cons d cs =>
      obtain ⟨hread, hlast⟩ := ih hcs (by simp) hin (g := .empty) (by simp [Gap.empty, Gap.isEmpty])
        (by simp [Gap.empty, Gap.broken])
      refine ⟨?_, hlast⟩
      have hchar : readPlain false least g (c :: (d :: cs ++ rest)) =
          (readPlain false least .empty (d :: cs ++ rest)).behind (g.folded ++ [c]) :=
            plain_char hc hcolon hempty hcolumn
      rw [List.cons_append, hchar, hread, PlainText.behind_behind]
      simp [Gap.empty, Gap.folded]

/-- Spaces on one line. -/
theorem plain_blanks (n : Nat) (rest : List Char) :
    readPlain false least .empty (spaces n ++ rest) = readPlain false least (.ofBlanks (spaces n)) rest := by
  have hblanks : ∀ n blanks, readPlain false least (.ofBlanks blanks) (spaces n ++ rest) =
      readPlain false least (.ofBlanks (blanks ++ spaces n)) rest := by
    intro n
    induction n with
    | zero => simp [spaces]
    | succ n ih =>
      intro blanks
      rw [show spaces (n + 1) = ' ' :: spaces n from rfl, List.cons_append, readPlain, if_pos rfl,
        Gap.blank_ofBlanks, ih]
      simp
  exact hblanks n []

theorem plain_indent {breaks : List Char} (hne : breaks ≠ []) (n column : Nat) (rest : List Char) :
    readPlain false least ⟨[], breaks, column⟩ (spaces n ++ rest) =
      readPlain false least ⟨[], breaks, column + n⟩ rest := by
  induction n generalizing column with
  | zero => rfl
  | succ n ih =>
    have hblank : (Gap.mk [] breaks column).blank ' ' = ⟨[], breaks, column + 1⟩ := by
      simp [Gap.blank, Gap.broken, hne]
    rw [show spaces (n + 1) = ' ' :: spaces n from rfl, List.cons_append, readPlain, if_pos rfl, hblank, ih,
      Nat.add_assoc, Nat.add_comm 1 n]

/-- A new line inside a plain scalar. -/
theorem plain_newLine {n : Nat} (hn : 0 < n) (rest : List Char) :
    readPlain false least .empty (newLine n ++ rest) = readPlain false least ⟨[], ['\n'], n⟩ rest := by
  have hbreak : isBreak '\n' = true := by decide
  rw [newLine, List.cons_append, readPlain, if_neg (by decide), if_pos hbreak, if_neg (by simp [isMarker_newLine hn])]
  have hindent := @plain_indent least ['\n'] (by simp) n 0 rest
  rw [Nat.zero_add] at hindent
  exact hindent

theorem inner_spaces {n : Nat} (hn : 0 < n) {before : Char} {T : List Char}
    (h : hasInnerIndicator before (spaces n ++ T) = false) : hasInnerIndicator ' ' T = false := by
  induction n generalizing before with
  | zero => exact absurd hn (by decide)
  | succ n ih =>
    rw [show spaces (n + 1) = ' ' :: spaces n from rfl, List.cons_append, hasInnerIndicator] at h
    simp only [Bool.or_eq_false_iff] at h
    cases n with
    | zero => exact h.2
    | succ n => exact ih (by omega) h.2

/-- Behind other characters come spaces or nothing, if there are no breaks. -/
theorem blank_behind_other {run : RunClass × List Char} {rs : List (RunClass × List Char)} (hrun : ∀ r ∈ rs, IsRun r)
    (halt : Alternating (run :: rs)) (hother : run.1 = .other) (hline : ∀ r ∈ rs, r.1 ≠ .breaks) :
    isBlankOrEnd ((rs.flatMap Prod.snd).headD endMark) = true := by
  cases rs with
  | nil => decide
  | cons next rs =>
    obtain ⟨k, cs⟩ := next
    have hk : k = .space := by
      have hne : k ≠ .other := (List.isChain_cons_cons.mp halt).1.mp hother
      have hnb : k ≠ .breaks := hline (k, cs) List.mem_cons_self
      cases k <;> simp_all
    subst hk
    have hcs := hrun _ List.mem_cons_self
    obtain ⟨c, r, rfl⟩ := List.exists_cons_of_ne_nil hcs.ne_nil
    have hc : c = ' ' := runClass_space.mp (hcs.runClass c List.mem_cons_self)
    subst hc
    exact (by decide : isBlankOrEnd ' ' = true)

/-! ## Runs -/

/-- Runs without quotes, behind white space that has been read. -/
theorem readPlain_runs {indent : Nat} (hi : 0 < indent) (hleast : least ≤ indent) (fold : Bool) (rest : List Char)
    (rs : List (RunClass × List Char)) (column : Nat) (before : Char) (g : Gap) (hrun : ∀ run ∈ rs, IsRun run)
    (halt : Alternating rs) (hline : ∀ run ∈ rs, run.1 ≠ .breaks)
    (hchars : ∀ run ∈ rs, run.1 = .other → ∀ c ∈ run.2, isBlankOrEnd c = false)
    (hlast : ∀ run ∈ rs.getLast?, run.1 = .other) (hin : hasInnerIndicator before (rs.flatMap Prod.snd) = false)
    (hg : g = .empty ∨ (isBlankOrEnd before = true ∧ ∃ run ∈ rs.head?, run.1 = .other))
    (hcolumn : g.broken = true → least ≤ g.column) :
    readPlain false least g (writePlainRuns indent fold column rs ++ rest) =
      (readPlain false least .empty rest).behind (g.folded ++ rs.flatMap Prod.snd) := by
  induction rs generalizing column before g with
  | nil =>
    rcases hg with rfl | ⟨-, run, hrun, -⟩
    · rfl
    · cases hrun
  | cons run rs ih =>
    obtain ⟨k, cs⟩ := run
    obtain ⟨hcs, hruns⟩ := List.forall_mem_cons.mp hrun
    obtain ⟨hk, hlines⟩ := List.forall_mem_cons.mp hline
    obtain ⟨hplain, hcharss⟩ := List.forall_mem_cons.mp hchars
    have hlater : Alternating rs := halt.tail
    have hlasts : ∀ run ∈ rs.getLast?, run.1 = .other := fun run hrun => hlast run (by
      rw [List.getLast?_cons]
      simp [Option.mem_def.mp hrun])
    rw [List.flatMap_cons] at hin ⊢
    cases k with
    | breaks => exact absurd rfl hk
    | space =>
      obtain rfl : g = .empty := hg.resolve_right (by simp)
      -- The last run is none of spaces, so others follow.
      obtain ⟨next, hnext, hother⟩ : ∃ run ∈ rs.head?, run.1 = .other := by
        cases rs with
        | nil => exact absurd (hlast _ rfl) (by simp)
        | cons next rs =>
          refine ⟨next, rfl, ?_⟩
          by_contra hne
          exact absurd ((List.isChain_cons_cons.mp halt).1.mpr hne) (by simp)
      have hspaces := spaces_of_isRun hcs
      have hpos : 0 < cs.length := List.length_pos_iff.mpr hcs.ne_nil
      rw [hspaces] at hin
      have hinner := inner_spaces hpos hin
      have hgap : isBlankOrEnd ' ' = true ∧ ∃ run ∈ rs.head?, run.1 = .other := ⟨by decide, next, hnext, hother⟩
      rw [writePlainRuns]
      split
      · rename_i hfold
        simp only [Bool.and_eq_true, decide_eq_true_eq] at hfold
        have hone : cs = [' '] := by rw [hspaces, hfold.1.2]; rfl
        rw [List.append_assoc, plain_newLine hi, ih _ _ _ hruns hlater hlines hcharss hlasts hinner (.inr hgap)
          (fun _ => hleast), hone]
        rfl
      · have hblanks := @plain_blanks least cs.length (writePlainRuns indent fold (column + cs.length) rs ++ rest)
        rw [← hspaces] at hblanks
        rw [List.append_assoc, hblanks, ih _ _ _ hruns hlater hlines hcharss hlasts hinner (.inr hgap)
          (by simp [Gap.ofBlanks, Gap.broken])]
        rfl
    | other =>
      obtain ⟨hread, last, hinner⟩ := plain_run (hplain rfl) hcs.ne_nil (blank_behind_other hruns halt rfl hlines) hin
        (g := g) (fun h => (hg.resolve_left fun he => by simp [he, Gap.empty, Gap.isEmpty] at h).1)
        hcolumn (writePlainRuns indent fold (column + cs.length) rs ++ rest)
      rw [writePlainRuns, if_neg (by simp), List.append_assoc, hread,
        ih _ _ _ hruns hlater hlines hcharss hlasts hinner (.inl rfl) (by simp [Gap.empty, Gap.broken]),
        PlainText.behind_behind]
      simp [Gap.empty, Gap.folded]

/-! ## Texts -/

theorem inner_of_indicators {cs : List Char} (hne : cs ≠ []) (h : hasIndicators cs = false) :
    hasInnerIndicator 'x' cs = false := by
  obtain ⟨c, r, rfl⟩ := List.exists_cons_of_ne_nil hne
  simp only [hasIndicators, isFirstIndicator, Bool.or_eq_false_iff] at h
  obtain ⟨⟨-, -, hfirst⟩, hinner⟩ := h
  have hx : isBlankOrEnd 'x' = false := by decide
  rw [hasInnerIndicator, hinner, hx]
  by_cases hc : c = ':'
  · subst hc
    simpa using hfirst
  · simp [hc]

/-- The characters of the other runs of a text without tabs are no blanks. -/
theorem not_blank_of_other {c : Char} (hfair : Fair c) (hc : runClass c = .other) : isBlankOrEnd c = false := by
  have hspace : c ≠ ' ' := fun h => by rw [runClass_space.mpr h] at hc; cases hc
  have hbreak : isBreak c = false := Bool.eq_false_iff.mpr fun h => by rw [runClass_breaks.mpr h] at hc; cases hc
  simp [isBlankOrEnd, isGap, isBreakOrEnd, hfair.tab, hfair.notEnd, hspace, hbreak]

theorem last_run_other {cs : List Char} (h : Plain cs) : ∀ run ∈ (runs cs).getLast?, run.1 = .other := by
  intro run hrun
  have hmem := List.mem_of_getLast? hrun
  have hisRun := isRun_of_mem cs run hmem
  obtain ⟨front, hfront⟩ := List.getLast?_eq_some_iff.mp hrun
  have hcs : cs = front.flatMap Prod.snd ++ run.2 := by
    rw [← flatMap_runs cs, hfront, List.flatMap_append]
    simp
  obtain ⟨ds, c, hds⟩ := List.eq_nil_or_concat run.2 |>.resolve_left hisRun.ne_nil
  have hc : c ∈ run.2 := by rw [hds]; simp
  have hlast : cs.getLast? = some c := by rw [hcs, hds]; simp
  have hspace : c ≠ ' ' := fun hspace => h.last (hspace ▸ hlast)
  have hline : isBreak c = false := h.line c (by rw [hcs]; exact List.mem_append_right _ hc)
  rw [← hisRun.runClass c hc]
  simp [runClass, hspace, hline]

/-- A text without quotes reads back as itself, with whatever follows it. -/
theorem readPlain_text {cs : List Char} (h : Plain cs) {indent : Nat} (hi : 0 < indent) (hleast : least ≤ indent)
    (fold : Bool) (column : Nat) (rest : List Char) :
    readPlain false least .empty (writePlainRuns indent fold column (runs cs) ++ rest) =
      (readPlain false least .empty rest).behind cs := by
  have hread := @readPlain_runs least indent hi hleast fold rest (runs cs) column 'x' .empty (isRun_of_mem cs)
    h.single.alternating (fun run hrun => ne_breaks_of_mem h.line hrun) ?_ (last_run_other h)
    (by rw [flatMap_runs]; exact inner_of_indicators h.ne_nil h.indicators) (.inl rfl) (by simp [Gap.empty, Gap.broken])
  · rw [hread, flatMap_runs]
    rfl
  · intro run hrun hk c hc
    exact not_blank_of_other (h.single.fair c (mem_of_mem_runs hrun hc))
      (((isRun_of_mem cs run hrun).runClass c hc).trans hk)

end Portcullis.Yaml
