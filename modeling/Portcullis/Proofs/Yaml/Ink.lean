/-
  Portcullis.Proofs.Yaml.Ink — the characters that are written for a text.

  A stream may hold all of them (`Inked.allowed`), none is a byte order mark, and there are breaks
  among them only if the text is folded or holds breaks itself and stands in single quotes.
  What is written begins as the text does, or with a quote.
-/

import Portcullis.Proofs.Yaml.Plain
import Portcullis.Proofs.Yaml.Quoted
import Portcullis.Yaml.Render

namespace Portcullis.Yaml

open Portcullis.Text

structure Inked (broken : Prop) (c : Char) : Prop where
  allowed : isAllowed c = true
  mark : c ≠ byteOrderMark
  line : isBreak c = true → broken
  notReturn : c ≠ '\r'

def isPrinted (c : Char) : Bool := 0x20 ≤ c.toNat && c.toNat ≤ 0x7E

variable {B : Prop}

theorem inked_of_printed {c : Char} (h : isPrinted c = true) : Inked B c := by
  simp only [isPrinted, Bool.and_eq_true, decide_eq_true_eq] at h
  have hbreak : isBreak c = false := by
    simp only [isBreak, Bool.or_eq_false_iff, decide_eq_false_iff_not]
    refine ⟨⟨⟨?_, ?_⟩, ?_⟩, ?_⟩ <;> (rintro rfl; exact absurd h (by decide))
  have hline : isBreak c = true → B := fun hb => by rw [hbreak] at hb; cases hb
  refine ⟨?_, ?_, hline, ?_⟩
  · simp only [isAllowed, Bool.or_eq_true, Bool.and_eq_true, decide_eq_true_eq]
    omega
  all_goals
    rintro rfl
    exact absurd h (by decide)

theorem inked_of_all {cs : List Char} (h : cs.all isPrinted = true) : ∀ c ∈ cs, Inked B c := fun c hc =>
  inked_of_printed (List.all_eq_true.mp h c hc)

theorem inked_of_fair {c : Char} (h : Fair c) (hline : isBreak c = true → B) : Inked B c := 
  ⟨h.allowed, h.mark, hline, h.notReturn⟩

theorem inked_spaces {n : Nat} {c : Char} (h : c ∈ spaces n) : Inked B c := by
  obtain rfl := List.eq_of_mem_replicate h
  exact inked_of_printed (by decide)

theorem inked_newLine (hB : B) {n : Nat} {c : Char} (h : c ∈ newLine n) : Inked B c := by
  rcases List.mem_cons.mp h with rfl | h
  · exact ⟨by decide, by decide, fun _ => hB, by decide⟩
  · exact inked_spaces h

/-! ## The three styles -/

theorem inked_plainRuns {indent : Nat} {fold : Bool} (hfold : fold = true → B) (rs : List (RunClass × List Char))
    (column : Nat) (hrs : ∀ run ∈ rs, ∀ c ∈ run.2, Inked B c) :
    ∀ c ∈ writePlainRuns indent fold column rs, Inked B c := by
  induction rs generalizing column with
  | nil => intro c hc; cases hc
  | cons run rs ih =>
    obtain ⟨k, cs⟩ := run
    obtain ⟨hcs, hrs⟩ := List.forall_mem_cons.mp hrs
    rw [writePlainRuns]
    split
    · rename_i h
      simp only [Bool.and_eq_true] at h
      exact List.forall_mem_append.mpr ⟨fun c hc => inked_newLine (hfold h.1.1.1) hc, ih _ hrs⟩
    · exact List.forall_mem_append.mpr ⟨hcs, ih _ hrs⟩

theorem inked_doubleQuotes {cs : List Char} (hcs : ∀ c ∈ cs, Inked B c) : ∀ c ∈ doubleQuotes cs, Inked B c := by
  intro c hc
  obtain ⟨d, hd, hc⟩ := List.mem_flatMap.mp hc
  split at hc
  · rcases List.mem_cons.mp hc with rfl | hc
    · exact inked_of_printed (by decide)
    · rw [List.mem_singleton.mp hc]
      exact inked_of_printed (by decide)
  · rw [List.mem_singleton.mp hc]
    exact hcs d hd

theorem inked_singleRuns {indent : Nat} {fold : Bool} (hfold : fold = true → B) (rs : List (RunClass × List Char))
    (inner : Bool) (column : Nat) (hrs : ∀ run ∈ rs, ∀ c ∈ run.2, Inked B c) :
    ∀ c ∈ writeSingleRuns indent fold inner column rs, Inked B c := by
  induction rs generalizing inner column with
  | nil => intro c hc; cases hc
  | cons run rs ih =>
    obtain ⟨k, cs⟩ := run
    obtain ⟨hcs, hruns⟩ := List.forall_mem_cons.mp hrs
    cases k with
    | space =>
      rw [writeSingleRuns]
      split
      · rename_i h
        simp only [Bool.and_eq_true] at h
        exact List.forall_mem_append.mpr ⟨fun c hc => inked_newLine (hfold h.1.1.1.1) hc, ih _ _ hruns⟩
      · exact List.forall_mem_append.mpr ⟨hcs, ih _ _ hruns⟩
    | breaks =>
      rw [writeSingleRuns, writeBreaks]
      refine List.forall_mem_append.mpr ⟨List.forall_mem_append.mpr ⟨List.forall_mem_append.mpr ⟨fun c hc => ?_, hcs⟩,
        fun c hc => inked_spaces hc⟩, ih _ _ hruns⟩
      split at hc
      · rename_i hhead
        rw [List.mem_singleton.mp hc]
        exact hcs _ (List.mem_of_head? hhead)
      · cases hc
    | other =>
      rw [writeSingleRuns]
      exact List.forall_mem_append.mpr ⟨inked_doubleQuotes hcs, ih _ _ hruns⟩

theorem inked_open {c : Char} (h : isOpen c = true) : Inked B c := by
  have hbreak := (open_of_isOpen h).notBreak
  simp only [isOpen, Bool.and_eq_true, decide_eq_true_eq, Bool.or_eq_true] at h
  refine ⟨?_, h.1.2, fun hb => absurd hb (by simp [hbreak]), ?_⟩
  · simp only [isAllowed, Bool.or_eq_true, Bool.and_eq_true, decide_eq_true_eq]
    omega
  · rintro rfl
    exact absurd h.2 (by decide)

theorem isPrinted_upper (w n : Nat) : ∀ c ∈ Hex.upper w n, isPrinted c = true := by
  have hdigit : ∀ d < 16, isPrinted (Hex.upperDigit d) = true := by decide
  unfold Hex.upper
  induction w generalizing n with
  | zero => intro c hc; cases hc
  | succ w ih =>
    rw [Hex.fixed]
    refine List.forall_mem_append.mpr ⟨ih _, fun c hc => ?_⟩
    rw [List.mem_singleton.mp hc]
    exact hdigit _ (Nat.mod_lt _ (by decide))

theorem isPrinted_escape (c : Char) : ∀ d ∈ escape c, isPrinted d = true := by
  have hletters : ∀ e ∈ escapes, isPrinted e.2 = true := by decide
  unfold escape
  split
  · rename_i e he
    have hletter := hletters e (List.mem_of_find?_eq_some he)
    simp only [List.forall_mem_cons, List.not_mem_nil, false_implies, implies_true, and_true]
    exact ⟨by decide, hletter⟩
  · simp only
    split
    · exact List.forall_mem_cons.mpr ⟨by decide, List.forall_mem_cons.mpr ⟨by decide, isPrinted_upper _ _⟩⟩
    · split <;> exact List.forall_mem_cons.mpr ⟨by decide, List.forall_mem_cons.mpr ⟨by decide, isPrinted_upper _ _⟩⟩

theorem inked_foldDouble (hB : B) (indent : Nat) (next : Option Char) :
    ∀ c ∈ (foldDouble indent next).chars, Inked B c := by
  have hbackslash : Inked B '\\' := inked_of_printed (by decide)
  unfold foldDouble
  split
  · refine List.forall_mem_append.mpr ⟨List.forall_mem_cons.mpr ⟨hbackslash, fun c hc => inked_newLine hB hc⟩, ?_⟩
    simpa using hbackslash
  · exact List.forall_mem_cons.mpr ⟨hbackslash, fun c hc => inked_newLine hB hc⟩

theorem inked_doubleChars {indent : Nat} {fold : Bool} (hfold : fold = true → B) (cs : List Char) (inner fresh : Bool)
    (column : Nat) : ∀ c ∈ writeDoubleChars indent fold inner fresh column cs, Inked B c := by
  induction cs generalizing inner fresh column with
  | nil => intro c hc; cases hc
  | cons c r ih =>
    have hescape : ∀ d ∈ escape c, Inked B d := fun d hd => inked_of_printed (isPrinted_escape c d hd)
    rw [writeDoubleChars]
    simp only
    split
    · rename_i hopen
      have hc : Inked B c := inked_open hopen
      split
      · rename_i h
        simp only [Bool.and_eq_true] at h
        exact List.forall_mem_append.mpr ⟨inked_foldDouble (hfold h.1.1.1.1) _ _,
          List.forall_mem_cons.mpr ⟨hc, ih _ _ _⟩⟩
      · exact List.forall_mem_cons.mpr ⟨hc, ih _ _ _⟩
    · split
      · rename_i h
        simp only [Bool.and_eq_true] at h
        exact List.forall_mem_append.mpr
          ⟨List.forall_mem_append.mpr ⟨hescape, inked_foldDouble (hfold h.1.1.1) _ _⟩, ih _ _ _⟩
      · exact List.forall_mem_append.mpr ⟨hescape, ih _ _ _⟩

def Style.Suits : Style → List Char → Prop
  | .plain, cs => Plain cs
  | .single, cs => Single cs
  | .double, _ => True

def Style.seen : Style → List Char → List Char
  | .single, cs => seenRuns (runs cs)
  | _, cs => cs

theorem inked_scalar {style : Style} {cs : List Char} (h : style.Suits cs) {indent : Nat} {fold : Bool}
    (hfold : fold = true → B) (hline : (∃ c ∈ cs, isBreak c = true) → B) (column : Nat) :
    ∀ c ∈ writeScalar style indent fold column cs, Inked B c := by
  have hquote : ∀ {q : Char}, isPrinted q = true → ∀ {inner : List Char}, (∀ c ∈ inner, Inked B c) →
      ∀ c ∈ q :: inner ++ [q], Inked B c := fun hq inner hinner => by
    refine List.forall_mem_append.mpr ⟨List.forall_mem_cons.mpr ⟨inked_of_printed hq, hinner⟩, ?_⟩
    simpa using inked_of_printed hq
  cases style with
  | plain =>
    exact inked_plainRuns hfold _ _ fun run hmem c hc =>
      inked_of_fair (h.single.fair c (mem_of_mem_runs hmem hc)) fun hb => hline ⟨c, mem_of_mem_runs hmem hc, hb⟩
  | single =>
    exact hquote (by decide) (inked_singleRuns hfold _ _ _ fun run hmem c hc =>
      inked_of_fair (h.fair c (mem_of_mem_runs hmem hc)) fun hb => hline ⟨c, mem_of_mem_runs hmem hc, hb⟩)
  | double => exact hquote (by decide) (inked_doubleChars hfold _ _ _ _)

/-! ## Beginnings -/

structure Begins (c : Char) (r : List Char) : Prop where
  mark : c ≠ byteOrderMark
  leading : c ∉ leadingIndicators
  notBlank : isBlankOrEnd c = false
  sign : c = '-' ∨ c = '?' ∨ c = ':' → isBlankOrEnd (r.headD endMark) = false
  marker : isMarker (c :: r) = false

/-- Behind the first run of a plain text on the page comes a space, a new line, or what follows. -/
theorem head_plainRuns {indent column : Nat} {fold : Bool} {run : RunClass × List Char}
    {rs : List (RunClass × List Char)} (hrun : ∀ r ∈ rs, IsRun r) (halt : Alternating (run :: rs))
    (hother : run.1 = .other)
    (hline : ∀ r ∈ rs, r.1 ≠ .breaks) {rest : List Char} (hrest : ∀ c ∈ rest.head?, c ≠ '-' ∧ c ≠ '.') :
    ∀ c ∈ (writePlainRuns indent fold column rs ++ rest).head?, c ≠ '-' ∧ c ≠ '.' := by
  have hblank := blank_behind_other hrun halt hother hline
  cases rs with
  | nil => exact hrest
  | cons next rs =>
    obtain ⟨k, cs⟩ := next
    obtain ⟨d, ds, hcs⟩ := List.exists_cons_of_ne_nil (hrun _ List.mem_cons_self).ne_nil
    simp only at hcs
    subst hcs
    have hd : isBlankOrEnd d = true := hblank
    rw [writePlainRuns]
    intro c hc
    split at hc
    · obtain rfl : '\n' = c := by simpa [newLine] using hc
      decide
    · obtain rfl : d = c := by simpa using hc
      constructor <;> (rintro rfl; exact absurd hd (by decide))

/-- What does not begin like a marker is none: its first three characters are those of the text,
    or what comes behind its first run is no sign. -/
theorem not_isMarker {c : Char} {ds more behind : List Char} (hmarker : beginsLikeMarker (c :: (ds ++ more)) = false)
    (hhead : ∀ d ∈ behind.head?, d ≠ '-' ∧ d ≠ '.') : isMarker (c :: (ds ++ behind)) = false := by
  match ds, behind, hhead, hmarker with
  | [], [], _, _ => rfl
  | [], [_], _, _ => rfl
  | [], d :: e :: b, hhead, _ => simp [isMarker, (hhead d rfl).1, (hhead d rfl).2]
  | [_], [], _, _ => rfl
  | [d], e :: b, hhead, _ => simp [isMarker, (hhead e rfl).1, (hhead e rfl).2]
  | d :: e :: ds, b, _, hmarker => grind [isMarker, beginsLikeMarker, List.isPrefixOf]

theorem begins_plain {cs : List Char} (h : Plain cs) (indent : Nat) (fold : Bool) (column : Nat) :
    ∃ c w, writePlainRuns indent fold column (runs cs) = c :: w ∧
      ∀ rest : List Char, (∀ d ∈ rest.head?, d ≠ '-' ∧ d ≠ '.') → Begins c (w ++ rest) := by
  obtain ⟨c, r₀, hcs⟩ := List.exists_cons_of_ne_nil h.ne_nil
  subst hcs
  obtain ⟨ds, rs, hruns⟩ := @head_runs c r₀
  have hclass : runClass c = .other := by
    have hspace : c ≠ ' ' := fun hc => h.head (by rw [hc]; rfl)
    simp [runClass, hspace, h.line c List.mem_cons_self]
  rw [hclass] at hruns
  have hisRun := isRun_of_mem (c :: r₀)
  have halt := h.single.alternating
  rw [hruns] at hisRun halt
  have hline : ∀ r ∈ rs, r.1 ≠ .breaks := fun run hrun =>
    ne_breaks_of_mem h.line (by rw [hruns]; exact List.mem_cons_of_mem _ hrun)
  have hr₀ : r₀ = ds ++ rs.flatMap Prod.snd := by
    have hflat := flatMap_runs (c :: r₀)
    rw [hruns, List.flatMap_cons] at hflat
    exact (List.cons.inj hflat).2.symm
  have hlater : ∀ r ∈ rs, IsRun r := fun r hr => hisRun r (List.mem_cons_of_mem _ hr)
  have hfair : ∀ d ∈ c :: ds, isBlankOrEnd d = false := fun d hd =>
    not_blank_of_other (h.single.fair d (by rw [hr₀]; exact List.mem_cons.mpr ((List.mem_cons.mp hd).imp_right
      (List.mem_append_left _)))) ((hisRun _ List.mem_cons_self).runClass d hd)
  have hindicators := h.indicators
  simp only [hasIndicators, isFirstIndicator, Bool.or_eq_false_iff, Bool.and_eq_false_imp, Bool.or_eq_true,
    decide_eq_true_eq, List.contains_eq_mem, decide_eq_false_iff_not] at hindicators
  obtain ⟨⟨hmarker, hleading, hsign⟩, -⟩ := hindicators
  have hwritten : writePlainRuns indent fold column (runs (c :: r₀)) =
      c :: (ds ++ writePlainRuns indent fold (column + (c :: ds).length) rs) := by
    rw [hruns, writePlainRuns, if_neg (by simp)]
    simp
  refine ⟨c, _, hwritten, fun rest hrest => ?_⟩
  have hhead := @head_plainRuns indent (column + (c :: ds).length) fold _ rs hlater halt rfl hline rest hrest
  rw [List.append_assoc]
  generalize writePlainRuns indent fold (column + (c :: ds).length) rs ++ rest = behind at hhead ⊢
  refine ⟨(h.single.fair c List.mem_cons_self).mark, hleading, hfair c List.mem_cons_self, fun hc => ?_, ?_⟩
  · have hnext := hsign (or_comm.mp hc)
    rw [hr₀] at hnext
    cases ds with
    | nil =>
      rw [List.nil_append, blank_behind_other hlater halt rfl hline] at hnext
      cases hnext
    | cons d ds => exact hfair d (by simp)
  · rw [hr₀] at hmarker
    exact not_isMarker hmarker hhead

/-! ## Documents -/

theorem suits_keyStyle (cs : List Char) : (keyStyle cs).Suits cs := by
  unfold keyStyle
  simp only
  split
  · rename_i h
    simp only [Bool.and_eq_true, decide_eq_true_eq] at h
    refine plain_of_shape ?_ h.2
    rintro rfl
    exact absurd h.1 (by decide)
  · split
    · rename_i h
      exact single_of_shape h
    · trivial

theorem valueStyle_cases (cs : List Char) : (valueStyle cs = .single ∧ Single cs) ∨ valueStyle cs = .double := by
  unfold valueStyle
  split
  · rename_i h
    exact .inl ⟨rfl, single_of_shape h⟩
  · exact .inr rfl

theorem suits_valueStyle (cs : List Char) : (valueStyle cs).Suits cs := by
  rcases valueStyle_cases cs with ⟨h, hcs⟩ | h <;> rw [h]
  · exact hcs
  · trivial

theorem inked_lead (p : Place) (indent : Nat) : ∀ c ∈ p.lead indent, Inked True c := by
  unfold Place.lead
  split
  · exact fun c hc => inked_spaces hc
  · exact fun c hc => inked_newLine trivial hc

theorem inked_writeKey (step indent : Nat) (cs : List Char) : ∀ c ∈ (writeKey step indent cs).1, Inked True c := by
  have hscalar : ∀ i fold column, ∀ c ∈ writeScalar (keyStyle cs) i fold column cs, Inked True c := fun i fold column =>
    inked_scalar (suits_keyStyle cs) (fun _ => trivial) (fun _ => trivial) column
  unfold writeKey
  split
  · exact List.forall_mem_append.mpr ⟨hscalar _ _ _, by simpa using inked_of_printed (by decide)⟩
  · refine List.forall_mem_append.mpr ⟨List.forall_mem_append.mpr ⟨?_, fun c hc => inked_newLine trivial hc⟩,
      by simpa using inked_of_printed (by decide)⟩
    exact List.forall_mem_cons.mpr ⟨inked_of_printed (by decide),
      List.forall_mem_cons.mpr ⟨inked_of_printed (by decide), hscalar _ _ _⟩⟩

mutual

/-- A stream may hold all characters that are written for a value. -/
theorem inked_writeTree (step : Nat) (p : Place) (t : Tree) : ∀ c ∈ writeTree step p t, Inked True c := by
  have hspace : Inked True ' ' := inked_of_printed (by decide)
  match t with
  | .text s =>
    rw [writeTree]
    exact List.forall_mem_cons.mpr ⟨hspace, inked_scalar (suits_valueStyle _) (fun _ => trivial) (fun _ => trivial) _⟩
  | .flag b =>
    rw [writeTree]
    refine List.forall_mem_cons.mpr ⟨hspace, inked_of_all ?_⟩
    cases b <;> decide
  | .list [] =>
    rw [writeTree]
    exact inked_of_all (by decide)
  | .table [] =>
    rw [writeTree]
    exact inked_of_all (by decide)
  | .list (t :: ts) =>
    rw [writeTree]
    refine List.forall_mem_append.mpr ⟨List.forall_mem_append.mpr ⟨inked_lead _ _, ?_⟩, inked_writeItems step _ ts⟩
    exact List.forall_mem_cons.mpr ⟨inked_of_printed (by decide), inked_writeTree step _ t⟩
  | .table ((k, t) :: es) =>
    rw [writeTree]
    refine List.forall_mem_append.mpr ⟨List.forall_mem_append.mpr ⟨List.forall_mem_append.mpr ⟨inked_lead _ _, ?_⟩, ?_⟩,
      inked_writeEntries step _ es⟩
    · exact inked_writeKey step _ _
    · exact inked_writeTree step _ t

theorem inked_writeItems (step indent : Nat) (ts : List Tree) : ∀ c ∈ writeItems step indent ts, Inked True c := by
  match ts with
  | [] => intro c hc; cases hc
  | t :: ts =>
    rw [writeItems]
    refine List.forall_mem_append.mpr ⟨List.forall_mem_append.mpr ⟨fun c hc => inked_newLine trivial hc, ?_⟩,
      inked_writeItems step indent ts⟩
    exact List.forall_mem_cons.mpr ⟨inked_of_printed (by decide), inked_writeTree step _ t⟩

theorem inked_writeEntries (step indent : Nat) (es : List (String × Tree)) :
    ∀ c ∈ writeEntries step indent es, Inked True c := by
  match es with
  | [] => intro c hc; cases hc
  | (k, t) :: es =>
    rw [writeEntries]
    exact List.forall_mem_append.mpr ⟨List.forall_mem_append.mpr ⟨List.forall_mem_append.mpr
      ⟨fun c hc => inked_newLine trivial hc, inked_writeKey step indent _⟩, inked_writeTree step _ t⟩,
      inked_writeEntries step indent es⟩

end

/-- A stream may hold every document. -/
theorem inked_writeDocument (step : Nat) (es : List (String × Tree)) : ∀ c ∈ writeDocument step es, Inked True c := by
  match es with
  | [] =>
    rw [writeDocument]
    exact fun c hc => (List.mem_append.mp (show c ∈ ['{', '}'] ++ newLine 0 from hc)).elim (inked_of_all (by decide) c)
      (inked_newLine trivial)
  | (k, t) :: es =>
    rw [writeDocument]
    exact List.forall_mem_append.mpr ⟨List.forall_mem_append.mpr ⟨List.forall_mem_append.mpr
      ⟨inked_writeKey step 0 _, inked_writeTree step _ t⟩, inked_writeEntries step 0 es⟩,
      fun c hc => inked_newLine (n := 0) trivial hc⟩

end Portcullis.Yaml
