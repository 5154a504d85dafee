/-
  Portcullis.Proofs.Numeral — numbers in decimal digits.

  - `readInt?_toDigits`: a number that can be written in decimal reads back as itself.
  - `exists_zeros`: a run of ASCII digits is the decimal of its value behind some zeros.
-/

import Mathlib.Data.Nat.Digits.Defs
import Portcullis.Number.Integer

namespace Portcullis.Number

open Portcullis.Text

/-- What nothing of a class surrounds is left alone by cutting that class off. -/
theorem trimBy_of_none {p : Char → Bool} {cs : List Char} (h : ∀ c ∈ cs, p c = false) : trimBy p cs = cs := by
  have keep : ∀ ds : List Char, (∀ c ∈ ds, p c = false) → ds.dropWhile p = ds := by
    intro ds hd
    cases ds with
    | nil => rfl
    | cons c ds => simp [List.dropWhile, hd c (by simp)]
  unfold trimBy
  rw [keep cs h, keep cs.reverse (by simpa using h), List.reverse_reverse]

theorem isDigit_of_mem_toDigits {n : Nat} {c : Char} (h : c ∈ Nat.toDigits 10 n) : c.isDigit = true :=
  Nat.isDigit_of_mem_toDigits (by decide) (by decide) h

theorem not_mem_toDigits {c : Char} (h : c.isDigit = false) (n : Nat) : c ∉ Nat.toDigits 10 n := fun hc => by
  rw [isDigit_of_mem_toDigits hc] at h
  cases h

/-- The ten ASCII digits by their code points. -/
theorem toNat_of_isDigit {c : Char} (h : c.isDigit = true) : 48 ≤ c.toNat ∧ c.toNat ≤ 57 := by
  simp only [Char.isDigit, Bool.and_eq_true, decide_eq_true_eq] at h
  exact ⟨h.1, h.2⟩

theorem digit?_of_isDigit {c : Char} (h : c.isDigit = true) : digit? c = some (c.toNat - 48) := by
  obtain ⟨h1, h2⟩ := toNat_of_isDigit h
  have hz : (0x30 ≤ c.toNat && c.toNat < 0x30 + 10) = true := by
    simp only [Bool.and_eq_true, decide_eq_true_eq]; omega
  simp only [digit?, zeroDigits, List.find?_cons, hz, Option.map_some]

theorem isDigit_of_ascii {c : Char} (h : c.isDigit = true) : Text.isDigit c = true := by
  rw [Text.isDigit, digit?_of_isDigit h]
  rfl

theorem digitIn?_of_isDigit {c : Char} (h : c.isDigit = true) : digitIn? 10 c = some (c.toNat - 48) := by
  obtain ⟨h1, h2⟩ := toNat_of_isDigit h
  simp only [digitIn?, digit?_of_isDigit h]
  rw [if_pos (by omega)]

theorem isMargin_of_isDigit {c : Char} (h : c.isDigit = true) : isMargin c = false := by
  obtain ⟨h1, h2⟩ := toNat_of_isDigit h
  simp only [isMargin, isBlank, inRanges, blankRanges, List.any_cons, List.any_nil, Bool.or_false,
    Bool.and_eq_false_imp, Bool.or_eq_true, Bool.and_eq_true, decide_eq_true_eq]
  omega

theorem readDigits_of_isDigit : ∀ (cs : List Char) (n : Nat) (fresh : Bool), (∀ c ∈ cs, c.isDigit = true) →
    (cs = [] → fresh = false) → readDigits 10 n fresh cs = some (Nat.ofDigitChars 10 cs n) := by
  intro cs
  induction cs with
  | nil =>
    intro n fresh _ hf
    simp [readDigits, hf rfl]
  | cons c cs ih =>
    intro n fresh h _
    have hc := h c (by simp)
    have hne : c ≠ '_' := by rintro rfl; exact absurd hc (by decide)
    have hstep : readDigits 10 n fresh (c :: cs) =
        (digitIn? 10 c).bind fun d => readDigits 10 (10 * n + d) false cs := by
      simp only [readDigits]
    rw [hstep, digitIn?_of_isDigit hc, Option.bind_some, ih _ _ (fun d hd => h d (by simp [hd])) (fun _ => rfl),
      Nat.ofDigitChars_cons]
    rfl

theorem dropBaseMark_ten (cs : List Char) : dropBaseMark 10 cs = cs := by
  unfold dropBaseMark
  split
  · simp [baseLetters]
  · rfl

theorem takeSign_of_isDigit {cs : List Char} (h : ∀ c ∈ cs, c.isDigit = true) : takeSign cs = (false, cs) := by
  unfold takeSign
  split
  · exact absurd (h '-' (by simp)) (by decide)
  · exact absurd (h '+' (by simp)) (by decide)
  · rfl

theorem countDigits_of_isDigit {cs : List Char} (h : ∀ c ∈ cs, c.isDigit = true) (n : Nat) {fresh : Bool}
    (hfresh : cs = [] → fresh = false) : countDigits n fresh cs = some (n + cs.length) := by
  induction cs generalizing n fresh with
  | nil => simp [countDigits, hfresh rfl]
  | cons c cs ih =>
    have hc := h c (by simp)
    have hne : c ≠ '_' := by rintro rfl; exact absurd hc (by decide)
    have hstep : countDigits n fresh (c :: cs) = countDigits (n + 1) false cs := by
      simp [countDigits, isDigit_of_ascii hc]
    rw [hstep, ih (fun d hd => h d (by simp [hd])) (n + 1) fun _ => rfl, List.length_cons]
    congr 1
    omega

/-- A run of ASCII digits has too many if it is longer than any decimal may be. -/
theorem excess?_of_isDigit {cs : List Char} (h : ∀ c ∈ cs, c.isDigit = true) (hne : cs ≠ []) :
    excess? cs = if longest < cs.length then some cs.length else none := by
  rw [excess?, trimBy_of_none fun c hc => isMargin_of_isDigit (h c hc), takeSign_of_isDigit h,
    countDigits_of_isDigit h 0 fun e => absurd e hne, Nat.zero_add, Option.filter_some]
  simp only [decide_eq_true_eq]

/-- Whether a number has few enough digits to be written in decimal and read again. -/
abbrev Writable (n : Nat) : Prop := (Nat.toDigits 10 n).length ≤ longest

theorem writable_of_lt {n : Nat} (h : n < 100000) : Writable n :=
  Nat.le_trans (Nat.toDigits_length 10 n 5 (by decide) h) (by decide)

theorem isWritable_iff {n : Int} : isWritable n = true ↔ n.natAbs < 10 ^ longest := by
  rw [isWritable, decide_eq_true_iff, Nat.length_toDigits_le_iff (by decide) (by decide)]

theorem not_isWritable_of_le {n : Int} (h : 10 ^ longest ≤ n.natAbs) : isWritable n = false :=
  Bool.eq_false_iff.mpr fun hn => Nat.not_lt.mpr h (isWritable_iff.mp hn)

/-- A number that can be written in decimal reads back as itself. -/
theorem readInt?_toDigits {n : Nat} (hn : Writable n) : readInt? 10 (Nat.toDigits 10 n) = some (n : Int) := by
  have hd : ∀ c ∈ Nat.toDigits 10 n, c.isDigit = true := fun c hc => isDigit_of_mem_toDigits hc
  have hexcess : excess? (Nat.toDigits 10 n) = none := by
    rw [excess?_of_isDigit hd Nat.toDigits_ne_nil, if_neg (Nat.not_lt.mpr hn)]
  have hr : readNat? 10 (Nat.toDigits 10 n) = some n := by
    cases hcs : Nat.toDigits 10 n with
    | nil => exact absurd hcs Nat.toDigits_ne_nil
    | cons c cs =>
      simp only [readNat?]
      rw [readDigits_of_isDigit _ _ _ (fun d h => hd d (hcs ▸ h)) (fun h => by cases h), ← hcs,
        Nat.ofDigitChars_ten_toDigits]
  simp only [readInt?, hexcess, Option.isSome_none, Bool.and_false, Bool.false_eq_true, if_false,
    trimBy_of_none fun c hc => isMargin_of_isDigit (hd c hc), takeSign_of_isDigit hd, dropBaseMark_ten, hr,
    Option.map_some, signed]

/-! ## From digits to numbers -/

theorem isAsciiDigit_eq (c : Char) : isAsciiDigit c = c.isDigit := rfl

/-- The value of a run of ASCII digits. -/
theorem digitsValue_eq {cs : List Char} (h : ∀ c ∈ cs, c.isDigit = true) : digitsValue cs = Nat.ofDigitChars 10 cs 0 := by
  have hfold : ∀ n, cs.foldl (fun n c => 10 * n + (digit? c).getD 0) n = Nat.ofDigitChars 10 cs n := by
    induction cs with
    | nil => intro n; rfl
    | cons c cs ih =>
      intro n
      rw [List.foldl_cons, digit?_of_isDigit (h c (by simp)), ih (fun d hd => h d (by simp [hd])), Nat.ofDigitChars_cons]
      rfl
  exact hfold 0

theorem digitsValue_toDigits (n : Nat) : digitsValue (Nat.toDigits 10 n) = n := by
  rw [digitsValue_eq fun c hc => isDigit_of_mem_toDigits hc, Nat.ofDigitChars_ten_toDigits]

theorem digitChar_of_isDigit {c : Char} (h : c.isDigit = true) : Nat.digitChar (c.toNat - 48) = c := by
  obtain ⟨h1, h2⟩ := toNat_of_isDigit h
  apply Char.toNat_inj.mp
  rw [Nat.toNat_digitChar_of_lt_ten (by omega)]
  omega

/-- Digits behind a number that is not zero are written behind its decimal. -/
theorem toDigits_ofDigitChars {cs : List Char} (h : ∀ c ∈ cs, c.isDigit = true) {n : Nat} (hn : 0 < n) :
    Nat.toDigits 10 (Nat.ofDigitChars 10 cs n) = Nat.toDigits 10 n ++ cs := by
  induction cs generalizing n with
  | nil => rw [Nat.ofDigitChars_nil, List.append_nil]
  | cons c cs ih =>
    have hc := h c (by simp)
    obtain ⟨h1, h2⟩ := toNat_of_isDigit hc
    have hlt : c.toNat - 48 < 10 := by omega
    have hstep : Nat.toDigits 10 (10 * n + (c.toNat - 48)) = Nat.toDigits 10 n ++ [c] := by
      rw [← Nat.toDigits_append_toDigits (by decide) hn hlt, Nat.toDigits_of_lt_base hlt, digitChar_of_isDigit hc]
    rw [Nat.ofDigitChars_cons, ih (fun d hd => h d (by simp [hd])) (by omega)]
    exact hstep ▸ List.append_assoc ..

/-- A run of digits that starts with no zero is the decimal of its value. -/
theorem toDigits_digitsValue {c : Char} {cs : List Char} (h : ∀ d ∈ c :: cs, d.isDigit = true) (hzero : c ≠ '0') :
    Nat.toDigits 10 (digitsValue (c :: cs)) = c :: cs := by
  have hc := h c (by simp)
  obtain ⟨h1, h2⟩ := toNat_of_isDigit hc
  have hne : c.toNat ≠ 48 := fun e => hzero (Char.toNat_inj.mp e)
  have hlt : c.toNat - 48 < 10 := by omega
  have hhead : 10 * 0 + (c.toNat - 48) = c.toNat - 48 := by omega
  rw [digitsValue_eq h, Nat.ofDigitChars_cons]
  show Nat.toDigits 10 (Nat.ofDigitChars 10 cs (10 * 0 + (c.toNat - 48))) = c :: cs
  rw [hhead, toDigits_ofDigitChars (fun d hd => h d (List.mem_cons_of_mem c hd)) (by omega),
    Nat.toDigits_of_lt_base hlt, digitChar_of_isDigit hc]
  rfl

theorem digitsValue_zeros (k : Nat) (cs : List Char) :
    digitsValue (List.replicate k '0' ++ cs) = digitsValue cs := by
  induction k with
  | zero => rfl
  | succ k ih => exact ih

/-- A run of digits is the decimal of its value behind some zeros. -/
theorem exists_zeros {cs : List Char} (h : ∀ c ∈ cs, c.isDigit = true) (hne : cs ≠ []) :
    ∃ k, cs = List.replicate k '0' ++ Nat.toDigits 10 (digitsValue cs) := by
  induction cs with
  | nil => exact absurd rfl hne
  | cons c cs ih =>
    by_cases hzero : c = '0'
    · subst hzero
      by_cases hcs : cs = []
      · subst hcs
        exact ⟨0, by decide⟩
      · obtain ⟨k, hk⟩ := ih (fun d hd => h d (List.mem_cons_of_mem _ hd)) hcs
        exact ⟨k + 1, congrArg ('0' :: ·) hk⟩
    · exact ⟨0, (toDigits_digitsValue h hzero).symm⟩

end Portcullis.Number
