/-
  Portcullis.Proofs.Yaml.Runs — what the shape of a text says about its runs.

  The writer cuts a text into runs of spaces, of breaks and of other characters. A text that may
  stand in single quotes (`Single`) has no spaces next to breaks, so every other run is one of
  other characters (`Alternating`), and no character needs an escape. A text that may stand
  without quotes (`Plain`) has no breaks either, and nothing in it ends a plain scalar. What the
  readers of both hold of the spaces between two words is a `Gap`.
-/

import Mathlib.Data.List.Chain
import Portcullis.Yaml.Scalar
import Portcullis.Yaml.Token.Gap

namespace Portcullis.Yaml

/-! ## Runs -/

/-- A character that goes on with the run behind it. -/
theorem runs_same {c : Char} {r ds : List Char} {k : RunClass} {rest : List (RunClass × List Char)}
    (hr : runs r = (k, ds) :: rest) (hk : k = runClass c) : runs (c :: r) = (k, c :: ds) :: rest := by
  simp [runs, hr, hk]

/-- A character that is a run of its own. -/
theorem runs_new {c : Char} {r : List Char} (hr : ∀ run ∈ (runs r).head?, run.1 ≠ runClass c) :
    runs (c :: r) = (runClass c, [c]) :: runs r := by
  cases h : runs r with
  | nil => simp [runs, h]
  | cons run rest =>
    rw [h] at hr
    simp [runs, h, hr run rfl]

/-- The runs of a text without its first character. -/
theorem runs_cases (c : Char) (r : List Char) :
    (∃ ds rest, runs r = (runClass c, ds) :: rest ∧ runs (c :: r) = (runClass c, c :: ds) :: rest) ∨
      ((∀ run ∈ (runs r).head?, run.1 ≠ runClass c) ∧ runs (c :: r) = (runClass c, [c]) :: runs r) := by
  cases hr : runs r with
  | nil => exact .inr ⟨by simp, hr ▸ runs_new (by simp [hr])⟩
  | cons run rest =>
    obtain ⟨k, ds⟩ := run
    by_cases hk : k = runClass c
    · subst hk
      exact .inl ⟨ds, rest, rfl, runs_same hr rfl⟩
    · have hne : ∀ run ∈ (runs r).head?, run.1 ≠ runClass c := by simp [hr, hk]
      exact .inr ⟨by simpa [hr] using hk, hr ▸ runs_new hne⟩

theorem flatMap_runs (cs : List Char) : (runs cs).flatMap Prod.snd = cs := by
  induction cs with
  | nil => rfl
  | cons c r ih =>
    rcases runs_cases c r with ⟨ds, rest, hr, h⟩ | ⟨-, h⟩
    · rw [hr] at ih
      simpa [h] using ih
    · simp [h, ih]

structure IsRun (run : RunClass × List Char) : Prop where
  ne_nil : run.2 ≠ []
  runClass : ∀ c ∈ run.2, runClass c = run.1

theorem isRun_of_mem (cs : List Char) : ∀ run ∈ runs cs, IsRun run := by
  induction cs with
  | nil => intro run h; cases h
  | cons c r ih =>
    rcases runs_cases c r with ⟨ds, rest, hr, h⟩ | ⟨-, h⟩
    · rw [hr] at ih
      obtain ⟨hrun, hrest⟩ := List.forall_mem_cons.mp ih
      rw [h]
      refine List.forall_mem_cons.mpr ⟨⟨by simp, List.forall_mem_cons.mpr ⟨rfl, hrun.runClass⟩⟩, hrest⟩
    · rw [h]
      exact List.forall_mem_cons.mpr ⟨⟨by simp, by simp⟩, ih⟩

/-- The first run begins with the first character. -/
theorem head_runs {c : Char} {r : List Char} : ∃ ds rest, runs (c :: r) = (runClass c, c :: ds) :: rest := by
  rcases runs_cases c r with ⟨ds, rest, -, h⟩ | ⟨-, h⟩
  · exact ⟨ds, rest, h⟩
  · exact ⟨[], runs r, h⟩

theorem runClass_space {c : Char} : runClass c = .space ↔ c = ' ' := by
  unfold runClass
  split
  · simp_all
  · split <;> simp_all

theorem runClass_breaks {c : Char} : runClass c = .breaks ↔ isBreak c = true := by
  unfold runClass
  split
  · rename_i h
    subst h
    simp [show isBreak ' ' = false by decide]
  · split <;> simp_all

theorem mem_of_mem_runs {cs : List Char} {run : RunClass × List Char} (hrun : run ∈ runs cs) {c : Char}
    (hc : c ∈ run.2) : c ∈ cs := by
  rw [← flatMap_runs cs]
  exact List.mem_flatMap.mpr ⟨run, hrun, hc⟩

/-- A text on one line has no runs of breaks. -/
theorem ne_breaks_of_mem {cs : List Char} (hline : ∀ c ∈ cs, isBreak c = false) {run : RunClass × List Char}
    (hrun : run ∈ runs cs) : run.1 ≠ .breaks := fun hk => by
  have hisRun := isRun_of_mem cs run hrun
  obtain ⟨c, r, hc⟩ := List.exists_cons_of_ne_nil hisRun.ne_nil
  have hmem : c ∈ run.2 := by rw [hc]; simp
  have hbreak := runClass_breaks.mp ((hisRun.runClass c hmem).trans hk)
  rw [hline c (mem_of_mem_runs hrun hmem)] at hbreak
  cases hbreak

/-- Of two neighbours exactly one is a run of other characters. -/
def Alternating (rs : List (RunClass × List Char)) : Prop := rs.IsChain fun a b => a.1 = .other ↔ b.1 ≠ .other

theorem alternating_runs {cs : List Char} (hb : hasPair isBreak (· = ' ') cs = false)
    (hs : hasPair (· = ' ') isBreak cs = false) : Alternating (runs cs) := by
  induction cs with
  | nil => exact .nil
  | cons c r ih =>
    cases r with
    | nil => exact .singleton _
    | cons d r =>
      simp only [hasPair, Bool.or_eq_false_iff] at hb hs
      have ih := ih hb.2 hs.2
      unfold Alternating at ih ⊢
      rcases runs_cases c (d :: r) with ⟨ds, rest, hr, h⟩ | ⟨hne, h⟩
      · rw [hr] at ih
        rw [h]
        cases rest with
        | nil => exact .singleton _
        | cons run rest => simpa using ih
      · obtain ⟨ds, rest, hr⟩ := @head_runs d r
        rw [h]
        rw [hr] at ih hne ⊢
        refine List.isChain_cons_cons.mpr ⟨?_, ih⟩
        have hne : runClass d ≠ runClass c := hne _ rfl
        -- Neighbours are of different classes, and not a space and a break.
        rcases hc : runClass c with _ | _ | _ <;> rcases hd : runClass d with _ | _ | _ <;>
          simp_all [runClass_space, runClass_breaks]

/-! ## Shapes -/

theorem special_false {c : Char} (h : isSpecial c = false) :
    c = '\n' ∨ (0x20 ≤ c.toNat ∧ c.toNat ≤ 0x7E) ∨
      ((c.toNat = 0x85 ∨ (0xA0 ≤ c.toNat ∧ c.toNat ≤ 0xD7FF) ∨ (0xE000 ≤ c.toNat ∧ c.toNat ≤ 0xFFFD) ∨
        (0x10000 ≤ c.toNat ∧ c.toNat < 0x10FFFF)) ∧ c ≠ byteOrderMark) := by
  simp only [isSpecial, Bool.and_eq_false_iff, Bool.not_eq_false', Bool.or_eq_true, Bool.and_eq_true,
    decide_eq_true_eq] at h
  tauto

structure Fair (c : Char) : Prop where
  allowed : isAllowed c = true
  mark : c ≠ byteOrderMark
  tab : c ≠ '\t'
  notEnd : c ≠ endMark
  notReturn : c ≠ '\r'

theorem fair_of_not_special {c : Char} (h : isSpecial c = false) : Fair c := by
  have hmark : byteOrderMark.toNat = 0xFEFF := by decide
  have htab : '\t'.toNat = 0x09 := by decide
  have hend : endMark.toNat = 0 := by decide
  have hreturn : '\r'.toNat = 0x0D := by decide
  rcases special_false h with rfl | hlow | ⟨hhigh, hne⟩
  · exact ⟨by decide, by decide, by decide, by decide, by decide⟩
  · refine ⟨?_, ?_, ?_, ?_, ?_⟩
    · simp only [isAllowed, Bool.or_eq_true, Bool.and_eq_true, decide_eq_true_eq]
      omega
    all_goals
      rintro rfl
      omega
  · refine ⟨?_, hne, ?_, ?_, ?_⟩
    · simp only [isAllowed, Bool.or_eq_true, Bool.and_eq_true, decide_eq_true_eq]
      omega
    all_goals
      rintro rfl
      omega

structure Single (cs : List Char) : Prop where
  fair : ∀ c ∈ cs, Fair c
  alternating : Alternating (runs cs)

theorem single_of_shape {cs : List Char} (h : (shape cs).single = true) : Single cs := by
  unfold shape at h
  split at h
  · rename_i hnil
    subst hnil
    exact ⟨by simp, .nil⟩
  · simp only [Bool.not_eq_true', Bool.or_eq_false_iff, List.any_eq_false] at h
    exact ⟨fun c hc => fair_of_not_special (by simpa using h.2 c hc), alternating_runs h.1.1 h.1.2⟩

structure Plain (cs : List Char) : Prop where
  ne_nil : cs ≠ []
  single : Single cs
  line : ∀ c ∈ cs, isBreak c = false
  head : cs.head? ≠ some ' '
  last : cs.getLast? ≠ some ' '
  indicators : hasIndicators cs = false

theorem plain_of_shape {cs : List Char} (hne : cs ≠ []) (h : (shape cs).plain = true) : Plain cs := by
  have hsingle : (shape cs).single = true := by
    unfold shape at h ⊢
    rw [if_neg hne] at h ⊢
    simp only [Bool.and_eq_true] at h
    exact h.1.1.1.1
  unfold shape at h
  rw [if_neg hne] at h
  simp only [Bool.and_eq_true, Bool.not_eq_true', List.any_eq_false] at h
  obtain ⟨⟨⟨⟨-, hline⟩, hhead⟩, hlast⟩, hindicators⟩ := h
  refine ⟨hne, single_of_shape hsingle, fun c hc => by simpa using hline c hc, fun hspace => ?_, fun hspace => ?_,
    hindicators⟩
  · rw [hspace] at hhead
    simp at hhead
  · rw [hspace] at hlast
    simp at hlast

/-! ## White space -/

def Gap.ofBlanks (cs : List Char) : Gap := ⟨cs, [], 0⟩

@[simp] theorem Gap.folded_ofBlanks (cs : List Char) : (Gap.ofBlanks cs).folded = cs := rfl

@[simp] theorem Gap.blank_ofBlanks (cs : List Char) (c : Char) :
    (Gap.ofBlanks cs).blank c = .ofBlanks (cs ++ [c]) := rfl

@[simp] theorem Gap.ofBlanks_nil : Gap.ofBlanks [] = .empty := rfl

/-- A run of spaces is told by its length. -/
theorem spaces_of_isRun {cs : List Char} (h : IsRun (.space, cs)) : cs = spaces cs.length :=
  List.eq_replicate_iff.mpr ⟨rfl, fun c hc => runClass_space.mp (h.runClass c hc)⟩

/-- A line that is indented is no marker between documents. -/
theorem isMarker_newLine {n : Nat} (hn : 0 < n) (rest : List Char) : isMarker (spaces n ++ rest) = false := by
  obtain ⟨n, rfl⟩ := Nat.exists_eq_succ_of_ne_zero hn.ne'
  rw [spaces, List.replicate_succ, List.cons_append]
  cases List.replicate n ' ' ++ rest with
  | nil => rfl
  | cons d r => cases r <;> simp [isMarker]

end Portcullis.Yaml
