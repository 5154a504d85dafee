/-
  Portcullis.Text.Split — cutting a text at a character.

  - `join_pieces`: the pieces, put together with the separator, are the text again.
  - `pieces_join`: pieces without the separator, put together with it, are found again.
-/

namespace Portcullis.Text

/-- What stands before the first occurrence of a character. -/
def before (sep : Char) (cs : List Char) : List Char := cs.takeWhile (· != sep)

/-- What follows the first occurrence of a character, if there is one. -/
def after? (sep : Char) : List Char → Option (List Char)
  | [] => none
  | c :: r => if c = sep then some r else after? sep r

/-- The pieces between the occurrences of a character; there is always one more. -/
def pieces (sep : Char) : List Char → List (List Char)
  | [] => [[]]
  | c :: r =>
    if c = sep then [] :: pieces sep r
    else match pieces sep r with
      | [] => [[c]]
      | p :: ps => (c :: p) :: ps

/-- Puts a separator between pieces. -/
def join (sep : Char) : List (List Char) → List Char
  | [] => []
  | [p] => p
  | p :: q :: ps => p ++ sep :: join sep (q :: ps)

/-- Replaces every occurrence of a character by a text. -/
def replace (c : Char) (new : List Char) (cs : List Char) : List Char :=
  cs.flatMap fun d => if d = c then new else [d]

theorem pieces_ne_nil (sep : Char) (cs : List Char) : pieces sep cs ≠ [] := by
  cases cs with
  | nil => simp [pieces]
  | cons c r =>
    simp only [pieces]
    split
    · simp
    · split <;> simp

theorem join_pieces (sep : Char) (cs : List Char) : join sep (pieces sep cs) = cs := by
  induction cs with
  | nil => rfl
  | cons c r ih =>
    have hne := pieces_ne_nil sep r
    simp only [pieces]
    split
    · rename_i h
      cases hp : pieces sep r with
      | nil => exact absurd hp hne
      | cons p ps => rw [hp] at ih; simp [join, ih, h]
    · cases hp : pieces sep r with
      | nil => exact absurd hp hne
      | cons p ps =>
        rw [hp] at ih
        cases ps with
        | nil => simp_all [join]
        | cons q qs => simp only [join, List.cons_append] at ih ⊢; rw [ih]

/-- A text without the separator is one piece. -/
theorem pieces_of_not_mem {sep : Char} {cs : List Char} (h : sep ∉ cs) : pieces sep cs = [cs] := by
  induction cs with
  | nil => rfl
  | cons c cs ih =>
    simp only [List.mem_cons, not_or] at h
    simp only [pieces, if_neg (Ne.symm h.1), ih h.2]

theorem pieces_append {sep : Char} {cs : List Char} (h : sep ∉ cs) (r : List Char) :
    pieces sep (cs ++ sep :: r) = cs :: pieces sep r := by
  induction cs with
  | nil => simp [pieces]
  | cons c cs ih =>
    simp only [List.mem_cons, not_or] at h
    simp only [List.cons_append, pieces, if_neg (Ne.symm h.1), ih h.2]

/-- A separator divides the pieces before it from those behind it. -/
theorem pieces_concat (sep : Char) (cs r : List Char) : pieces sep (cs ++ sep :: r) = pieces sep cs ++ pieces sep r := by
  induction cs with
  | nil => simp [pieces]
  | cons c cs ih =>
    obtain ⟨p, ps, hp⟩ := List.exists_cons_of_ne_nil (pieces_ne_nil sep cs)
    simp only [List.cons_append, pieces, ih, hp]
    split <;> rfl

/-- Pieces without the separator are found again. -/
theorem pieces_join {sep : Char} {ps : List (List Char)} (hne : ps ≠ []) (h : ∀ p ∈ ps, sep ∉ p) :
    pieces sep (join sep ps) = ps := by
  induction ps with
  | nil => exact absurd rfl hne
  | cons p ps ih =>
    have hp := h p (by simp)
    cases ps with
    | nil => exact pieces_of_not_mem hp
    | cons q ps => rw [join, pieces_append hp, ih (by simp) fun x hx => h x (by simp [hx])]

/-- What `pieces` does at a character that is no separator. -/
theorem exists_pieces_cons {sep c : Char} (h : c ≠ sep) (cs : List Char) :
    ∃ p ps, pieces sep cs = p :: ps ∧ pieces sep (c :: cs) = (c :: p) :: ps := by
  obtain ⟨p, ps, hp⟩ := List.exists_cons_of_ne_nil (pieces_ne_nil sep cs)
  exact ⟨p, ps, hp, by simp only [pieces, if_neg h, hp]⟩

theorem length_pieces (sep : Char) (cs : List Char) : (pieces sep cs).length = cs.count sep + 1 := by
  induction cs with
  | nil => rfl
  | cons c r ih =>
    by_cases h : c = sep
    · subst h; simp [pieces, ih]
    · obtain ⟨p, ps, hp, hp'⟩ := exists_pieces_cons h r
      rw [hp', List.count_cons_of_ne h, ← ih, hp]
      rfl

theorem exists_mem_of_mem_join {sep c : Char} {ps : List (List Char)} (hc : c ∈ join sep ps) (hne : c ≠ sep) :
    ∃ p ∈ ps, c ∈ p := by
  induction ps with
  | nil => cases hc
  | cons p ps ih =>
    cases ps with
    | nil => exact ⟨p, by simp, hc⟩
    | cons q ps =>
      simp only [join, List.mem_append, List.mem_cons, hne, false_or] at hc
      rcases hc with hc | hc
      · exact ⟨p, by simp, hc⟩
      · obtain ⟨x, hx, hcx⟩ := ih hc
        exact ⟨x, List.mem_cons_of_mem _ hx, hcx⟩

theorem infix_join_of_mem {sep : Char} {ps : List (List Char)} {p : List Char} (hp : p ∈ ps) : p <:+: join sep ps := by
  induction ps with
  | nil => cases hp
  | cons q ps ih =>
    cases ps with
    | nil => exact List.mem_singleton.mp hp ▸ List.infix_rfl
    | cons r ps =>
      simp only [join]
      rcases List.mem_cons.mp hp with rfl | hp
      · exact (List.prefix_append _ _).isInfix
      · exact (ih hp).trans ((List.suffix_cons _ _).trans (List.suffix_append _ _)).isInfix

theorem exists_mem_pieces {sep c : Char} {cs : List Char} (hc : c ∈ cs) (hne : c ≠ sep) : ∃ p ∈ pieces sep cs, c ∈ p := by
  rw [← join_pieces sep cs] at hc
  exact exists_mem_of_mem_join hc hne

theorem infix_of_mem_pieces {sep : Char} {cs p : List Char} (hp : p ∈ pieces sep cs) : p <:+: cs := by
  have hjoin : p <:+: join sep (pieces sep cs) := infix_join_of_mem hp
  rwa [join_pieces] at hjoin

theorem mem_of_mem_pieces {sep c : Char} {cs p : List Char} (hp : p ∈ pieces sep cs) (hc : c ∈ p) : c ∈ cs :=
  (infix_of_mem_pieces hp).subset hc

theorem after?_eq_none_iff {sep : Char} {cs : List Char} : after? sep cs = none ↔ sep ∉ cs := by
  induction cs with
  | nil => simp [after?]
  | cons c r ih =>
    by_cases h : c = sep
    · simp [after?, h]
    · have h' : ¬ sep = c := fun e => h e.symm
      simp [after?, h, h', ih]

theorem not_mem_before (sep : Char) (cs : List Char) : sep ∉ before sep cs := by
  induction cs with
  | nil => simp [before]
  | cons c cs ih =>
    by_cases h : c = sep
    · simp [before, h]
    · simpa [before, List.takeWhile_cons, h, Ne.symm h] using ih

theorem before_of_not_mem {sep : Char} {cs : List Char} (h : sep ∉ cs) : before sep cs = cs := by
  induction cs with
  | nil => rfl
  | cons c r ih =>
    simp only [List.mem_cons, not_or] at h
    have hc : (c != sep) = true := by simpa using Ne.symm h.1
    rw [before, List.takeWhile_cons, if_pos hc]
    exact congrArg (c :: ·) (ih h.2)

theorem before_append {sep : Char} {cs : List Char} (h : sep ∉ cs) (r : List Char) :
    before sep (cs ++ sep :: r) = cs := by
  induction cs with
  | nil => simp [before]
  | cons c cs ih =>
    simp only [List.mem_cons, not_or] at h
    have hc : (c != sep) = true := by simpa using Ne.symm h.1
    rw [before, List.cons_append, List.takeWhile_cons, if_pos hc]
    exact congrArg (c :: ·) (ih h.2)

theorem after?_append {sep : Char} {cs : List Char} (h : sep ∉ cs) (r : List Char) :
    after? sep (cs ++ sep :: r) = some r := by
  induction cs with
  | nil => simp [after?]
  | cons c cs ih =>
    simp only [List.mem_cons, not_or] at h
    rw [List.cons_append, after?, if_neg (Ne.symm h.1), ih h.2]

theorem before_append_after {sep : Char} {cs r : List Char} (h : after? sep cs = some r) :
    cs = before sep cs ++ sep :: r := by
  induction cs with
  | nil => simp [after?] at h
  | cons c cs ih =>
    by_cases hc : c = sep
    · simp [after?, hc] at h
      simp [before, hc, h]
    · simp only [after?, if_neg hc] at h
      have := ih h
      simpa [before, List.takeWhile_cons, hc] using this

theorem suffix_of_after? {sep : Char} {cs r : List Char} (h : after? sep cs = some r) : r <:+ cs := by
  rw [before_append_after h]
  exact (List.suffix_cons _ _).trans (List.suffix_append _ _)

theorem mem_replace_iff {c d : Char} {new cs : List Char} :
    d ∈ replace c new cs ↔ (c ∈ cs ∧ d ∈ new) ∨ (d ∈ cs ∧ d ≠ c) := by
  simp only [replace, List.mem_flatMap]
  constructor
  · rintro ⟨e, he, hd⟩
    split at hd
    · rename_i h
      exact .inl ⟨h ▸ he, hd⟩
    · rename_i h
      obtain rfl := List.mem_singleton.mp hd
      exact .inr ⟨he, h⟩
  · rintro (⟨hc, hd⟩ | ⟨hd, hne⟩)
    · exact ⟨c, hc, by rwa [if_pos rfl]⟩
    · exact ⟨d, hd, by rw [if_neg hne]; exact List.mem_singleton_self d⟩

theorem replace_ne_nil {c : Char} {new cs : List Char} (hnew : new ≠ []) (h : cs ≠ []) : replace c new cs ≠ [] := by
  obtain ⟨d, r, rfl⟩ := List.exists_cons_of_ne_nil h
  simp only [replace, List.flatMap_cons]
  split <;> simp [hnew]

theorem replace_of_not_mem {c : Char} {new cs : List Char} (h : c ∉ cs) : replace c new cs = cs := by
  induction cs with
  | nil => rfl
  | cons d cs ih =>
    simp only [List.mem_cons, not_or] at h
    have hcons : replace c new (d :: cs) = (if d = c then new else [d]) ++ replace c new cs := rfl
    rw [hcons, if_neg (Ne.symm h.1), ih h.2]
    rfl

end Portcullis.Text
