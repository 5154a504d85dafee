/-
  Portcullis.Text.Lines — line breaks of every origin as line feeds.
-/

namespace Portcullis.Text

/-- Makes a line feed of a carriage return, and one of a carriage return with a line feed. -/
def unifyBreaks : List Char → List Char
  | [] => []
  | '\r' :: '\n' :: r => '\n' :: unifyBreaks r
  | c :: r => (if c = '\r' then '\n' else c) :: unifyBreaks r

theorem unifyBreaks_of_not_mem {cs : List Char} (h : '\r' ∉ cs) : unifyBreaks cs = cs := by
  induction cs with
  | nil => rfl
  | cons c r ih =>
    simp only [List.mem_cons, not_or] at h
    have hc : ¬ c = '\r' := fun e => h.1 e.symm
    rw [unifyBreaks]
    · simp [hc, ih h.2]
    · intro _ hcr _
      exact hc hcr

end Portcullis.Text
