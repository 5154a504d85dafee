/-
  Portcullis.Proofs.Exact — readers that fail with the first of their faults.

  What can be wrong with an input is listed in the order in which it is written. A reader is
  exact if it fails with the first fault, and else gives what it was told to read (`Exact`);
  readers that run one after the other are exact for their faults one after the other
  (`Exact.bind`). If entries have at most one fault each, the first entry with a fault decides
  the error (`Exact.error_iff_first`).
-/

namespace Portcullis

variable {ε β γ : Type}

/-- A reader that gives what `P` tells if there are no faults, and fails with the first of them
    otherwise. -/
def Exact (r : Except ε β) (fs : List ε) (P : β → Prop) : Prop :=
  match r with
  | .ok x => fs = [] ∧ P x
  | .error f => fs.head? = some f

variable {r : Except ε β} {fs gs : List ε} {P : β → Prop}

theorem Exact.mono (h : Exact r fs P) {Q : β → Prop} (hPQ : ∀ x, P x → Q x) : Exact r fs Q := by
  cases r with
  | error f => exact h
  | ok x => exact ⟨h.1, hPQ x h.2⟩

theorem Exact.bind (h : Exact r fs P) {g : β → Except ε γ} {Q : γ → Prop} (hg : ∀ x, P x → Exact (g x) gs Q) :
    Exact (r >>= g) (fs ++ gs) Q := by
  cases r with
  | error f =>
    show (fs ++ gs).head? = some f
    rw [List.head?_append, (h : fs.head? = some f), Option.some_or]
  | ok x =>
    obtain ⟨rfl, hx⟩ := h
    exact hg x hx

/-- What is read is put together with what is known. -/
theorem Exact.bind_pure (h : Exact r fs P) {g : β → γ} {Q : γ → Prop} (hg : ∀ x, P x → Q (g x)) :
    Exact (r >>= fun x => pure (g x)) fs Q := by
  rw [← List.append_nil fs]
  exact h.bind fun x hx => ⟨rfl, hg x hx⟩

theorem Exact.map (h : Exact r fs P) {g : β → γ} {Q : γ → Prop} (hg : ∀ x, P x → Q (g x)) : Exact (r.map g) fs Q := by
  cases r with
  | error f => exact h
  | ok x => exact ⟨h.1, hg x h.2⟩

theorem Exact.error_iff (h : Exact r fs P) (f : ε) : r = .error f ↔ fs.head? = some f := by
  cases r with
  | error g =>
    rw [(h : fs.head? = some g)]
    simp
  | ok x => simp [h.1]

theorem Exact.ok_iff (h : Exact r fs P) : (∃ x, r = .ok x) ↔ fs = [] := by
  cases r with
  | error f => simp [show fs ≠ [] from fun hnil => by rw [hnil] at h; cases h]
  | ok x => simp [h.1]

theorem Exact.of_ok (h : Exact r fs P) {x : β} (hx : r = .ok x) : P x := by
  subst hx
  exact h.2

/-! ## Entries with a fault each -/

variable {α : Type} {fault? : α → Option ε} {es : List α}

/-- The first entry with a fault decides the error. -/
theorem Exact.error_iff_first (h : Exact r (es.filterMap fault?) P) (f : ε) : r = .error f ↔
    ∃ before e after, es = before ++ e :: after ∧ fault? e = some f ∧ ∀ d ∈ before, fault? d = none := by
  rw [h.error_iff, List.head?_filterMap, List.findSome?_eq_some_iff]

theorem Exact.ok_iff_forall (h : Exact r (es.filterMap fault?) P) : (∃ x, r = .ok x) ↔ ∀ e ∈ es, fault? e = none := by
  rw [h.ok_iff, List.filterMap_eq_nil_iff]

end Portcullis
