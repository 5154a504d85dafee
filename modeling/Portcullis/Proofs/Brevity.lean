/-
  Portcullis.Proofs.Brevity — where the reading of a document stops.

  A number of too many digits is the fault of no token: whoever reads it stops there. So a
  document has a result only if no such number is met.
  - `halts_classify_iff`: the tokens that make the reading stop (`Endless`).
  - `Document.Short.brief`: in a document without such numbers the reading of nothing stops.
-/

import Portcullis.Proofs.GroupTable
import Portcullis.Proofs.Outcome

namespace Portcullis

open Compiler

/-- Tokens that make the reading stop: an end of a port has too many digits, or the value is no
    text and its own text cannot be written. -/
def Endless : Value → Prop
  | .text s => Overlong s
  | v => v.writable = false

theorem halts_classify_iff {v : Value} : halts (classify v) = true ↔ Endless v := by
  have hvalue : ∀ v, halts (α := Endpoint) (.error (noToken v .emptyEndpoint)) = true ↔ v.writable = false := fun v => by
    unfold noToken
    cases hv : v.writable <;> simp [halts, Malformation.isReported]
  cases v with
  | text s => exact Membership.halts_of_decides (decides_classifyText s)
  | _ => exact hvalue _

theorem briefRule_iff {a : AccessRule} : BriefRule a ↔ ∀ t ∈ a.sources ++ a.destinations, ¬ Endless t := by
  simp only [BriefRule, Brief, ← halts_classify_iff, Bool.not_eq_true, List.mem_append, or_imp, forall_and]

/-! ## Documents without long numbers -/

def Value.Short : Value → Prop
  | .text s => ShortNumbers s.toList
  | v => v.writable = true

theorem Value.Short.not_endless {v : Value} (h : v.Short) : ¬ Endless v := fun hv => by
  cases v with
  | text s => exact Overlong.not_short hv h
  | _ => exact Bool.false_ne_true (Eq.trans (Eq.symm hv) h)

theorem Value.Short.not_stuck {v : Value} (h : v.Short) : ¬ Membership.Stuck v := fun hv => by
  cases v with
  | text s => exact hv.not_short h
  | _ => exact Bool.false_ne_true (Eq.trans (Eq.symm hv) h)

structure Document.Short (d : Document) : Prop where
  groups : ∀ v ∈ Membership.entriesOf d.groups.toList, v.Short
  tags : ∀ name ∈ d.tagOwners.keys, ShortNumbers name.toList
  rules : ∀ a ∈ d.rules, ∀ t ∈ a.sources ++ a.destinations, t.Short

theorem halts_ofTable {table : NameTable} (h : ∀ v ∈ Membership.entriesOf table.toList, v.Short) (depth : Option Nat) :
    halts (Membership.ofTable table depth) = false := by
  refine Bool.eq_false_iff.mpr fun hhalts => ?_
  obtain ⟨u, hu, hstops⟩ := halts_eq_true_iff.mp hhalts
  obtain ⟨before, v, after, hentries, hv, -⟩ := ((Membership.exact_ofTable table depth).error_iff_first u).mp hu
  have hmember : halts (classifyMember v) = true :=
    halts_eq_true_iff.mpr ⟨u, Membership.fault?_eq_some_iff.mp hv, hstops⟩
  exact (h v (hentries ▸ List.mem_append_right _ List.mem_cons_self)).not_stuck (Membership.stuck_iff.mp hmember)

theorem halts_tagNames {names : List String} (h : ∀ name ∈ names, ShortNumbers name.toList) :
    halts (Compilation.tagNames names) = false := by
  induction names with
  | nil => rfl
  | cons name names ih =>
    obtain ⟨hname, hnames⟩ := List.forall_mem_cons.mp h
    have hread : halts (classifyMember (.text name)) = false :=
      Bool.eq_false_iff.mpr fun hhalts => (Membership.stuck_iff.mp hhalts).not_short hname
    unfold Compilation.tagNames
    split
    · simp only [classifyMember] at hread
      cases hc : classifyMemberText name with
      | error u => rwa [hc] at hread
      | ok e => exact (halts_map _ _).trans (ih hnames)
    · exact ih hnames

/-- The reading of nothing stops in a document without numbers of too many digits. -/
theorem Document.Short.brief {d : Document} (h : d.Short) : BriefDocument d where
  groups := halts_ofTable h.groups none
  tags := halts_tagNames h.tags
  rules a ha := briefRule_iff.mpr fun t ht => (h.rules a ha t ht).not_endless

end Portcullis
