/-
  Portcullis.Proofs.Programs — writing an output whose references are closed.

  The writer looks a destination up where a policy leads to a resource. It fails if there is not
  exactly one destination, or if that is declared as something other than a host or a network,
  and it logs a line if it is not declared at all. In a `Writable` output nothing of this
  happens.
  - `toProgram_ok`: a writable output is written without a line in the log, and every
    declaration becomes an entry, in the order of the keys.
  - `typeAt_of_wrote`: a policy that leads to a resource names it with the type of the kind that
    it is declared with.
-/

import Portcullis.Declaration.Program
import Portcullis.Proofs.Declared

namespace Portcullis

theorem Declaration.sorted_perm (ds : List Declaration) : (Declaration.sorted ds).Perm ds := List.mergeSort_perm _ _

namespace Tree

/-! ## Looking into a tree -/

def field? (name : String) : Tree → Option Tree
  | .table entries => Table.find name entries
  | _ => none

def item? (i : Nat) : Tree → Option Tree
  | .list items => items[i]?
  | _ => none

def text? : Tree → Option String
  | .text s => some s
  | _ => none

end Tree

namespace Program

def destinationTypeOf? (rule : Tree) : Option String := do
  let destination ← rule.field? "destinationResource"
  let type ← destination.field? "type"
  type.text?

def ruleAt? (policy : Tree) (i : Nat) : Option Tree := do
  let properties ← policy.field? "properties"
  let rules ← properties.field? "rules"
  rules.item? i

def typeAt? (program : List (String × Tree)) (key : String) (i : Nat) : Option String := do
  let entries ← Table.find "resources" program
  let policy ← entries.field? key
  let rule ← ruleAt? policy i
  destinationTypeOf? rule

/-! ## Writable outputs -/

structure Writable (out : Output) : Prop where
  nodup : out.keys.Nodup
  reaches : ∀ p ∈ out.policies, p.kind = .groupToResource → ∀ r ∈ p.rules,
    ∃ x ∈ out.resources, r.destinations = [x.key] ∧ x.kind.isGroup = false

def Typed (out : Output) (r : PolicyRule) (type : Option String) : Prop :=
  ∃ x ∈ out.resources, r.destinations = [x.key] ∧ ∃ s, type = some s ∧ destinationType (some (.resource x)) = .ok s

structure Wrote (out : Output) (d : Declaration) (e : String × Tree) : Prop where
  key : e.1 = d.key
  typed : ∀ p, d = .policy p → p.kind = .groupToResource → ∀ (i : Nat) (r : PolicyRule), p.rules[i]? = some r →
    Typed out r ((ruleAt? e.2 i).bind destinationTypeOf?)

variable {out : Output} {w : Options}

theorem getElem?_of_forall₂ {α β : Type} {P : α → β → Prop} {xs : List α} {ys : List β} (h : List.Forall₂ P xs ys)
    {i : Nat} {x : α} (hx : xs[i]? = some x) : ∃ y, ys[i]? = some y ∧ P x y := by
  obtain ⟨hi, rfl⟩ := List.getElem?_eq_some_iff.mp hx
  have hj : i < ys.length := h.length_eq ▸ hi
  exact ⟨ys[i], List.getElem?_eq_getElem hj, h.get hi hj⟩

theorem map_eq_map_of_forall₂ {α β γ : Type} {f : α → γ} {g : β → γ} {xs : List α} {ys : List β}
    (h : List.Forall₂ (fun x y => g y = f x) xs ys) : ys.map g = xs.map f := by
  induction h with
  | nil => rfl
  | cons hxy _ ih => rw [List.map_cons, List.map_cons, hxy, ih]

/-- A list is written if each of its members is. -/
theorem logEach_ok {α β : Type} {f : α → Logged β} {P : α → β → Prop} {xs : List α}
    (h : ∀ x ∈ xs, ∃ y, f x = ([], .ok y) ∧ P x y) : ∃ ys, logEach f xs = ([], .ok ys) ∧ List.Forall₂ P xs ys := by
  induction xs with
  | nil => exact ⟨[], rfl, .nil⟩
  | cons x xs ih =>
    obtain ⟨y, hy, hP⟩ := h x (by simp)
    obtain ⟨ys, hys, hall⟩ := ih fun z hz => h z (List.mem_cons_of_mem _ hz)
    refine ⟨y :: ys, ?_, .cons hP hall⟩
    simp only [logEach, hy, hys]
    rfl

theorem exists_destinationType {x : ResourceDeclaration} (h : x.kind.isGroup = false) :
    ∃ s, destinationType (some (.resource x)) = .ok s := by
  unfold destinationType
  cases hk : x.kind with
  | host => exact ⟨"host", by simp [hk]⟩
  | network => exact ⟨"subnet", by simp [hk]⟩
  | group => rw [hk] at h; cases h
  | origin => rw [hk] at h; cases h

/-- A rule that leads to one declared resource is written with its type. -/
theorem policyRule_resource (h : out.keys.Nodup) {r : PolicyRule} {x : ResourceDeclaration} (hx : x ∈ out.resources)
    (hr : r.destinations = [x.key]) {s : String} (hs : destinationType (some (.resource x)) = .ok s) :
    ∃ t, policyRule out .groupToResource r = ([], .ok t) ∧ destinationTypeOf? t = some s := by
  have hfound := Output.get?_resource h hx
  have hdestinations : destinations out .groupToResource r = ([], .ok ("destinationResource",
      .table [("id", .text (reference x.key)), ("type", .text s)])) := by
    simp only [destinations, hr, hfound, hs]
    rfl
  unfold policyRule
  rw [hdestinations]
  refine ⟨_, rfl, ?_⟩
  by_cases hp : r.ports = []
  · rw [if_pos hp]
    rfl
  · rw [if_neg hp]
    rfl

/-- The rules of a policy of a writable output are written. -/
theorem policyRule_ok (h : Writable out) {p : PolicyDeclaration} (hp : p ∈ out.policies) {r : PolicyRule}
    (hr : r ∈ p.rules) : ∃ t, policyRule out p.kind r = ([], .ok t) ∧
      (p.kind = .groupToResource → Typed out r (destinationTypeOf? t)) := by
  cases hk : p.kind with
  -- A rule that leads to groups needs no look-up.
  | groupToGroup => exact ⟨_, rfl, fun hno => by cases hno⟩
  | groupToResource =>
    obtain ⟨x, hx, hdest, hkind⟩ := h.reaches p hp hk r hr
    obtain ⟨s, hs⟩ := exists_destinationType hkind
    obtain ⟨t, ht, htype⟩ := policyRule_resource h.nodup hx hdest hs
    exact ⟨t, ht, fun _ => ⟨x, hx, hdest, s, htype, hs⟩⟩

/-- The declarations of a writable output are written. -/
theorem entry_ok (h : Writable out) (w : Options) {d : Declaration} (hd : d ∈ out.declarations) :
    ∃ e, entry w out d = ([], .ok e) ∧ Wrote out d e := by
  cases d with
  | group g => exact ⟨_, rfl, rfl, fun p hp => by cases hp⟩
  | resource x => exact ⟨_, rfl, rfl, fun p hp => by cases hp⟩
  | policy p =>
    have hp : p ∈ out.policies := by simpa [Output.declarations] using hd
    obtain ⟨rules, hrules, hall⟩ := logEach_ok fun r hr => policyRule_ok h hp hr
    have hentry : entry w out (.policy p) = ([], .ok (p.key, object w "Policy" [("name", .text p.name),
        ("description", .text p.description), ("enabled", .flag p.enabled), ("rules", .list rules)])) := by
      simp only [entry, policy, hrules]
      rfl
    refine ⟨_, hentry, rfl, fun p' he hkind i r hr => ?_⟩
    cases he
    obtain ⟨t, ht, htyped⟩ := getElem?_of_forall₂ hall hr
    have hrule : ruleAt? (object w "Policy" [("name", .text p.name), ("description", .text p.description),
        ("enabled", .flag p.enabled), ("rules", .list rules)]) i = some t := ht
    rw [hrule]
    exact htyped hkind

/-- The entries of a program have the keys of the declarations. -/
theorem nodup_of_wrote (h : Writable out) {entries : List (String × Tree)}
    (hall : List.Forall₂ (Wrote out) (Declaration.sorted out.declarations) entries) : (entries.map Prod.fst).Nodup := by
  rw [map_eq_map_of_forall₂ (f := Declaration.key) (hall.imp fun _ _ hwrote => hwrote.key)]
  exact ((Declaration.sorted_perm out.declarations).map Declaration.key).nodup_iff.mpr h.nodup

/-- A writable output is written, entry by entry. -/
theorem toProgram_ok (h : Writable out) (w : Options) : ∃ entries,
    out.toProgram w = ([], .ok [("resources", .table entries)]) ∧
      List.Forall₂ (Wrote out) (Declaration.sorted out.declarations) entries := by
  obtain ⟨entries, hentries, hall⟩ := logEach_ok fun d hd => entry_ok h w ((Declaration.sorted_perm _).mem_iff.mp hd)
  refine ⟨entries, ?_, hall⟩
  unfold Output.toProgram
  rw [hentries]
  show (_, Except.ok [("resources", Tree.table (Table.ofList entries).toList)]) = _
  rw [Table.toList_ofList (nodup_of_wrote h hall)]

/-- What an entry says about the rules of a policy is what the program says. -/
theorem typeAt_of_wrote (h : Writable out) {entries : List (String × Tree)}
    (hall : List.Forall₂ (Wrote out) (Declaration.sorted out.declarations) entries) {p : PolicyDeclaration}
    (hp : p ∈ out.policies) (hkind : p.kind = .groupToResource) {i : Nat} {r : PolicyRule} (hr : p.rules[i]? = some r) :
    Typed out r (typeAt? [("resources", .table entries)] p.key i) := by
  have hmem : Declaration.policy p ∈ Declaration.sorted out.declarations :=
    (Declaration.sorted_perm _).mem_iff.mpr (by simp [Output.declarations, hp])
  obtain ⟨j, hj⟩ := List.mem_iff_getElem?.mp hmem
  obtain ⟨⟨k, policy⟩, he, hwrote⟩ := getElem?_of_forall₂ hall hj
  obtain rfl : k = p.key := hwrote.key
  have hfound : Table.find p.key entries = some policy :=
    (Table.find_eq_some_iff (nodup_of_wrote h hall)).mpr (List.mem_of_getElem? he)
  have htype : typeAt? [("resources", .table entries)] p.key i = (ruleAt? policy i).bind destinationTypeOf? := by
    show ((Table.find p.key entries).bind fun policy => (ruleAt? policy i).bind destinationTypeOf?) = _
    rw [hfound]
    rfl
  rw [htype]
  exact hwrote.typed p rfl hkind i r hr

end Program

end Portcullis
