/-
  Portcullis.Proofs.Composition — a compilation is the compilations of its rules.

  Where the rules are taken one by one, each rule runs its course whatever the others do, so
  what is reported of it is what is reported when it is compiled alone.
  - `compile_composed`: there is a result if and only if the reading of no token stops. Its errors
    are those of the rules in order, and so are the warnings; a rule stores policies if and only
    if it has no error of its own; and a rule that cannot be read has one error for each empty
    side and each malformed token, in order.
  - `a_long_port_hides_an_error`: where the reading stops, no rule has errors.
-/

import Portcullis.Proofs.Access
import Portcullis.Proofs.Brevity
import Portcullis.Proofs.Declared
import Portcullis.Proofs.References
import Mathlib.Data.List.Induction

namespace Portcullis.Compiler

open Portcullis.Graph

variable {m : Membership} {declared : List String} {d : Document} {o : Options}

/-! ## The rules that a sweep leaves in the book -/

theorem placed_append (xs : List Rule) (y : Rule) (ys : List Rule) :
    ∃ after, placed (xs ++ y :: ys) = placed xs ++ (xs.length, y) :: after := by
  unfold placed
  rw [List.zipIdx_append, List.map_append, List.zipIdx_cons, List.map_cons, Nat.zero_add]
  exact ⟨_, rfl⟩

/-- A rule of a sweep, treated when the rules before it are drawn. -/
theorem mem_treatedAll (f : Rule → Verdict) (draw : Graph → Rule → Graph × Rule) (before after : List Placed)
    (p : Placed) (g : Graph) :
    (p.1, (treated f draw (drawn draw g (passed f before)) p.2).2) ∈ treatedAll f draw g (before ++ p :: after) := by
  induction before generalizing g with
  | nil => exact List.mem_cons.mpr (.inl rfl)
  | cons q before ih =>
    have hdrawn : drawn draw g (passed f (q :: before)) = drawn draw (treated f draw g q.2).1 (passed f before) := by
      rw [passed_cons]
      unfold treated
      cases passes (f q.2).complaints <;> rfl
    rw [hdrawn]
    exact List.mem_cons_of_mem _ (ih _)

/-- A rule of the document after all stages: it has noted the keys of its edges, or none if it
    was stopped. -/
theorem treated_accessRule (m : Membership) (declared : List String) (g : Graph) (a : AccessRule) :
    let r := (treated (course m declared) (drawnThen register (drawnThen drawGroups drawResources)) g
      (Rule.ofAccessRule a)).2
    r.index = a.index ∧ r.policyKeys = if passes (verdictOf m declared a).complaints then
      g.storedKeys (edgesOf (verdictOf m declared a).rule) else [] := by
  have hnone : (verdictOf m declared a).rule.policyKeys = [] :=
    congrArg Rule.policyKeys (frame_course m declared (Rule.ofAccessRule a))
  show (treated _ _ g _).2.index = _ ∧ (treated _ _ g _).2.policyKeys = _
  unfold treated
  show (if passes (verdictOf m declared a).complaints = true then _ else _ : Graph × Rule).2.index = _ ∧
    (if passes (verdictOf m declared a).complaints = true then _ else _ : Graph × Rule).2.policyKeys = _
  by_cases hp : passes (verdictOf m declared a).complaints = true
  · rw [if_pos hp, if_pos hp]
    refine ⟨(congrArg Rule.index (bare_drawn_rule g _)).trans (index_verdictOf m declared a), ?_⟩
    rw [(drawn_rule g _).2]
    show (verdictOf m declared a).rule.policyKeys ++ _ = _
    rw [hnone]
    exact storedKeys_congr (policies_foldl_registered g [(verdictOf m declared a).rule]) _
  · rw [if_neg hp, if_neg hp]
    exact ⟨index_verdictOf m declared a, hnone⟩

def storedBefore (m : Membership) (declared : List String) (rules : List AccessRule) (i : Nat) : Graph :=
  Graph.stored {} ((finished m declared (rules.take i)).flatMap edgesOf)

/-- A rule in the book has noted the keys under which its edges were stored behind those of the
    rules before it. -/
theorem book_noted (ht : Tables d o m declared) (hb : BriefRules d) (ho : o.ruleDebug = false) {i : Nat} {a : AccessRule}
    (ha : d.rules[i]? = some a) :
    ∃ r : Rule, (compile d o).2.book[i]? = some r ∧ r.index = a.index ∧
      r.policyKeys = if passes (verdictOf m declared a).complaints then
        (storedBefore m declared d.rules i).storedKeys (edgesOf (verdictOf m declared a).rule) else [] := by
  obtain ⟨qs, hs⟩ := compile_swept ht hb ho
  obtain ⟨hi, rfl⟩ := List.getElem?_eq_some_iff.mp ha
  have hsplit : d.rules.map Rule.ofAccessRule =
      (d.rules.take i).map Rule.ofAccessRule ++ Rule.ofAccessRule d.rules[i] ::
        (d.rules.drop (i + 1)).map Rule.ofAccessRule := by
    rw [← List.map_cons, ← List.map_append, List.getElem_cons_drop, List.take_append_drop]
  obtain ⟨after, hplaced⟩ := placed_append ((d.rules.take i).map Rule.ofAccessRule) (Rule.ofAccessRule d.rules[i])
    ((d.rules.drop (i + 1)).map Rule.ofAccessRule)
  have hlength : ((d.rules.take i).map Rule.ofAccessRule).length = i := by
    rw [List.length_map, List.length_take]
    omega
  rw [← hsplit, hlength] at hplaced
  have hmem := mem_treatedAll (course m declared) (drawnThen register (drawnThen drawGroups drawResources))
    (placed ((d.rules.take i).map Rule.ofAccessRule)) after (i, Rule.ofAccessRule d.rules[i]) (entered d o m declared).graph
  rw [← hplaced] at hmem
  have hbook := hs.treated _ hmem
  rw [laidOut_rulewise, finished_eq] at hbook
  obtain ⟨hindex, hkeys⟩ := treated_accessRule m declared
    (laidOut false (entered d o m declared).graph (finished m declared (d.rules.take i))) d.rules[i]
  refine ⟨_, hbook, hindex, hkeys.trans ?_⟩
  have hbefore : (laidOut false (entered d o m declared).graph (finished m declared (d.rules.take i))).policies =
      (storedBefore m declared d.rules i).policies := policies_laidOut (policies_foldMembership m) false _
  rw [storedKeys_congr hbefore]

/-! ## Which rules store policies -/

/-- Every key under which something is stored was noted for some rule. -/
theorem exists_noted {rules : List AccessRule} {k : String} {x : Edge}
    (hx : (Graph.stored {} ((finished m declared rules).flatMap edgesOf)).policies.get? k = some x) :
    ∃ i a, rules[i]? = some a ∧ passes (verdictOf m declared a).complaints = true ∧
      k ∈ (storedBefore m declared rules i).storedKeys (edgesOf (verdictOf m declared a).rule) := by
  induction rules using List.reverseRecOn with
  | nil => cases hx
  | append_singleton rules a ih =>
    have hearlier : (Graph.stored {} ((finished m declared rules).flatMap edgesOf)).policies.get? k = some x →
        ∃ i b, (rules ++ [a])[i]? = some b ∧ passes (verdictOf m declared b).complaints = true ∧
          k ∈ (storedBefore m declared (rules ++ [a]) i).storedKeys (edgesOf (verdictOf m declared b).rule) := by
      intro hx
      obtain ⟨i, b, hb, hp, hk⟩ := ih hx
      obtain ⟨hi, -⟩ := List.getElem?_eq_some_iff.mp hb
      refine ⟨i, b, by rw [List.getElem?_append_left hi, hb], hp, ?_⟩
      unfold storedBefore
      rw [List.take_append_of_le_length (Nat.le_of_lt hi)]
      exact hk
    rw [finished_append, List.flatMap_append, stored_append] at hx
    by_cases hp : passes (verdictOf m declared a).complaints = true
    · have hlast : finished m declared [a] = [(verdictOf m declared a).rule] := by simp [finished, hp]
      rw [hlast, List.flatMap_singleton] at hx
      by_cases hk : k ∈ (storedBefore m declared (rules ++ [a]) rules.length).storedKeys
          (edgesOf (verdictOf m declared a).rule)
      · exact ⟨rules.length, a, by simp, hp, hk⟩
      · unfold storedBefore at hk
        rw [List.take_left' rfl] at hk
        exact hearlier ((get?_stored_of_not_mem hk).symm.trans hx)
    · have hlast : finished m declared [a] = [] := by simp [finished, hp]
      rw [hlast] at hx
      exact hearlier hx

/-- Under a key that a rule has noted stands a policy of the index of the rule. -/
theorem Compiled.policy_of_noted {c : Compilation} (hc : Compiled d o m declared c) {i : Nat} {a : AccessRule}
    (ha : d.rules[i]? = some a) (hp : passes (verdictOf m declared a).complaints = true) {k : String}
    (hk : k ∈ (storedBefore m declared d.rules i).storedKeys (edgesOf (verdictOf m declared a).rule)) :
    ∃ x, c.graph.policies.get? k = some x ∧ x.ruleIndex = a.index := by
  have hkeys : PolicyKeys (edgesOf (verdictOf m declared a).rule) := policyKeys_edgesOf _
  have hbefore : Indexed (storedBefore m declared d.rules i) := indexed_empty.stored (policyKeys_scheduled false _)
  obtain ⟨e, he, y, hy, hindex⟩ := exists_of_mem_storedKeys hbefore hkeys hk
  obtain ⟨x, hx, hxy⟩ := get?_stored_index (hbefore.stored hkeys) (policyKeys_scheduled false
    (finished m declared (d.rules.drop (i + 1)))) hy
  refine ⟨x, ?_, ?_⟩
  · rw [hc.get?_policies, finished_split ha hp, List.flatMap_append, List.flatMap_cons, stored_append, stored_append]
    exact hx
  · rw [hxy, hindex, ruleIndex_of_mem he, index_verdictOf]

/-- A rule that goes on has an edge: it has a token among its destinations, and that stands for
    itself at least. -/
theorem edgesOf_ne_nil (hm : Membership.OfNames m.groups) {a : AccessRule} (hb : BriefRule a)
    (hp : passes (verdictOf m declared a).complaints = true) : edgesOf (verdictOf m declared a).rule ≠ [] := by
  obtain ⟨-, e, he⟩ := exists_readable_sides hb hp
  intro hnil
  have hmem : e.key ∈ (verdictOf m declared a).rule.destinations.keys :=
    ((settled_verdictOf hm hb hp).mem_destinations _).mpr ⟨e, he, covers_self m e⟩
  have hkeys := (settled_verdictOf hm hb hp).keys_destinations
  have hedge := (perm_destinations (verdictOf m declared a).rule).mem_iff.mpr (hkeys ▸ hmem)
  unfold edgesOf at hnil
  rw [hnil] at hedge
  cases hedge

/-! ## What is reported -/

def Unreadable (ts : List Value) : Prop := ts = [] ∨ ∃ t ∈ ts, ∃ u, classify t = .error u

theorem not_passes_unreadable {side : Side} {ts : List Value} (h : Unreadable ts) :
    ¬ passes (unreadable side ts) = true := by
  rw [passes_unreadable]
  intro hex
  rcases hex with ⟨hne, hall⟩
  rcases h with hnil | ⟨t, ht, u, hu⟩
  · exact hne hnil
  · obtain ⟨e, he⟩ := hall t ht
    rw [he] at hu
    cases hu

/-- Complaints about tokens are errors. -/
theorem error_of_unreadable {side : Side} {ts : List Value} : ∀ p ∈ unreadable side ts, p.severity = .error := by
  intro p hp
  unfold unreadable at hp
  split at hp
  · rw [List.mem_singleton.mp hp]
    rfl
  · obtain ⟨t, -, hp⟩ := List.mem_flatMap.mp hp
    unfold faultOf at hp
    split at hp
    · cases hp
    · rw [List.mem_singleton.mp hp]
      rfl

/-- Nothing else is looked at in a rule that cannot be read. -/
theorem complaints_of_unreadable {a : AccessRule} (hb : BriefRule a)
    (h : Unreadable a.sources ∨ Unreadable a.destinations) :
    (verdictOf m declared a).complaints = unreadable .source a.sources ++ unreadable .destination a.destinations := by
  have hr := tractable_ofAccessRule hb
  obtain ⟨s, d, -, -, hread⟩ := classified_eq (Rule.ofAccessRule a) hr.sources hr.destinations hr.brief
  have hcomplaints : (classified (Rule.ofAccessRule a)).complaints =
      unreadable .source a.sources ++ unreadable .destination a.destinations := by rw [hread]; rfl
  have hstopped : ¬ passes (classified (Rule.ofAccessRule a)).complaints = true := by
    rw [hcomplaints, passes_append, Bool.and_eq_true]
    intro hex
    rcases hex with ⟨hs, hd⟩
    rcases h with h | h
    · exact not_passes_unreadable h hs
    · exact not_passes_unreadable h hd
  unfold verdictOf course
  rw [andThen_of_passes (judges_classified.outcome hr), if_neg hstopped, hcomplaints]

theorem error_of_complaint {a : AccessRule} (hb : BriefRule a)
    (h : Unreadable a.sources ∨ Unreadable a.destinations) {p : Complaint}
    (hp : p ∈ (verdictOf m declared a).complaints) : p.severity = .error := by
  rw [complaints_of_unreadable hb h] at hp
  exact (List.mem_append.mp hp).elim (error_of_unreadable p) (error_of_unreadable p)

/-- So the errors of such a rule are the complaints about its tokens. -/
theorem errors_of_unreadable {a : AccessRule} (hb : BriefRule a)
    (h : Unreadable a.sources ∨ Unreadable a.destinations) :
    ((tagged a.index (verdictOf m declared a).complaints).filter fun d => d.severity = .error) =
      tagged a.index (unreadable .source a.sources ++ unreadable .destination a.destinations) := by
  have hcomplaints : (verdictOf m declared a).complaints = _ := complaints_of_unreadable hb h
  rw [← hcomplaints]
  apply List.filter_eq_self.mpr
  intro e he
  obtain ⟨p, hp, rfl⟩ := List.mem_map.mp he
  simpa using error_of_complaint hb h hp

/-- Rule by rule, the problems are recorded in order. -/
theorem entries_rulewise (ht : Tables d o m declared) (hb : BriefRules d) (ho : o.ruleDebug = false) :
    (compile d o).2.journal.entries = problems m declared d.rules := by
  obtain ⟨qs, hs⟩ := compile_swept ht hb ho
  rw [hs.journal, problems_eq, Journal.entries_noteAll]
  rfl

theorem entries_alone (ht : Tables d o m declared) (ho : o.ruleDebug = false) {a : AccessRule} (hb : BriefRule a) :
    (compile { d with rules := [a] } o).2.journal.entries = tagged a.index (verdictOf m declared a).complaints :=
  (entries_rulewise (d := { d with rules := [a] }) ⟨ht.membership, ht.tags⟩ (List.forall_mem_singleton.mpr hb) ho).trans
    (List.append_nil _)

/-- So are those of one kind. -/
theorem filter_entries_rulewise (ht : Tables d o m declared) (hb : BriefRules d) (ho : o.ruleDebug = false)
    {own : AccessRule → List Diagnostic} {p : Diagnostic → Bool}
    (hown : ∀ a, BriefRule a → own a = (compile { d with rules := [a] } o).2.journal.entries.filter p) :
    (compile d o).2.journal.entries.filter p = d.rules.flatMap own := by
  rw [entries_rulewise ht hb ho, problems, List.filter_flatMap]
  refine List.flatMap_congr fun a ha => ?_
  rw [hown a (hb a ha), entries_alone ht ho (hb a ha)]

/-- A compilation told by the compilations of its rules alone, with the same tables. -/
structure Composed (d : Document) (o : Options) (res : Result) (own : AccessRule → Result) : Prop where
  alone : ∀ a, BriefRule a → (compile { d with rules := [a] } o).1 = .ok (own a)
  errors : res.errors = d.rules.flatMap fun a => (own a).errors
  warnings : res.warnings = d.rules.flatMap fun a => (own a).warnings
  /-- A rule has policies, which are there in the end, if and only if it has no error. -/
  policies : ∀ {i : Nat} {a : AccessRule}, d.rules[i]? = some a → ∃ r : Rule, (compile d o).2.book[i]? = some r ∧
    (r.policyKeys ≠ [] ↔ (own a).errors = []) ∧
    ∀ k ∈ r.policyKeys, ∃ x, (compile d o).2.graph.policies.get? k = some x ∧ x.ruleIndex = a.index
  /-- There is no policy that no rule has. -/
  noted : ∀ {k x}, (compile d o).2.graph.policies.get? k = some x → ∃ r ∈ (compile d o).2.book, k ∈ r.policyKeys
  /-- An empty side and a malformed token are one error each. -/
  unread : ∀ a, BriefRule a → Unreadable a.sources ∨ Unreadable a.destinations →
    (own a).errors = tagged a.index (unreadable .source a.sources ++ unreadable .destination a.destinations)

theorem composed_of_compile (ht : Tables d o m declared) (ho : o.ruleDebug = false) {res : Result}
    (h : (compile d o).1 = .ok res) : ∃ own, Composed d o res own := by
  have hc := (compile_spec ht h).1
  have hb := hc.brief
  have halone : ∀ a, Tables { d with rules := [a] } o m declared := fun a => ⟨ht.membership, ht.tags⟩
  have hexists : ∀ a, ∃ own, BriefRule a → (compile { d with rules := [a] } o).1 = .ok own := by
    intro a
    by_cases hba : BriefRule a
    · obtain ⟨own, hown⟩ := (compile_ok_iff (halone a) (textual_of_quiet ho)).mpr (List.forall_mem_singleton.mpr hba)
      exact ⟨own, fun _ => hown⟩
    · exact ⟨res, fun hba' => absurd hba' hba⟩
  choose own hown using hexists
  have hpass : ∀ a, BriefRule a → ((own a).errors = [] ↔ passes (verdictOf m declared a).complaints = true) := by
    intro a hba
    rw [errors_eq_nil_iff (halone a) (hown a hba)]
    exact List.forall_mem_singleton
  refine ⟨own, hown, ?_, ?_, fun {i a} ha => ?_, fun {k x} hx => ?_, fun a hba ha => ?_⟩
  · rw [errors_eq ht h]
    exact filter_entries_rulewise ht hb ho fun a hba => errors_eq (halone a) (hown a hba)
  · rw [warnings_eq ht h]
    exact filter_entries_rulewise ht hb ho fun a hba => warnings_eq (halone a) (hown a hba)
  · obtain ⟨r, hr, -, hkeys⟩ := book_noted ht hb ho ha
    have hba := hb a (List.mem_of_getElem? ha)
    refine ⟨r, hr, ?_, fun k hk => ?_⟩
    · rw [hpass a hba, hkeys]
      by_cases hp : passes (verdictOf m declared a).complaints = true
      · rw [if_pos hp, ne_eq, ← List.length_eq_zero_iff, length_storedKeys, List.length_eq_zero_iff]
        exact iff_of_true (edgesOf_ne_nil (Membership.ofNames_of_ofTable ht.membership) hba hp) hp
      · rw [if_neg hp]
        exact iff_of_false (fun hne => hne rfl) hp
    · rw [hkeys] at hk
      split at hk
      · rename_i hp
        exact hc.policy_of_noted ha hp hk
      · cases hk
  · rw [hc.get?_policies] at hx
    obtain ⟨i, a, ha, hp, hk⟩ := exists_noted hx
    obtain ⟨r, hr, -, hkeys⟩ := book_noted ht hb ho ha
    refine ⟨r, List.mem_of_getElem? hr, ?_⟩
    rw [hkeys, if_pos hp]
    exact hk
  · rw [errors_eq (halone a) (hown a hba), Journal.errors, entries_alone ht ho hba]
    exact errors_of_unreadable hba ha

/-- Without logging, a compilation fails if the reading of a token stops, which takes a number of
    too many digits in a text. Otherwise it has a result and is the compilations of its rules. -/
theorem compile_composed (ht : Tables d o m declared) (ho : o.ruleDebug = false) :
    ((∃ res, (compile d o).1 = .ok res) ↔ ∀ a ∈ d.rules, ∀ t ∈ a.sources ++ a.destinations, ¬ Endless t) ∧
    ((∃ a ∈ d.rules, ∃ t ∈ a.sources ++ a.destinations, Endless t) → (compile d o).1 = .error .notAPort) ∧
    (∀ s, Endless (.text s) → ¬ ShortNumbers s.toList) ∧
    ∀ res, (compile d o).1 = .ok res → ∃ own, Composed d o res own := by
  have hbrief : BriefRules d ↔ ∀ a ∈ d.rules, ∀ t ∈ a.sources ++ a.destinations, ¬ Endless t :=
    forall₂_congr fun a _ => briefRule_iff
  refine ⟨(compile_ok_iff ht (textual_of_quiet ho)).trans hbrief, ?_, fun s hs => Overlong.not_short hs,
    fun res => composed_of_compile ht ho⟩
  rintro ⟨a, ha, t, hmem, hendless⟩
  obtain ⟨e, he, hfailure⟩ := compile_fails (o := o) ht fun hb => hbrief.mp hb a ha t hmem hendless
  rw [he, hfailure (textual_of_quiet ho)]

def garbled : AccessRule :=
  { index := 4, action := .accept, sources := [],
    destinations := [.text "tag:", .text "tag:b", .text "10.0.0.1/33", .text "tag:"] }

def legible : AccessRule := { garbled with index := 3, sources := [.text "tag:s"], destinations := [.text "tag:b"] }

theorem composed_of_garbled : ∃ res own, (compile { rules := [legible, garbled] }).1 = .ok res ∧
    Composed { rules := [legible, garbled] } {} res own ∧
    (own garbled).errors.map Diagnostic.token = [none, some "tag:", some "10.0.0.1/33", some "tag:"] := by
  have ht : Tables { rules := [legible, garbled] } {} noGroups [] := ⟨rfl, rfl⟩
  have hb : ∀ a ∈ [legible, garbled], BriefRule a := by decide +kernel
  obtain ⟨hok, -, -, hcomposed⟩ := compile_composed ht rfl
  obtain ⟨res, h⟩ := hok.mpr fun a ha => briefRule_iff.mp (hb a ha)
  obtain ⟨own, hc⟩ := hcomposed res h
  refine ⟨res, own, h, hc, ?_⟩
  rw [hc.unread garbled (hb garbled (by simp)) (.inl (.inl rfl))]
  decide +kernel

def longPort (length : Nat) : AccessRule :=
  { legible with sources := [.text (String.ofList (Classify.marker .tag ++ (['a'] ++ ':' :: List.replicate length '9')))] }

theorem fails_of_longPort {n : Nat} (h : Number.longest < n) (rules : List AccessRule) :
    (compile { rules := longPort n :: rules }).1 = .error .notAPort := by
  have ht : Tables { rules := longPort n :: rules } {} noGroups [] := ⟨rfl, rfl⟩
  have hendless := overlong_of_nines .tag (List.cons_ne_nil 'a' []) (by decide) h
  obtain ⟨e, he, hfailure⟩ := compile_fails (o := {}) ht fun hb =>
    briefRule_iff.mp (hb (longPort n) List.mem_cons_self) _ List.mem_cons_self hendless
  rw [he, hfailure nofun]

/-- A rule without sources has an error of its own, but none where another rule has a port of
    4301 digits. -/
theorem a_long_port_hides_an_error :
    Tables { rules := [longPort 4301, garbled] } {} noGroups [] ∧
    (compile { rules := [longPort 4301, garbled] }).1 = .error .notAPort ∧
    ∃ res, (compile { rules := [garbled] }).1 = .ok res ∧ res.errors ≠ [] := by
  have ht : Tables { rules := [garbled] } {} noGroups [] := ⟨rfl, rfl⟩
  have hb : BriefRule garbled := by decide +kernel
  obtain ⟨res, h⟩ := (compile_ok_iff (o := {}) ht nofun).mpr (List.forall_mem_singleton.mpr hb)
  refine ⟨⟨rfl, rfl⟩, fails_of_longPort (by decide) _, res, h, fun hnone => ?_⟩
  have hpass := (errors_eq_nil_iff ht h).mp hnone garbled List.mem_cons_self
  rw [complaints_of_unreadable hb (.inl (.inl rfl))] at hpass
  exact absurd hpass (by decide +kernel)

end Portcullis.Compiler
