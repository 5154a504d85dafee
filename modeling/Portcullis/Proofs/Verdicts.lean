/-
  Portcullis.Proofs.Verdicts — what each stage makes of one rule, in one equation.

  A verdict that does not fail is told by the endpoints that were put into a side and by the
  complaints (`Tells`); the rule goes on unless one of the complaints is an error. None of the
  stages fails on a rule whose port restrictions are in normal form, given a group table; only
  reading the tokens does, where one of them makes it stop (`halts`):
  - `classified_eq`: the slots hold the readable tokens, each unreadable one is an error.
  - `classified_halts`: unless the reading stops.
  - `checked_eq`: the rule is as before, each endpoint is looked up.
  - `originated_eq`: the sources hold the origins, and there are warnings only.
  - `expanded_eq`: both slots hold what the references stand for, without complaints.
-/

import Portcullis.Compiler.Verdict
import Portcullis.Proofs.Slots

namespace Portcullis

namespace Rule

@[simp] theorem slot_withSlot (r : Rule) (side : Side) (slot : Slot) : (r.withSlot side slot).slot side = slot := by
  cases side <;> rfl

@[simp] theorem withSlot_withSlot (r : Rule) (side : Side) (a b : Slot) :
    (r.withSlot side a).withSlot side b = r.withSlot side b := by
  cases side <;> rfl

@[simp] theorem tokens_withSlot (r : Rule) (side other : Side) (slot : Slot) :
    (r.withSlot side slot).tokens other = r.tokens other := by
  cases side <;> cases other <;> rfl

def written (r : Rule) : AccessRule :=
  { index := r.index, action := r.action, sources := r.sourceTokens, destinations := r.destinationTokens,
    protocol := r.protocol }

@[simp] theorem written_ofAccessRule (r : AccessRule) : (ofAccessRule r).written = r := rfl

/-- A rule that differs from another in the slot of a side, which holds a list of endpoints. -/
def Filled (side : Side) (r : Rule) (es : List Endpoint) (r' : Rule) : Prop :=
  ∃ slot : Slot, slot.Holds es ∧ r' = r.withSlot side slot

end Rule

namespace Compiler

def passes (cs : List Complaint) : Bool := cs.all fun c => decide (c.severity ≠ .error)

@[simp] theorem passes_nil : passes [] = true := rfl

@[simp] theorem passes_append (cs ds : List Complaint) : passes (cs ++ ds) = (passes cs && passes ds) :=
  List.all_append

theorem flatMap_nothing {α β : Type} (xs : List α) : (xs.flatMap fun _ => ([] : List β)) = [] := by
  simp

namespace Verdict

/-- A verdict after some endpoints: its rule is what `P` warns of them, its complaints are
    known, and the rule goes on unless one of them is an error. -/
structure Tells (P : List Endpoint → Rule → Prop) (v : Verdict) (es : List Endpoint) (cs : List Complaint) : Prop where
  rule : P es v.rule
  complaints : v.complaints = cs
  outcome : v.outcome = .ok (passes cs)

variable {P : List Endpoint → Rule → Prop} {v : Verdict} {es : List Endpoint} {cs : List Complaint}

theorem Tells.reject (h : Tells P v es cs) {c : Complaint} (hc : c.severity = .error) :
    Tells P (v.reject c) es (cs ++ [c]) where
  rule := h.rule
  complaints := by simp [Verdict.reject, h.complaints]
  outcome := by simp [Verdict.reject, passes, hc]

theorem Tells.warn (h : Tells P v es cs) {c : Complaint} (hc : c.severity = .warning) :
    Tells P (v.warn c) es (cs ++ [c]) where
  rule := h.rule
  complaints := by simp [Verdict.warn, h.complaints]
  outcome := by simp [Verdict.warn, h.outcome, passes, hc]

theorem Tells.add {side : Side} {r : Rule} (h : Tells (Rule.Filled side r) v es cs) {e : Endpoint}
    (hc : Ports.Canonical e.ports) : Tells (Rule.Filled side r) (v.add side e) (es ++ [e]) cs := by
  obtain ⟨slot, hs, hr⟩ := h.rule
  obtain ⟨slot', hadd, hs'⟩ := Slot.holds_add hs hc
  have hrule : v.rule.add? side e = some (r.withSlot side slot') := by
    simp [Rule.add?, hr, hadd]
  unfold Verdict.add
  rw [hrule]
  exact ⟨⟨slot', hs', rfl⟩, h.complaints, h.outcome⟩

/-- A list is worked through to its end when no step fails. -/
theorem Tells.each {α : Type} (h : Tells P v es cs) (f : Verdict → α → Verdict) (gives : α → List Endpoint)
    (warns : α → List Complaint) (xs : List α)
    (hf : ∀ x ∈ xs, ∀ {v es cs}, Tells P v es cs → Tells P (f v x) (es ++ gives x) (cs ++ warns x)) :
    Tells P (v.each xs f) (es ++ xs.flatMap gives) (cs ++ xs.flatMap warns) := by
  induction xs generalizing v es cs with
  | nil => simpa [Verdict.each] using h
  | cons x xs ih =>
    have hone : v.unlessFailed (f · x) = f v x := by simp only [unlessFailed, h.outcome]
    have hx := hf x (by simp) h
    have hrest := ih hx fun y hy => hf y (by simp [hy])
    simpa only [Verdict.each, List.foldl_cons, hone, List.flatMap_cons, List.append_assoc] using hrest

theorem each_of_failed {α : Type} {e : Failure} (h : v.outcome = .error e) (xs : List α) (f : Verdict → α → Verdict) :
    v.each xs f = v := by
  induction xs with
  | nil => rfl
  | cons x xs ih =>
    have hone : v.unlessFailed (f · x) = v := by simp only [unlessFailed, h]
    simpa only [Verdict.each, List.foldl_cons, hone] using ih

/-- A list is not worked through to its end when a step fails. -/
theorem Tells.each_fails {α : Type} (h : Tells P v es cs) (f : Verdict → α → Verdict) (gives : α → List Endpoint)
    (warns : α → List Complaint) {bad : α → Prop} {e : Failure} {xs : List α}
    (hf : ∀ x ∈ xs, ¬ bad x → ∀ {v es cs}, Tells P v es cs → Tells P (f v x) (es ++ gives x) (cs ++ warns x))
    (hbad : ∀ x, bad x → ∀ v, (f v x).outcome = .error e) (hx : ∃ x ∈ xs, bad x) :
    (v.each xs f).outcome = .error e := by
  induction xs generalizing v es cs with
  | nil => simp at hx
  | cons x xs ih =>
    have hone : v.unlessFailed (f · x) = f v x := by simp only [unlessFailed, h.outcome]
    have hstep : v.each (x :: xs) f = (f v x).each xs f := by simp only [Verdict.each, List.foldl_cons, hone]
    rw [hstep]
    by_cases hbadx : bad x
    · rw [each_of_failed (hbad x hbadx v)]
      exact hbad x hbadx v
    · obtain ⟨y, hy, hbady⟩ := hx
      have hy := (List.mem_cons.mp hy).resolve_left fun heq => hbadx (heq ▸ hbady)
      exact ih (hf x (by simp) hbadx h) (fun z hz => hf z (by simp [hz])) ⟨y, hy, hbady⟩

/-- Judging both sides of a rule when neither fails. -/
theorem ofBothSides_eq {f : Side → Rule → Verdict} {r : Rule} {Q : List Endpoint → Rule → Prop}
    {ds : List Endpoint} {cs' : List Complaint} (h : Tells P (f .source r) es cs)
    (h' : Tells Q (f .destination (f .source r).rule) ds cs') :
    ofBothSides f r =
      ⟨(f .destination (f .source r).rule).rule, cs ++ cs', .ok (passes (cs ++ cs'))⟩ := by
  simp only [ofBothSides, h.outcome, h'.outcome, h.complaints, h'.complaints, passes_append]
  rfl

end Verdict

open Verdict

/-! ## Reading tokens -/

/-- Whether a reading stops, and nothing is said of what was read. -/
def halts {α : Type} : Except Unclassified α → Bool
  | .ok _ => false
  | .error u => !u.cause.isReported

theorem halts_eq_true_iff {α : Type} {x : Except Unclassified α} :
    halts x = true ↔ ∃ u, x = .error u ∧ u.cause.isReported = false := by
  cases x <;> simp [halts]

theorem halts_map {α β : Type} (f : α → β) (x : Except Unclassified α) : halts (x.map f) = halts x := by
  cases x <;> rfl

/-- Whether the reading of no token stops. -/
def Brief (ts : List Value) : Prop := ∀ t ∈ ts, halts (classify t) = false

instance (ts : List Value) : Decidable (Brief ts) := inferInstanceAs (Decidable (∀ t ∈ ts, halts (classify t) = false))

def endpointOf (t : Value) : List Endpoint :=
  match classify t with
  | .ok e => [e]
  | .error _ => []

def faultOf (t : Value) : List Complaint :=
  match classify t with
  | .ok _ => []
  | .error u => [malformed u]

def readable (ts : List Value) : List Endpoint := ts.flatMap endpointOf

def unreadable (side : Side) (ts : List Value) : List Complaint :=
  if ts = [] then [noTokens side] else ts.flatMap faultOf

theorem mem_readable {ts : List Value} {e : Endpoint} : e ∈ readable ts ↔ ∃ t ∈ ts, classify t = .ok e := by
  have hone : ∀ t, e ∈ endpointOf t ↔ classify t = .ok e := by
    intro t
    unfold endpointOf
    cases classify t with
    | ok d => simp [eq_comm]
    | error u => simp
  simp only [readable, List.mem_flatMap, hone]

theorem canonical_of_classify {t : Value} {e : Endpoint} (h : classify t = .ok e) : Ports.Canonical e.ports := by
  obtain ⟨s, -, -, -, ⟨space, body, -, hnamed⟩ | ⟨-, hblock⟩⟩ := classify_eq_ok_iff.mp h
  · obtain ⟨-, ports, hports, rfl⟩ := Classify.named_eq_ok_iff.mp hnamed
    exact Ports.canonical_of_parse? hports
  · obtain ⟨-, ports, b, hports, -, rfl⟩ := Classify.block_eq_ok_iff.mp hblock
    exact Ports.canonical_of_parse? hports

theorem classifiedSide_start {side : Side} {r : Rule} (hr : r.slot side = ∅) :
    Tells (Rule.Filled side r) { rule := r } [] [] :=
  ⟨⟨∅, Slot.holds_empty, by cases side <;> (cases r; simp_all [Rule.withSlot, Rule.slot])⟩, rfl, rfl⟩

theorem classifyToken_tells {side : Side} {r : Rule} {v : Verdict} {es : List Endpoint} {cs : List Complaint}
    (hv : Tells (Rule.Filled side r) v es cs) {t : Value} (ht : halts (classify t) = false) :
    Tells (Rule.Filled side r) (classifyToken side v t) (es ++ endpointOf t) (cs ++ faultOf t) := by
  unfold classifyToken endpointOf faultOf
  cases hc : classify t with
  | error u =>
    rw [hc, halts, Bool.not_eq_false'] at ht
    simpa [hc, ht] using hv.reject rfl
  | ok e => simpa [hc] using hv.add (canonical_of_classify hc)

theorem classifiedSide_tells (side : Side) (r : Rule) (hr : r.slot side = ∅) (hb : Brief (r.tokens side)) :
    Tells (Rule.Filled side r) (classifiedSide side r) (readable (r.tokens side)) (unreadable side (r.tokens side)) := by
  unfold classifiedSide unreadable
  split
  · rename_i h0
    rw [h0]
    exact (classifiedSide_start hr).reject rfl
  · exact (classifiedSide_start hr).each _ _ _ _ fun t ht {v es cs} hv => classifyToken_tells hv (hb t ht)

/-- The first token that makes the reading stop is not passed. -/
theorem classifiedSide_halts (side : Side) (r : Rule) (hr : r.slot side = ∅) (hb : ¬ Brief (r.tokens side)) :
    (classifiedSide side r).outcome = .error .notAPort := by
  have hsome : ∃ t ∈ r.tokens side, halts (classify t) = true := by simpa [Brief] using hb
  have hne : r.tokens side ≠ [] := fun h => by simp [h] at hsome
  unfold classifiedSide
  rw [if_neg hne]
  refine (classifiedSide_start hr).each_fails _ endpointOf faultOf (fun t _ ht {v es cs} hv => ?_) (fun t ht v => ?_) hsome
  · exact classifyToken_tells hv (Bool.eq_false_iff.mpr ht)
  · unfold classifyToken
    cases hc : classify t with
    | error u =>
      rw [hc, halts, Bool.not_eq_true'] at ht
      simp [ht, Verdict.fail]
    | ok e =>
      rw [hc] at ht
      cases ht

/-- Reading the tokens of a rule that has no endpoints yet. -/
theorem classified_eq (r : Rule) (hs : r.sources = ∅) (hd : r.destinations = ∅) (hb : ∀ side, Brief (r.tokens side)) :
    ∃ s d : Slot, s.Holds (readable r.sourceTokens) ∧ d.Holds (readable r.destinationTokens) ∧
      classified r =
        let cs := unreadable .source r.sourceTokens ++ unreadable .destination r.destinationTokens
        ⟨{ r with sources := s, destinations := d }, cs, .ok (passes cs)⟩ := by
  have h := classifiedSide_tells .source r hs (hb .source)
  obtain ⟨s, hsl, hrule⟩ := h.rule
  have h' := classifiedSide_tells .destination (classifiedSide .source r).rule (by rw [hrule]; exact hd)
    (by rw [hrule]; exact hb .destination)
  obtain ⟨d, hdl, hrule'⟩ := h'.rule
  rw [hrule, Rule.tokens_withSlot] at h' hdl
  refine ⟨s, d, hsl, hdl, ?_⟩
  unfold classified
  rw [ofBothSides_eq h (by rw [hrule]; exact h'), hrule', hrule]
  rfl

/-- Reading the tokens of a rule fails where one of them makes it stop. -/
theorem classified_halts (r : Rule) (hs : r.sources = ∅) (hd : r.destinations = ∅)
    (hb : ∃ side, ¬ Brief (r.tokens side)) : (classified r).outcome = .error .notAPort := by
  unfold classified ofBothSides
  by_cases hsource : Brief (r.tokens .source)
  · have hdestination : ¬ Brief (r.tokens .destination) := by
      obtain ⟨side, hb⟩ := hb
      cases side with
      | source => exact absurd hsource hb
      | destination => exact hb
    have h := classifiedSide_tells .source r hs hsource
    obtain ⟨s, -, hrule⟩ := h.rule
    have h' := classifiedSide_halts .destination (classifiedSide .source r).rule (by rw [hrule]; exact hd)
      (by rw [hrule]; exact hdestination)
    simp only [h.outcome, h', Except.map]
  · simp only [classifiedSide_halts .source r hs hsource]

/-! ## Looking references up -/

def lookUp (m : Membership) (declared : List String) (e : Endpoint) : List Complaint :=
  match e.target with
  | .block _ _ _ => []
  | .named .tag name => if !declared.isEmpty && !declared.contains name then [unownedTag name e.token] else []
  | .named .group _ => match m.require e with
    | .ok _ => []
    | .error missing => [undefinedGroup missing]

theorem checkedSide_tells (m : Membership) (declared : List String) (side : Side) (r : Rule) :
    Tells (fun _ r' => r' = r)
      (({ rule := r } : Verdict).each (r.slot side).values (checkEndpoint (some m) declared)) []
      ((r.slot side).values.flatMap (lookUp m declared)) := by
  have hstart : Tells (fun _ r' => r' = r) { rule := r } [] [] := ⟨rfl, rfl, rfl⟩
  have h := hstart.each (checkEndpoint (some m) declared) (fun _ => []) (lookUp m declared) (r.slot side).values
    fun e _ {v es cs} hv => by
      obtain ⟨t, p, token⟩ := e
      rw [List.append_nil]
      rcases t with ⟨space, name⟩ | ⟨role, name, address⟩
      · cases space with
        | tag =>
          simp only [checkEndpoint, lookUp]
          split
          · exact hv.warn rfl
          · simpa using hv
        | group =>
          simp only [checkEndpoint, lookUp]
          cases m.require ⟨.named .group name, p, token⟩ with
          | ok u => simpa using hv
          | error missing => exact hv.reject rfl
      · simpa [checkEndpoint, lookUp] using hv
  simpa [flatMap_nothing] using h

/-- Looking up leaves the rule as it is. -/
theorem checked_eq (m : Membership) (declared : List String) (r : Rule) :
    checked (some m) declared r =
      let cs := r.sources.values.flatMap (lookUp m declared) ++ r.destinations.values.flatMap (lookUp m declared)
      ⟨r, cs, .ok (passes cs)⟩ := by
  have h := checkedSide_tells m declared .source r
  have hrule := h.rule
  have h' := checkedSide_tells m declared .destination r
  unfold checked
  rw [ofBothSides_eq (f := fun side r => ({ rule := r } : Verdict).each (r.slot side).values
    (checkEndpoint (some m) declared)) h (by rw [hrule]; exact h')]
  simp only [hrule, h'.rule]
  rfl

/-! ## Origins -/

def portWarning (e : Endpoint) : List Complaint := if e.ports = none then [] else [uselessPorts e.token]

theorem ports_asOrigin (e : Endpoint) : (asOrigin e).ports = none := by
  obtain ⟨t, p, s⟩ := e
  cases t <;> rfl

theorem portWarnings_pass (es : List Endpoint) : passes (es.flatMap portWarning) = true := by
  simp only [passes, List.all_flatMap, List.all_eq_true]
  intro e _
  unfold portWarning
  split <;> simp [uselessPorts]

theorem originated_eq (r : Rule) :
    ∃ s : Slot, s.Holds (r.sources.values.map asOrigin) ∧
      originated r = ⟨{ r with sources := s }, r.sources.values.flatMap portWarning, .ok true⟩ := by
  have hstart : Tells (Rule.Filled .source r) { rule := r.withSlot .source ∅ } [] [] :=
    ⟨⟨∅, Slot.holds_empty, rfl⟩, rfl, rfl⟩
  have h := hstart.each originate (fun e => [asOrigin e]) portWarning r.sources.values
    fun e _ {v es cs} hv => by
      have hc : Ports.Canonical (asOrigin e).ports := by rw [ports_asOrigin]; exact Ports.canonical_none
      unfold originate portWarning
      split
      · simpa using hv.add hc
      · exact (hv.warn rfl).add hc
  obtain ⟨s, hs, hrule⟩ := h.rule
  refine ⟨s, by simpa [List.map_eq_flatMap] using hs, ?_⟩
  have hc := h.complaints
  have ho := h.outcome
  simp only [List.nil_append] at hc ho
  rw [portWarnings_pass] at ho
  unfold originated
  generalize Verdict.each _ _ _ = w at *
  obtain ⟨wr, wc, wo⟩ := w
  simp only at hrule hc ho
  subst hrule hc ho
  rfl

/-! ## Expanding references -/

def expansion (m : Membership) (e : Endpoint) : List Endpoint :=
  match e.target with
  | .block _ _ _ => [e]
  | .named _ _ => m.expand e

theorem ports_of_mem_expansion {m : Membership} {e x : Endpoint} (h : x ∈ expansion m e) : x.ports = e.ports := by
  unfold expansion at h
  split at h
  · rw [List.mem_singleton.mp h]
  · exact Membership.ports_of_mem_expand h

theorem expandedSide_tells (m : Membership) (side : Side) (r : Rule)
    (hc : ∀ e ∈ (r.slot side).values, Ports.Canonical e.ports) :
    Tells (Rule.Filled side r)
      (({ rule := r.withSlot side ∅ } : Verdict).each (r.slot side).values (expandEndpoint (some m) side))
      ((r.slot side).values.flatMap (expansion m)) [] := by
  have hstart : Tells (Rule.Filled side r) { rule := r.withSlot side ∅ } [] [] :=
    ⟨⟨∅, Slot.holds_empty, rfl⟩, rfl, rfl⟩
  have h := hstart.each (expandEndpoint (some m) side) (expansion m) (fun _ => []) (r.slot side).values
    fun e he {v es cs} hv => by
      have hx : ∀ x ∈ expansion m e, Ports.Canonical x.ports := by
        intro x hx
        rw [ports_of_mem_expansion hx]; exact hc e he
      obtain ⟨t, p, token⟩ := e
      rw [List.append_nil]
      rcases t with ⟨space, name⟩ | ⟨role, name, address⟩
      · have := hv.each (·.add side ·) (fun x => [x]) (fun _ => []) (m.expand ⟨.named space name, p, token⟩)
          fun x hmem {v es cs} hv => by simpa using hv.add (hx x hmem)
        simpa [flatMap_nothing, expandEndpoint, expansion] using this
      · exact hv.add (hc _ he)
  simpa [flatMap_nothing] using h

/-- Expanding never complains. -/
theorem expanded_eq (m : Membership) (r : Rule) (hs : ∀ e ∈ r.sources.values, Ports.Canonical e.ports)
    (hd : ∀ e ∈ r.destinations.values, Ports.Canonical e.ports) :
    ∃ s d : Slot, s.Holds (r.sources.values.flatMap (expansion m)) ∧
      d.Holds (r.destinations.values.flatMap (expansion m)) ∧
      expanded (some m) r = ⟨{ r with sources := s, destinations := d }, [], .ok true⟩ := by
  have h := expandedSide_tells m .source r hs
  obtain ⟨s, hsl, hrule⟩ := h.rule
  have h' := expandedSide_tells m .destination (r.withSlot .source s) hd
  obtain ⟨d, hdl, hrule'⟩ := h'.rule
  refine ⟨s, d, hsl, hdl, ?_⟩
  unfold expanded
  rw [ofBothSides_eq (f := fun side r => ({ rule := r.withSlot side ∅ } : Verdict).each (r.slot side).values
    (expandEndpoint (some m) side)) h (by rw [hrule]; exact h')]
  simp only [hrule, hrule']
  rfl

end Compiler

end Portcullis
