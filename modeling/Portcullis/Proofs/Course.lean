/-
  Portcullis.Proofs.Course — what becomes of one rule on its way to the graph.

  The stages up to expansion judge one rule after another and know nothing of each other, so
  what they make of a rule is a function of the rule (`course`). The rule goes on to the graph
  unless something is an error, and is then `Settled`: merging the tokens of a side by key,
  making origins of them, and merging again what they expand to comes to the same as one
  union over the tokens that cover a key.
-/

import Portcullis.Proofs.Expansion
import Portcullis.Proofs.Frame

namespace Portcullis

namespace Slot

open Compiler

variable {slot slot' : Slot} {es : List Endpoint} {m : Membership}

theorem Holds.lawful (h : slot.Holds es) (hl : ∀ e ∈ es, e.target.Lawful) {k : String} {x : Endpoint}
    (hx : slot.get? k = some x) : x.target.Lawful := by
  obtain ⟨e, he, ht, -⟩ := h.first hx
  rw [ht]
  exact hl e (firstOf_some he).1

/-- The value under the key of an endpoint that was added. -/
theorem Holds.exists_value (h : slot.Holds es) {e : Endpoint} (he : e ∈ es) :
    ∃ x ∈ slot.values, x.key = e.key ∧ slot.get? e.key = some x := by
  obtain ⟨x, hx⟩ := Table.mem_keys_iff.mp (h.mem_keys.mpr ⟨e, he, rfl⟩)
  have hk := h.key hx
  exact ⟨x, h.mem_values.mpr (by rw [hk]; exact hx), hk, hx⟩

/-- Each value comes from an endpoint of its key. -/
theorem Holds.exists_added (h : slot.Holds es) {x : Endpoint} (hx : x ∈ slot.values) :
    ∃ e ∈ es, e.key = x.key ∧ x.target = e.target := by
  obtain ⟨e, he, ht, -⟩ := h.first (h.mem_values.mp hx)
  exact ⟨e, (firstOf_some he).1, (firstOf_some he).2, ht⟩

theorem Holds.canonical_value (h : slot.Holds es) : ∀ x ∈ slot.values, Ports.Canonical x.ports :=
  fun _ hx => h.canonical (h.mem_values.mp hx)

theorem Holds.lawful_value (h : slot.Holds es) (hl : ∀ e ∈ es, e.target.Lawful) :
    ∀ x ∈ slot.values, x.target.Lawful :=
  fun _ hx => h.lawful hl (h.mem_values.mp hx)

theorem Holds.lawful_origins (h : slot.Holds es) (hl : ∀ e ∈ es, e.target.Lawful) :
    ∀ e ∈ slot.values.map asOrigin, e.target.Lawful := by
  intro e he
  obtain ⟨x, hx, rfl⟩ := List.mem_map.mp he
  exact lawful_asOrigin (h.lawful_value hl x hx)

/-- Expanding the merged endpoints covers what the endpoints themselves cover. -/
theorem Holds.mem_keys_expanded (h : slot.Holds es) (h' : slot'.Holds (slot.values.flatMap (expansion m)))
    {k : String} :
    k ∈ slot'.keys ↔ ∃ e ∈ es, Covers m e k := by
  rw [h'.mem_keys]
  constructor
  · intro hex
    rcases hex with ⟨y, hy, rfl⟩
    obtain ⟨x, hx, hyx⟩ := List.mem_flatMap.mp hy
    obtain ⟨e, he, hk, -⟩ := h.exists_added hx
    exact ⟨e, he, (covers_congr hk _).mpr (covers_iff.mpr ⟨y, hyx, rfl⟩)⟩
  · intro hex
    rcases hex with ⟨e, he, hc⟩
    obtain ⟨x, hx, hk, -⟩ := h.exists_value he
    obtain ⟨y, hy, rfl⟩ := covers_iff.mp ((covers_congr hk k).mpr hc)
    exact ⟨y, List.mem_flatMap.mpr ⟨x, hx, hy⟩, rfl⟩

/-- Merging twice is one union: under a key stands what the endpoints that cover it allow. -/
theorem Holds.allows_expanded (h : slot.Holds es) (h' : slot'.Holds (slot.values.flatMap (expansion m)))
    {k : String}
    {y : Endpoint} (hy : slot'.get? k = some y) (t : String) :
    Ports.Allows y.ports t ↔ ∃ e ∈ es, Covers m e k ∧ Ports.Allows e.ports t := by
  rw [h'.allows hy]
  constructor
  · intro hex
    rcases hex with ⟨z, hz, hk, ht⟩
    obtain ⟨x, hx, hzx⟩ := List.mem_flatMap.mp hz
    rw [ports_of_mem_expansion hzx, h.allows (h.mem_values.mp hx)] at ht
    obtain ⟨e, he, hek, ht⟩ := ht
    exact ⟨e, he, (covers_congr hek k).mpr (covers_iff.mpr ⟨z, hzx, hk⟩), ht⟩
  · intro hex
    rcases hex with ⟨e, he, hc, ht⟩
    obtain ⟨x, hx, hk, hget⟩ := h.exists_value he
    obtain ⟨z, hz, hzk⟩ := covers_iff.mp ((covers_congr hk k).mpr hc)
    refine ⟨z, List.mem_flatMap.mpr ⟨x, hx, hz⟩, hzk, ?_⟩
    rw [ports_of_mem_expansion hz, h.allows hget]
    exact ⟨e, he, rfl, ht⟩

end Slot

namespace Compiler

/-- Origins of endpoints of one key have one key. -/
theorem key_asOrigin_congr {e d : Endpoint} (h : e.key = d.key) : (asOrigin e).key = (asOrigin d).key := by
  obtain ⟨hk, hn⟩ := Target.key_eq_iff.mp h
  obtain ⟨t, p, s⟩ := e
  obtain ⟨u, q, s'⟩ := d
  cases t with
  | named space name =>
    cases u with
    | named space' name' => exact h
    | block role n a => cases role <;> cases hk
  | block role n a =>
    cases u with
    | named space' name' => cases role <;> cases hk
    | block role' n' a' =>
      have hn : n = n' := hn
      subst hn
      rfl

/-- One verdict after another, as long as the rule goes on. -/
def Verdict.andThen (v : Verdict) (f : Rule → Verdict) : Verdict :=
  match v.outcome with
  | .ok true => { f v.rule with complaints := v.complaints ++ (f v.rule).complaints }
  | _ => v

/-- What the stages up to expansion make of a rule. -/
def course (m : Membership) (declared : List String) (r : Rule) : Verdict :=
  (classified r).andThen fun r => (checked (some m) declared r).andThen fun r =>
    (originated r).andThen (expanded (some m))

theorem frame_andThen {v : Verdict} {f : Rule → Verdict} (h : ∀ r, (f r).rule.frame = r.frame) :
    (v.andThen f).rule.frame = v.rule.frame := by
  unfold Verdict.andThen
  split
  · exact h v.rule
  · rfl

/-- A rule keeps its frame on its course, also where that fails. -/
theorem frame_course (m : Membership) (declared : List String) (r : Rule) : (course m declared r).rule.frame = r.frame :=
  (frame_andThen fun r => (frame_andThen fun r => (frame_andThen (frame_expanded (some m))).trans
    (frame_originated r)).trans (frame_checked (some m) declared r)).trans (frame_classified r)

structure Fresh (r : Rule) : Prop where
  sources : r.sources = ∅
  destinations : r.destinations = ∅

theorem fresh_ofAccessRule (r : AccessRule) : Fresh (Rule.ofAccessRule r) := ⟨rfl, rfl⟩

structure Tractable (r : Rule) : Prop extends Fresh r where
  brief : ∀ side, Brief (r.tokens side)

def BriefRule (a : AccessRule) : Prop := Brief a.sources ∧ Brief a.destinations

instance (a : AccessRule) : Decidable (BriefRule a) := inferInstanceAs (Decidable (_ ∧ _))

theorem tractable_ofAccessRule {a : AccessRule} (h : BriefRule a) : Tractable (Rule.ofAccessRule a) where
  toFresh := fresh_ofAccessRule a
  brief
    | .source => h.1
    | .destination => h.2

/-- What a rule has become when it reaches the graph, told by its tokens: nothing but the
    slots has changed. -/
structure Settled (m : Membership) (r r' : Rule) : Prop where
  same : r' = { r with sources := r'.sources, destinations := r'.destinations }
  mem_sources : ∀ k, k ∈ r'.sources.keys ↔ ∃ e ∈ readable r.sourceTokens, Covers m (asOrigin e) k
  mem_destinations : ∀ k, k ∈ r'.destinations.keys ↔ ∃ e ∈ readable r.destinationTokens, Covers m e k
  canonical : ∀ x ∈ r'.destinations.values, Ports.Canonical x.ports
  allows : ∀ x ∈ r'.destinations.values, ∀ t, Ports.Allows x.ports t ↔
    ∃ e ∈ readable r.destinationTokens, Covers m e x.key ∧ Ports.Allows e.ports t
  keyed : ∀ side {k x}, (r'.slot side).get? k = some x → x.key = k
  lawful : ∀ side, ∀ x ∈ (r'.slot side).values, x.target.Lawful

/-- The keys of a side, one by one. -/
theorem map_key_values {m : Membership} {r r' : Rule} (h : Settled m r r') (side : Side) :
    (r'.slot side).values.map Endpoint.key = (r'.slot side).keys := by
  unfold Table.values Table.keys
  rw [List.map_map]
  apply List.map_congr_left
  intro p hp
  exact h.keyed side (Table.get?_eq_some_iff.mpr hp)

theorem Settled.keys_sources {m : Membership} {r r' : Rule} (h : Settled m r r') :
    r'.sources.values.map Endpoint.key = r'.sources.keys :=
  map_key_values h .source

theorem Settled.keys_destinations {m : Membership} {r r' : Rule} (h : Settled m r r') :
    r'.destinations.values.map Endpoint.key = r'.destinations.keys :=
  map_key_values h .destination

variable {m : Membership} {declared : List String} {r : Rule}

theorem lawful_of_mem_readable {ts : List Value} : ∀ e ∈ readable ts, e.target.Lawful := by
  intro e he
  obtain ⟨t, -, ht⟩ := mem_readable.mp he
  exact lawful_of_classify ht

/-- Making origins and expanding a rule whose tokens were read. -/
theorem settled_of_holds (hm : Membership.OfNames m.groups) {s s' s'' d d' : Slot}
    (hs : s.Holds (readable r.sourceTokens)) (hs' : s'.Holds (s.values.map asOrigin))
    (hs'' : s''.Holds (s'.values.flatMap (expansion m))) (hd : d.Holds (readable r.destinationTokens))
    (hd' : d'.Holds (d.values.flatMap (expansion m))) :
    Settled m r { r with sources := s'', destinations := d' } := by
  have spread : ∀ {x y : Slot} {es : List Endpoint}, x.Holds es → (∀ e ∈ es, e.target.Lawful) →
      y.Holds (x.values.flatMap (expansion m)) → ∀ z ∈ y.values, z.target.Lawful := fun hx hl hy =>
    hy.lawful_value fun e he => by
      obtain ⟨z, hz, hez⟩ := List.mem_flatMap.mp he
      exact lawful_of_mem_expansion hm (hx.lawful_value hl z hz) hez
  have lawful_origins := hs.lawful_origins lawful_of_mem_readable
  refine ⟨rfl, fun k => ?_, fun k => hd.mem_keys_expanded hd', hd'.canonical_value, fun x hx t => ?_,
    fun side {k x} hx => ?_, fun side x hx => ?_⟩
  · rw [hs'.mem_keys_expanded hs'']
    constructor
    · intro h
      rcases h with ⟨o, ho, hc⟩
      obtain ⟨x, hx, rfl⟩ := List.mem_map.mp ho
      obtain ⟨e, he, hk, -⟩ := hs.exists_added hx
      exact ⟨e, he, (covers_congr (key_asOrigin_congr hk) k).mpr hc⟩
    · intro h
      rcases h with ⟨e, he, hc⟩
      obtain ⟨x, hx, hk, -⟩ := hs.exists_value he
      exact ⟨asOrigin x, List.mem_map_of_mem hx, (covers_congr (key_asOrigin_congr hk) k).mpr hc⟩
  · exact hd.allows_expanded hd' (hd'.mem_values.mp hx) t
  · cases side with
    | source => exact hs''.key hx
    | destination => exact hd'.key hx
  · cases side with
    | source => exact spread hs' lawful_origins hs'' x hx
    | destination => exact spread hd lawful_of_mem_readable hd' x hx

/-- A verdict of a stage on the rules that `P` tells: it goes on unless something is an error,
    the rule stays as it was written, and `Q` tells of it if it goes on. -/
structure Judges (f : Rule → Verdict) (P Q : Rule → Prop) : Prop where
  outcome : ∀ {r}, P r → (f r).outcome = .ok (passes (f r).complaints)
  written : ∀ {r}, P r → (f r).rule.written = r.written
  next : ∀ {r}, P r → passes (f r).complaints = true → Q (f r).rule

theorem andThen_of_passes {v : Verdict} (h : v.outcome = .ok (passes v.complaints)) (f : Rule → Verdict) :
    v.andThen f = if passes v.complaints then { f v.rule with complaints := v.complaints ++ (f v.rule).complaints }
      else v := by
  unfold Verdict.andThen
  rw [h]
  cases passes v.complaints <;> rfl

theorem passes_andThen {v : Verdict} {f : Rule → Verdict} (h : v.outcome = .ok (passes v.complaints)) :
    passes (v.andThen f).complaints = true ↔
      passes v.complaints = true ∧ passes (f v.rule).complaints = true := by
  rw [andThen_of_passes h]
  cases hv : passes v.complaints <;> simp [hv]

theorem rule_andThen {v : Verdict} {f : Rule → Verdict} (h : v.outcome = .ok (passes v.complaints))
    (hv : passes v.complaints = true) : (v.andThen f).rule = (f v.rule).rule := by
  rw [andThen_of_passes h, if_pos hv]

theorem Judges.andThen {f g : Rule → Verdict} {P Q S : Rule → Prop} (hf : Judges f P Q) (hg : Judges g Q S) :
    Judges (fun r => (f r).andThen g) P S := by
  refine ⟨fun {r} hr => ?_, fun {r} hr => ?_, fun {r} hr => ?_⟩
  all_goals rw [andThen_of_passes (hf.outcome hr)]
  all_goals cases h : passes (f r).complaints
  · simp [hf.outcome hr, h]
  · simp [hg.outcome (hf.next hr h), h]
  · exact hf.written hr
  · exact (hg.written (hf.next hr h)).trans (hf.written hr)
  · simp [h]
  · simpa [h] using hg.next (hf.next hr h)

def Canonical (r : Rule) : Prop := ∀ side, ∀ e ∈ (r.slot side).values, Ports.Canonical e.ports

theorem judges_classified : Judges classified Tractable Canonical := by
  refine ⟨fun {r} hr => ?_, fun {r} hr => ?_, fun {r} hr _ => ?_⟩
  all_goals obtain ⟨s, d, hs, hd, he⟩ := classified_eq r hr.sources hr.destinations hr.brief
  all_goals rw [he]
  · rfl
  · intro h
    rcases h with _ | _
    · exact hs.canonical_value
    · exact hd.canonical_value

theorem judges_checked (m : Membership) (declared : List String) :
    Judges (checked (some m) declared) Canonical Canonical := by
  refine ⟨fun {r} hr => ?_, fun {r} hr => ?_, fun {r} hr _ => ?_⟩
  all_goals rw [checked_eq]
  exact hr

theorem judges_originated : Judges originated Canonical Canonical := by
  refine ⟨fun {r} hr => ?_, fun {r} hr => ?_, fun {r} hr _ => ?_⟩
  all_goals obtain ⟨s, hs, he⟩ := originated_eq r
  all_goals rw [he]
  · rw [portWarnings_pass]
  · rfl
  · intro h
    rcases h with _ | _
    · exact hs.canonical_value
    · exact hr .destination

theorem judges_expanded (m : Membership) : Judges (expanded (some m)) Canonical fun _ => True := by
  refine ⟨fun {r} hr => ?_, fun {r} hr => ?_, fun {r} hr _ => trivial⟩
  all_goals obtain ⟨s, d, -, -, he⟩ := expanded_eq m r (hr .source) (hr .destination)
  all_goals rw [he]
  · rfl
  · rfl

/-- Reading the tokens and looking the endpoints up decide whether a rule comes through. -/
theorem passes_course (hr : Tractable r) :
    passes (course m declared r).complaints = true ↔
      passes (classified r).complaints = true ∧
        passes (checked (some m) declared (classified r).rule).complaints = true := by
  unfold course
  rw [passes_andThen (judges_classified.outcome hr)]
  apply and_congr_right
  intro h
  have hc := judges_classified.next hr h
  rw [passes_andThen ((judges_checked m declared).outcome hc)]
  refine ⟨And.left, fun h => ⟨h, ?_⟩⟩
  have hc := (judges_checked m declared).next hc h
  rw [passes_andThen (judges_originated.outcome hc)]
  obtain ⟨s, -, ho⟩ := originated_eq (checked (some m) declared (classified r).rule).rule
  have hpass : passes (originated (checked (some m) declared (classified r).rule).rule).complaints = true := by
    rw [ho]
    exact portWarnings_pass _
  have hc := judges_originated.next hc hpass
  obtain ⟨_, _, _, _, he⟩ := expanded_eq m _ (hc .source) (hc .destination)
  exact ⟨hpass, by rw [he]; rfl⟩

/-- What comes through its course is settled. -/
theorem settled_of_course (hm : Membership.OfNames m.groups) (hr : Tractable r)
    (h : passes (course m declared r).complaints = true) : Settled m r (course m declared r).rule := by
  obtain ⟨s, d, hs, hd, hread⟩ := classified_eq r hr.sources hr.destinations hr.brief
  obtain ⟨s', hs', horigin⟩ := originated_eq { r with sources := s, destinations := d }
  obtain ⟨s'', d', hs'', hd', hexpand⟩ := expanded_eq m { r with sources := s', destinations := d }
    hs'.canonical_value hd.canonical_value
  have hrule : (course m declared r).rule = { r with sources := s'', destinations := d' } := by
    unfold course at h ⊢
    obtain ⟨h1, h⟩ := (passes_andThen (judges_classified.outcome hr)).mp h
    rw [rule_andThen (judges_classified.outcome hr) h1, hread]
    rw [hread, checked_eq] at h
    obtain ⟨h2, h⟩ := (passes_andThen rfl).mp h
    rw [checked_eq, rule_andThen rfl h2, horigin, rule_andThen (by rw [portWarnings_pass]) (portWarnings_pass _), hexpand]
  rw [hrule]
  exact settled_of_holds hm hs hs' hs'' hd hd'

end Compiler

end Portcullis
