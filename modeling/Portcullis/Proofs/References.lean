/-
  Portcullis.Proofs.References — which rules are stopped.

  A rule is stopped by an empty side, by a token that cannot be read, and by a reference to a
  group that is not in the table. References are looked up after tokens of one key were put
  together, and a tag has the key of the group of its name. So only the first token of a key
  is looked up (`Leading`), and an undefined group is missed behind a tag of its name.
  - `error_of_index_iff`: an error has the index of a rule if and only if something stops the
    rule, and after any error nothing is declared.
  - `an_undefined_group_is_missed`: a policy is declared for a group that is not defined.
-/

import Portcullis.Proofs.Outcome

namespace Portcullis.Compiler

/-- The endpoint of a token whose key no token before it has. -/
def Leading (ts : List Value) (e : Endpoint) : Prop :=
  ∃ before t after, ts = before ++ t :: after ∧ classify t = .ok e ∧ ∀ u ∈ before, ∀ d, classify u = .ok d → d.key ≠ e.key

def Undefined (m : Membership) (ts : List Value) (name : String) : Prop :=
  ∃ t ∈ ts, ∃ e, classify t = .ok e ∧ e.target = .named .group name ∧ m.hasGroup e = false

def BehindTag (ts : List Value) (name : String) : Prop := ∃ e, Leading ts e ∧ e.target = .named .tag name

inductive Stops (m : Membership) (ts : List Value) : Prop
  | empty (h : ts = [])
  | malformed (t : Value) (u : Unclassified) (ht : t ∈ ts) (hu : classify t = .error u)
  | undefined (name : String) (h : Undefined m ts name) (hno : ¬ BehindTag ts name)

/-- Whether the first token of some key refers to a group that the table does not have. -/
def Exposed (m : Membership) (ts : List Value) : Prop :=
  ∃ e name, Leading ts e ∧ e.target = .named .group name ∧ m.hasGroup e = false

/-! ## The first token of a key -/

theorem leading_cons {t : Value} {ts : List Value} {e : Endpoint} :
    Leading (t :: ts) e ↔ classify t = .ok e ∨ ((∀ d, classify t = .ok d → d.key ≠ e.key) ∧ Leading ts e) := by
  constructor
  · intro h
    rcases h with ⟨before, u, after, hts, hu, hno⟩
    cases before with
    | nil =>
      cases hts
      exact .inl hu
    | cons v before =>
      cases hts
      exact .inr ⟨hno t (by simp), before, u, after, rfl, hu, fun w hw => hno w (List.mem_cons_of_mem _ hw)⟩
  · intro h
    rcases h with ht | ⟨hno, before, u, after, rfl, hu, hbefore⟩
    · exact ⟨[], t, ts, rfl, ht, by simp⟩
    · refine ⟨t :: before, u, after, rfl, hu, fun w hw => ?_⟩
      rcases List.mem_cons.mp hw with rfl | hw
      · exact hno
      · exact hbefore w hw

theorem leading_iff {ts : List Value} {e : Endpoint} :
    Leading ts e ↔ Slot.firstOf e.key (readable ts) = some e := by
  induction ts with
  | nil => exact iff_of_false (by rintro ⟨before, t, after, h, -⟩; simp at h) (by simp [Slot.firstOf, readable])
  | cons t ts ih =>
    have hcons : Slot.firstOf e.key (readable (t :: ts)) =
        ((endpointOf t).find? fun d => decide (d.key = e.key)).or (Slot.firstOf e.key (readable ts)) := by
      simp only [Slot.firstOf, readable, List.flatMap_cons, List.find?_append]
    rw [leading_cons, ih, hcons]
    unfold endpointOf
    cases hc : classify t with
    | error u => simp
    | ok d =>
      by_cases hk : d.key = e.key
      · simp only [hk, decide_true, List.find?_cons_of_pos, Option.some_or, Option.some.injEq, Except.ok.injEq]
        exact ⟨fun h => h.elim id fun h => absurd hk (h.1 d rfl), Or.inl⟩
      · have hne : ¬ d = e := fun h => hk (h ▸ rfl)
        simp [hk, hne]

/-- A token that can be read has a first token of its key before it, or is that token. -/
theorem exists_leading {ts : List Value} {t : Value} {e : Endpoint} (ht : t ∈ ts) (hc : classify t = .ok e) :
    ∃ d, Leading ts d ∧ d.key = e.key := by
  induction ts with
  | nil => cases ht
  | cons u ts ih =>
    by_cases hu : ∃ d, classify u = .ok d ∧ d.key = e.key
    · obtain ⟨d, hd, hk⟩ := hu
      exact ⟨d, leading_cons.mpr (.inl hd), hk⟩
    · have hmem : t ∈ ts := (List.mem_cons.mp ht).resolve_left fun h => hu ⟨e, h ▸ hc, rfl⟩
      obtain ⟨d, hd, hk⟩ := ih hmem
      exact ⟨d, leading_cons.mpr (.inr ⟨fun x hx hxk => hu ⟨x, hx, hxk.trans hk⟩, hd⟩), hk⟩

/-- Endpoints of one key lead only once. -/
theorem leading_unique {ts : List Value} {d e : Endpoint} (hd : Leading ts d) (he : Leading ts e)
    (hk : d.key = e.key) :
    d = e := by
  have hd := leading_iff.mp hd
  rw [hk, leading_iff.mp he] at hd
  exact (Option.some.inj hd).symm

/-- An undefined group is looked up unless it stands behind a tag. -/
theorem exposed_iff {m : Membership} {ts : List Value} :
    Exposed m ts ↔ ∃ name, Undefined m ts name ∧ ¬ BehindTag ts name := by
  constructor
  · intro h
    rcases h with ⟨e, name, hlead, ht, hu⟩
    refine ⟨name, ?_, ?_⟩
    · obtain ⟨before, t, after, rfl, hc, -⟩ := hlead
      exact ⟨t, by simp, e, hc, ht, hu⟩
    · intro h
      rcases h with ⟨d, hd, htag⟩
      have hk : d.key = e.key := (Target.key_eq_named_iff.mpr ⟨.tag, htag⟩).trans (congrArg Target.key ht).symm
      rw [leading_unique hd hlead hk, ht] at htag
      cases htag
  · intro h
    rcases h with ⟨name, ⟨t, htmem, e, hc, ht, hu⟩, hno⟩
    -- The first token of the key is a name as well, so it is a tag or the group itself.
    obtain ⟨d, hd, hk⟩ := exists_leading htmem hc
    obtain ⟨space, hname⟩ := Target.key_eq_named_iff.mp (hk.trans (congrArg Target.key ht))
    have hgroup : m.hasGroup d = m.hasGroup e := congrArg m.groups.contains hk
    cases space with
    | group => exact ⟨d, name, hd, hname, hgroup.trans hu⟩
    | tag => exact absurd ⟨d, hd, hname⟩ hno

/-! ## What stops a rule -/

theorem passes_flatMap {α : Type} {f : α → List Complaint} {xs : List α} :
    passes (xs.flatMap f) = true ↔ ∀ x ∈ xs, passes (f x) = true := by
  simp only [passes, List.all_flatMap, List.all_eq_true]

theorem passes_unreadable {side : Side} {ts : List Value} :
    passes (unreadable side ts) = true ↔ ts ≠ [] ∧ ∀ t ∈ ts, ∃ e, classify t = .ok e := by
  unfold unreadable
  split
  · rename_i h
    exact iff_of_false (by simp [passes, noTokens]) fun hts => hts.1 h
  · rename_i h
    rw [passes_flatMap, and_iff_right h]
    apply forall₂_congr
    intro t _
    unfold faultOf
    cases classify t with
    | ok e => simp
    | error u => simp [passes, malformed]

/-- What is said about an endpoint that is looked up. -/
theorem mem_lookUp_iff {m : Membership} {declared : List String} {e : Endpoint} {p : Complaint} :
    p ∈ lookUp m declared e ↔
      (∃ name, e.target = .named .tag name ∧ declared ≠ [] ∧ name ∉ declared ∧ p = unownedTag name e.token) ∨
      (∃ name, e.target = .named .group name ∧ m.hasGroup e = false ∧ p = undefinedGroup ⟨e.token, name⟩) := by
  unfold lookUp
  split
  · rename_i ht
    simp [ht]
  · rename_i ht
    split <;> simp_all
  · rename_i name ht
    have hname : e.name = name := congrArg Target.name ht
    unfold Membership.require
    cases hg : m.hasGroup e <;> simp [ht, hname]

theorem passes_lookUp {m : Membership} {declared : List String} {e : Endpoint} :
    passes (lookUp m declared e) = true ↔ ∀ name, e.target = .named .group name → m.hasGroup e = true := by
  simp only [passes, List.all_eq_true, decide_eq_true_eq, mem_lookUp_iff]
  constructor
  · intro h name ht
    exact Bool.of_not_eq_false fun hu => h _ (.inr ⟨name, ht, hu, rfl⟩) rfl
  · rintro h p (⟨name, -, -, -, rfl⟩ | ⟨name, ht, hu, rfl⟩)
    · simp [unownedTag]
    · rw [h name ht] at hu
      cases hu

theorem lookUp_congr {m : Membership} {declared : List String} {d e : Endpoint} (htarget : d.target = e.target)
    (htoken : d.token = e.token) : lookUp m declared d = lookUp m declared e := by
  obtain ⟨t, p, s⟩ := d
  obtain ⟨u, q, w⟩ := e
  cases htarget
  cases htoken
  rfl

/-- Looking the endpoints of a side up is looking the first tokens of their keys up. -/
theorem mem_lookUps_iff {m : Membership} {declared : List String} {slot : Slot} {ts : List Value}
    (h : slot.Holds (readable ts)) {p : Complaint} :
    p ∈ slot.values.flatMap (lookUp m declared) ↔ ∃ e, Leading ts e ∧ p ∈ lookUp m declared e := by
  rw [List.mem_flatMap]
  constructor
  · rintro ⟨x, hx, hp⟩
    obtain ⟨e, he, htarget, htoken⟩ := h.first (h.mem_values.mp hx)
    rw [← (Slot.firstOf_some he).2] at he
    exact ⟨e, leading_iff.mpr he, lookUp_congr htarget htoken ▸ hp⟩
  · rintro ⟨e, hlead, hp⟩
    have hfirst := leading_iff.mp hlead
    obtain ⟨x, hx, -, hget⟩ := h.exists_value (Slot.firstOf_some hfirst).1
    obtain ⟨d, hd, htarget, htoken⟩ := h.first hget
    rw [hfirst] at hd
    cases hd
    exact ⟨x, hx, (lookUp_congr htarget htoken).symm ▸ hp⟩

theorem passes_lookUps {m : Membership} {declared : List String} {slot : Slot} {ts : List Value}
    (h : slot.Holds (readable ts)) :
    passes (slot.values.flatMap (lookUp m declared)) = true ↔ ¬ Exposed m ts := by
  have hall : passes (slot.values.flatMap (lookUp m declared)) = true ↔
      ∀ e, Leading ts e → passes (lookUp m declared e) = true := by
    simp only [passes, List.all_eq_true, mem_lookUps_iff h]
    constructor
    · exact fun hp e he p hpe => hp p ⟨e, he, hpe⟩
    · intro hp p hex
      obtain ⟨e, he, hpe⟩ := hex
      exact hp e he p hpe
  simp only [hall, passes_lookUp]
  constructor
  · intro hgroups hex
    obtain ⟨e, name, hlead, ht, hu⟩ := hex
    rw [hgroups e hlead name ht] at hu
    cases hu
  · intro hno e hlead name ht
    exact Bool.of_not_eq_false fun hu => hno ⟨e, name, hlead, ht, hu⟩

theorem stops_iff (side : Side) {m : Membership} {ts : List Value} :
    Stops m ts ↔ ¬ passes (unreadable side ts) = true ∨ Exposed m ts := by
  rw [passes_unreadable, exposed_iff]
  constructor
  · intro hor
    rcases hor with hnil | ⟨t, u, ht, hu⟩ | ⟨name, h, hno⟩
    · exact .inl fun h => h.1 hnil
    · refine .inl ?_
      intro h
      obtain ⟨e, he⟩ := h.2 t ht
      rw [he] at hu
      cases hu
    · exact .inr ⟨name, h, hno⟩
  · intro hor
    rcases hor with h | ⟨name, h, hno⟩
    · by_cases hnil : ts = []
      · exact .empty hnil
      · simp only [not_and, Classical.not_forall, not_exists] at h
        obtain ⟨t, ht, hbad⟩ := h hnil
        cases hc : classify t with
        | ok e => exact absurd hc (hbad e)
        | error u => exact .malformed t u ht hc
    · exact .undefined name h hno

/-- A rule goes on unless something stops it at one of its sides. -/
theorem stopped_iff {m : Membership} {declared : List String} {a : AccessRule} (hb : BriefRule a) :
    ¬ passes (verdictOf m declared a).complaints = true ↔ Stops m a.sources ∨ Stops m a.destinations := by
  have htractable := tractable_ofAccessRule hb
  obtain ⟨s, d, hs, hd, hread⟩ := classified_eq (Rule.ofAccessRule a) htractable.sources htractable.destinations
    htractable.brief
  unfold verdictOf
  rw [passes_course htractable, hread, checked_eq, stops_iff .source, stops_iff .destination]
  simp only [passes_append, Bool.and_eq_true, passes_lookUps hs, passes_lookUps hd]
  show ¬ ((passes (unreadable .source a.sources) = true ∧ passes (unreadable .destination a.destinations) = true) ∧
    ¬ Exposed m a.sources ∧ ¬ Exposed m a.destinations) ↔ _
  simp only [Classical.not_and_iff_not_or_not, Classical.not_not]
  exact or_or_or_comm

/-- A side at which nothing stops a rule has a token that is read. -/
theorem exists_readable {m : Membership} {ts : List Value} (h : ¬ Stops m ts) : ∃ e, e ∈ readable ts := by
  obtain ⟨t, ht⟩ := List.exists_mem_of_ne_nil _ fun hnil => h (.empty hnil)
  cases hc : classify t with
  | error u => exact absurd (.malformed t u ht hc) h
  | ok e => exact ⟨e, mem_readable.mpr ⟨t, ht, hc⟩⟩

/-- So has each side of a rule that goes on. -/
theorem exists_readable_sides {m : Membership} {declared : List String} {a : AccessRule} (hb : BriefRule a)
    (h : passes (verdictOf m declared a).complaints = true) :
    (∃ e, e ∈ readable a.sources) ∧ ∃ e, e ∈ readable a.destinations :=
  ⟨exists_readable fun hs => (stopped_iff hb).mpr (.inl hs) h, exists_readable fun hs => (stopped_iff hb).mpr (.inr hs) h⟩

/-- The errors of a compilation whose tables can be read: there is a result if the reading of no
    token stops; the errors of a rule are there if and only if something stops it, and there is an
    output if and only if there is no error. -/
theorem error_of_index_iff {d : Document} {o : Options} {m : Membership} {declared : List String}
    (ht : Tables d o m declared) :
    ((o.ruleDebug = true → d.Textual) → ((∃ res, (compile d o).1 = .ok res) ↔ BriefRules d)) ∧
      ∀ res, (compile d o).1 = .ok res →
        (∀ i, (∃ e ∈ res.errors, e.ruleIndex = some i) ↔
          ∃ a ∈ d.rules, a.index = i ∧ (Stops m a.sources ∨ Stops m a.destinations)) ∧
        (res.output = none ↔ res.errors ≠ []) := by
  refine ⟨compile_ok_iff ht, fun res h => ⟨fun i => ?_, output_eq_none_iff ht h⟩⟩
  rw [errors_eq ht h, (compile_spec ht h).1.error_of_index]
  exact exists_congr fun a => and_congr_right fun hmem => and_congr_right fun _ => stopped_iff (brief_of_compile ht h a hmem)

def announced : AccessRule :=
  { index := 0, action := .accept, sources := [.text "group:x", .text "tag:x"], destinations := [.text "tag:y"] }

theorem classify_groupX : classify (.text "group:x") = .ok ⟨.named .group "x", none, "group:x"⟩ := rfl

theorem classify_tagX : classify (.text "tag:x") = .ok ⟨.named .tag "x", none, "tag:x"⟩ := rfl

theorem error_of_announced : ∃ res, (compile { rules := [announced] }).1 = .ok res ∧
    (∃ e ∈ res.errors, e.ruleIndex = some 0) ∧ res.output = none := by
  have ht : Tables { rules := [announced] } {} noGroups [] := ⟨rfl, rfl⟩
  have hundefined : Undefined noGroups announced.sources "x" :=
    ⟨.text "group:x", by simp [announced], _, classify_groupX, rfl, rfl⟩
  have hahead : ¬ BehindTag announced.sources "x" := by
    intro hex
    rcases hex with ⟨e, hlead, htag⟩
    have hk : e.key = (⟨.named .group "x", none, "group:x"⟩ : Endpoint).key := by
      unfold Endpoint.key
      rw [htag]
      rfl
    rw [leading_unique hlead (leading_cons.mpr (.inl classify_groupX)) hk] at htag
    cases htag
  obtain ⟨hsome, hall⟩ := error_of_index_iff ht
  obtain ⟨res, h⟩ := (hsome fun hdebug => by cases hdebug).mpr (by decide +kernel)
  obtain ⟨hindex, hout⟩ := hall res h
  obtain ⟨e, he, hi⟩ := (hindex 0).mpr ⟨announced, by simp, rfl, .inl (.undefined "x" hundefined hahead)⟩
  exact ⟨res, h, ⟨e, he, hi⟩, hout.mpr (List.ne_nil_of_mem he)⟩

def shadowed : AccessRule := { announced with sources := [.text "tag:x", .text "group:x"] }

/-- Nothing is reported there, and the objects are declared. -/
theorem an_undefined_group_is_missed : ∃ res out, (compile { rules := [shadowed] }).1 = .ok res ∧
    Tables { rules := [shadowed] } {} noGroups [] ∧ Undefined noGroups shadowed.sources "x" ∧
    shadowed.destinations ≠ [] ∧
    (∀ t ∈ shadowed.sources ++ shadowed.destinations, ∃ e, classify t = .ok e) ∧
    res.errors = [] ∧ res.output = some out := by
  have hundefined : Undefined noGroups shadowed.sources "x" :=
    ⟨.text "group:x", by simp [shadowed], _, classify_groupX, rfl, rfl⟩
  have ht : Tables { rules := [shadowed] } {} noGroups [] := ⟨rfl, rfl⟩
  obtain ⟨res, -, h, he, -⟩ := compile_single (a := shadowed) (by decide +kernel)
    ((passes_course (tractable_ofAccessRule (by decide +kernel))).mpr ⟨by decide +kernel, by decide +kernel⟩)
  obtain ⟨out, hout, -⟩ := emit?_some (compile { rules := [shadowed] }).2.graph noGroups {}
  refine ⟨res, out, h, ht, hundefined, by simp [shadowed, announced], ?_, he, (output_eq ht h he).trans hout⟩
  intro t hmem
  have hcases : t = .text "tag:x" ∨ t = .text "group:x" ∨ t = .text "tag:y" := by simpa [shadowed, announced] using hmem
  rcases hcases with rfl | rfl | rfl
  · exact ⟨_, classify_tagX⟩
  · exact ⟨_, classify_groupX⟩
  · exact ⟨_, rfl⟩

end Portcullis.Compiler
