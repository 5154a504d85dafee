/-
  Portcullis.Proofs.TagOwners — which rules are warned about tags.

  A document declares a tag with an entry of that name among the tag owners, written with the
  marker of a tag (`DeclaresTag`). If it declares any, a rule is warned about each tag that has no
  entry, but tags are looked up after tokens of one key were put together, and a group has the
  key of the tag of its name. So a tag is looked up where no group of its name stands before
  it (`Ahead`), and none is if every entry is a bare name.
  - `warned_iff`: the rules that are warned about a tag, from what is said about one rule
    (`tag_complaint_iff`).
  - `cause_of_error`: an error is about an empty side, a token that cannot be read or a group, and
    so about no tag that was read.
  - `undeclared_tags_warned`: both of the result of a document whose tables can be read.
  - `an_undeclared_tag_is_missed`: with bare entries, and behind a group.
-/

import Portcullis.Proofs.Composition
import Portcullis.Proofs.Merging
import Portcullis.Proofs.References

namespace Portcullis.Compiler

/-! ## Declared tags -/

def DeclaresTag (entries : List String) (name : String) : Prop :=
  ∃ entry ∈ entries, (Classify.marker .tag).isPrefixOf entry.toList = true ∧
    ∃ e, classifyMemberText entry = .ok e ∧ e.name = name

theorem mem_tagNames_iff {entries declared : List String} (h : Compilation.tagNames entries = .ok declared)
    {name : String} : name ∈ declared ↔ DeclaresTag entries name := by
  unfold DeclaresTag
  induction entries generalizing declared with
  | nil =>
    cases h
    simp
  | cons entry entries ih =>
    simp only [List.mem_cons, exists_eq_or_imp]
    simp only [Compilation.tagNames] at h
    split at h
    · rename_i htag
      cases hentry : classifyMemberText entry with
      | error u =>
        rw [hentry] at h
        cases h
      | ok e =>
        rw [hentry] at h
        cases hrest : Compilation.tagNames entries with
        | error u =>
          rw [hrest] at h
          cases h
        | ok rest =>
          rw [hrest] at h
          cases h
          simp only [List.mem_cons, htag, true_and, Except.ok.injEq, exists_eq_left', ih hrest, eq_comm]
    · rename_i htag
      simp [htag, ih h]

/-! ## Tags that are looked up -/

def Intact (ts : List Value) : Prop := ts ≠ [] ∧ ∀ t ∈ ts, ∃ e, classify t = .ok e

inductive Ahead (name : String) : List Value → Prop
  | here {t : Value} {ts : List Value} {e : Endpoint} (h : classify t = .ok e) (htag : e.target = .named .tag name) :
      Ahead name (t :: ts)
  | later {t : Value} {ts : List Value} (hno : ∀ e, classify t = .ok e → e.target ≠ .named .group name)
      (h : Ahead name ts) : Ahead name (t :: ts)

theorem intact_or_unreadable (ts : List Value) : Intact ts ∨ Unreadable ts := by
  by_cases hnil : ts = []
  · exact .inr (.inl hnil)
  by_cases hall : ∀ t ∈ ts, ∃ e, classify t = .ok e
  · exact .inl ⟨hnil, hall⟩
  · simp only [Classical.not_forall, not_exists] at hall
    obtain ⟨t, ht, hbad⟩ := hall
    cases hc : classify t with
    | ok e => exact absurd hc (hbad e)
    | error u => exact .inr (.inr ⟨t, ht, u, hc⟩)

theorem Leading.read {ts : List Value} {e : Endpoint} (h : Leading ts e) : classify (.text e.token) = .ok e := by
  obtain ⟨before, t, after, -, hc, -⟩ := h
  rwa [token_of_classify hc] at hc

theorem Leading.mem {ts : List Value} {e : Endpoint} (h : Leading ts e) : .text e.token ∈ ts := by
  obtain ⟨before, t, after, rfl, hc, -⟩ := h
  rw [token_of_classify hc]
  simp

theorem ahead_iff {name : String} {ts : List Value} : Ahead name ts ↔ BehindTag ts name := by
  constructor
  · intro h
    induction h with
    | here h htag => exact ⟨_, leading_cons.mpr (.inl h), htag⟩
    | @later t ts hno h ih =>
      obtain ⟨e, hlead, htag⟩ := ih
      by_cases hsame : ∃ d, classify t = .ok d ∧ d.key = e.key
      · obtain ⟨d, hd, hk⟩ := hsame
        obtain ⟨space, hname⟩ := Target.key_eq_named_iff.mp (hk.trans (congrArg Target.key htag))
        cases space with
        | group => exact absurd hname (hno d hd)
        | tag => exact ⟨d, leading_cons.mpr (.inl hd), hname⟩
      · exact ⟨e, leading_cons.mpr (.inr ⟨fun d hd hk => hsame ⟨d, hd, hk⟩, hlead⟩), htag⟩
  · rintro ⟨e, hlead, htag⟩
    induction ts with
    | nil =>
      obtain ⟨before, t, after, h, -⟩ := hlead
      simp at h
    | cons t ts ih =>
      rcases leading_cons.mp hlead with h | ⟨hno, hlead⟩
      · exact .here h htag
      · refine .later (fun d hd hgroup => hno d hd ?_) (ih hlead)
        exact (Target.key_eq_named_iff.mpr ⟨.group, hgroup⟩).trans (congrArg Target.key htag).symm

/-! ## What is said about a rule -/

section

variable {m : Membership} {declared : List String} {a : AccessRule}

theorem brief_of_intact {ts : List Value} (h : Intact ts) : Brief ts := fun t ht => by
  obtain ⟨e, he⟩ := h.2 t ht
  rw [he]
  rfl

theorem unreadable_of_intact {side : Side} {ts : List Value} (h : Intact ts) : unreadable side ts = [] := by
  unfold unreadable
  rw [if_neg h.1, List.flatMap_eq_nil_iff]
  intro t ht
  obtain ⟨e, he⟩ := h.2 t ht
  unfold faultOf
  rw [he]

/-- Behind the look-up, only ports are remarked upon. -/
theorem ports_of_originated {r : Rule} (hr : Canonical r) {p : Complaint}
    (hp : p ∈ ((originated r).andThen (expanded (some m))).complaints) : ∃ token, p = uselessPorts token := by
  obtain ⟨s, -, horigin⟩ := originated_eq r
  have hpass : passes (originated r).complaints = true := by
    rw [horigin]
    exact portWarnings_pass _
  have hc := judges_originated.next hr hpass
  obtain ⟨_, _, _, _, hexpand⟩ := expanded_eq m (originated r).rule (hc .source) (hc .destination)
  rw [andThen_of_passes (judges_originated.outcome hr), if_pos hpass, hexpand, horigin, List.append_nil] at hp
  obtain ⟨e, -, hp⟩ := List.mem_flatMap.mp hp
  unfold portWarning at hp
  split at hp
  · cases hp
  · exact ⟨e.token, List.mem_singleton.mp hp⟩

/-- The first tokens of keys are looked up in a rule that can be read. -/
theorem mem_complaints_of_intact (hs : Intact a.sources) (hd : Intact a.destinations) {p : Complaint}
    (hp : ∀ token, p ≠ uselessPorts token) :
    p ∈ (verdictOf m declared a).complaints ↔
      ∃ e, (Leading a.sources e ∨ Leading a.destinations e) ∧ p ∈ lookUp m declared e := by
  have hr := tractable_ofAccessRule ⟨brief_of_intact hs, brief_of_intact hd⟩
  obtain ⟨s, d, hsl, hdl, hread⟩ := classified_eq (Rule.ofAccessRule a) hr.sources hr.destinations hr.brief
  have hclear : (classified (Rule.ofAccessRule a)).complaints = [] := by
    rw [hread]
    show unreadable .source a.sources ++ unreadable .destination a.destinations = []
    rw [unreadable_of_intact hs, unreadable_of_intact hd, List.append_nil]
  have hpass : passes (classified (Rule.ofAccessRule a)).complaints = true := by rw [hclear, passes_nil]
  have hcanonical := judges_classified.next hr hpass
  have hlooked : p ∈ (checked (some m) declared (classified (Rule.ofAccessRule a)).rule).complaints ↔
      ∃ e, (Leading a.sources e ∨ Leading a.destinations e) ∧ p ∈ lookUp m declared e := by
    rw [checked_eq, hread, List.mem_append, mem_lookUps_iff hsl, mem_lookUps_iff hdl]
    simp only [or_and_right, exists_or]
    rfl
  unfold verdictOf course
  rw [andThen_of_passes (judges_classified.outcome hr), if_pos hpass, hclear, List.nil_append, ← hlooked,
    andThen_of_passes ((judges_checked m declared).outcome hcanonical)]
  split
  · rw [List.mem_append, or_iff_left]
    intro hmore
    rw [checked_eq] at hmore
    obtain ⟨token, htoken⟩ := ports_of_originated hcanonical hmore
    exact hp token htoken
  · rfl

theorem unownedTag_ne (name token other : String) : unownedTag name token ≠ uselessPorts other := by
  intro h
  have hfirst := congrArg (fun c => c.message.toList.head?) h
  simp [unownedTag, uselessPorts] at hfirst

/-- A rule that cannot be read has errors only. -/
theorem intact_of_warning (hb : BriefRule a) {p : Complaint} (hp : p ∈ (verdictOf m declared a).complaints)
    (hw : p.severity = .warning) :
    Intact a.sources ∧ Intact a.destinations := by
  have hread : ¬ (Unreadable a.sources ∨ Unreadable a.destinations) := fun h => by
    rw [error_of_complaint hb h hp] at hw
    cases hw
  exact ⟨(intact_or_unreadable _).resolve_right fun h => hread (.inl h),
    (intact_or_unreadable _).resolve_right fun h => hread (.inr h)⟩

/-- A rule is warned about a token that is the first of its key, is a tag and has no entry. -/
theorem tag_complaint_iff (hb : BriefRule a) {token name : String} {e : Endpoint} (he : classify (.text token) = .ok e)
    (htag : e.target = .named .tag name) :
    unownedTag name token ∈ (verdictOf m declared a).complaints ↔
      Intact a.sources ∧ Intact a.destinations ∧ (Leading a.sources e ∨ Leading a.destinations e) ∧
        declared ≠ [] ∧ name ∉ declared := by
  have htoken : e.token = token := (Value.text.inj (token_of_classify he)).symm
  constructor
  · intro hp
    obtain ⟨hs, hd⟩ := intact_of_warning hb hp rfl
    obtain ⟨x, hlead, hx⟩ := (mem_complaints_of_intact hs hd (unownedTag_ne name token)).mp hp
    rcases mem_lookUp_iff.mp hx with ⟨name', hname', hne, hno, heq⟩ | ⟨_, _, _, heq⟩
    · -- The token tells the endpoint that was looked up.
      have hsame : token = x.token := Option.some.inj (congrArg Complaint.token heq)
      have hread : classify (.text x.token) = .ok x := hlead.elim Leading.read Leading.read
      rw [← hsame, he] at hread
      cases hread
      cases htag.symm.trans hname'
      exact ⟨hs, hd, hlead, hne, hno⟩
    · cases congrArg Complaint.severity heq
  · rintro ⟨hs, hd, hlead, hne, hno⟩
    refine (mem_complaints_of_intact hs hd (unownedTag_ne name token)).mpr ⟨e, hlead, mem_lookUp_iff.mpr (.inl ?_)⟩
    exact ⟨name, htag, hne, hno, by rw [htoken]⟩

/-- What an error of a rule is about: an empty side, a token that cannot be read, or a group
    that no line of the table is about. -/
inductive Cause (lines : List Membership.Line) (a : AccessRule) : Complaint → Prop
  | empty {side : Side} (h : (Rule.ofAccessRule a).tokens side = []) : Cause lines a (noTokens side)
  | malformed {t : Value} {u : Unclassified} (ht : t ∈ a.sources ++ a.destinations) (h : classify t = .error u) :
      Cause lines a (malformed u)
  | undefined {t : Value} {e : Endpoint} {name : String} (ht : t ∈ a.sources ++ a.destinations)
      (h : classify t = .ok e) (hgroup : e.target = .named .group name) (hno : ¬ Membership.Headed lines e.key) :
      Cause lines a (undefinedGroup ⟨e.token, name⟩)

theorem cause_of_unreadable {lines : List Membership.Line} {side : Side} {ts : List Value} {p : Complaint}
    (hside : (Rule.ofAccessRule a).tokens side = ts) (hsub : ts ⊆ a.sources ++ a.destinations)
    (hp : p ∈ unreadable side ts) : Cause lines a p := by
  unfold unreadable at hp
  split at hp
  · rename_i hnil
    rw [List.mem_singleton.mp hp]
    exact .empty (hside.trans hnil)
  · obtain ⟨t, ht, hp⟩ := List.mem_flatMap.mp hp
    unfold faultOf at hp
    split at hp
    · cases hp
    · rename_i u hu
      rw [List.mem_singleton.mp hp]
      exact .malformed (hsub ht) hu

theorem cause_of_error {lines : List Membership.Line} (hm : Membership.Merged lines m.groups) (hb : BriefRule a)
    {p : Complaint}
    (hp : p ∈ (verdictOf m declared a).complaints) (he : p.severity = .error) : Cause lines a p := by
  by_cases hread : Unreadable a.sources ∨ Unreadable a.destinations
  · rw [complaints_of_unreadable hb hread] at hp
    rcases List.mem_append.mp hp with hp | hp
    · exact cause_of_unreadable rfl (List.subset_append_left _ _) hp
    · exact cause_of_unreadable rfl (List.subset_append_right _ _) hp
  · rw [not_or] at hread
    have hs := (intact_or_unreadable _).resolve_right hread.1
    have hd := (intact_or_unreadable _).resolve_right hread.2
    have hports : ∀ token, p ≠ uselessPorts token := by
      rintro token rfl
      cases he
    obtain ⟨e, hlead, hp⟩ := (mem_complaints_of_intact hs hd hports).mp hp
    rcases mem_lookUp_iff.mp hp with ⟨_, _, _, _, rfl⟩ | ⟨name, hgroup, hno, rfl⟩
    · cases he
    · have hmem : .text e.token ∈ a.sources ++ a.destinations := List.mem_append.mpr (hlead.imp Leading.mem Leading.mem)
      refine .undefined hmem (hlead.elim Leading.read Leading.read) hgroup fun hheaded => ?_
      rw [Membership.hasGroup, Table.contains_iff.mpr ((hm.keys e.key).mpr hheaded)] at hno
      cases hno

end

/-! ## The result of a document -/

structure Reports (d : Document) (a : AccessRule) (name : String) : Prop where
  sources : Intact a.sources
  destinations : Intact a.destinations
  ahead : Ahead name a.sources ∨ Ahead name a.destinations
  declares : ∃ other, DeclaresTag d.tagOwners.keys other
  undeclared : ¬ DeclaresTag d.tagOwners.keys name

def Warned (res : Result) (i : Int) (name : String) : Prop :=
  ∃ token e, classify (.text token) = .ok e ∧ e.target = .named .tag name ∧
    ⟨.warning, (unownedTag name token).message, some i, some token⟩ ∈ res.warnings

variable {d : Document} {o : Options} {m : Membership} {declared : List String} {res : Result}

theorem warned_iff (ht : Tables d o m declared) (h : (compile d o).1 = .ok res) {i : Int} {name : String} :
    Warned res i name ↔ ∃ a ∈ d.rules, a.index = i ∧ Reports d a name := by
  have hc := (compile_spec ht h).1
  have hdeclared : ∀ name, name ∈ declared ↔ DeclaresTag d.tagOwners.keys name := fun _ => mem_tagNames_iff ht.tags
  have hsome : declared ≠ [] ↔ ∃ other, DeclaresTag d.tagOwners.keys other := by
    simp only [← hdeclared, ne_eq, List.eq_nil_iff_forall_not_mem, Classical.not_forall, Classical.not_not]
  unfold Warned
  rw [warnings_eq ht h]
  constructor
  · rintro ⟨token, e, he, htag, hw⟩
    obtain ⟨a, ha, p, hp, heq⟩ := hc.mem_entries.mp (List.mem_filter.mp hw).1
    obtain rfl : p = unownedTag name token := by
      cases p
      cases heq
      rfl
    obtain ⟨hs, hd, hlead, hne, hno⟩ := (tag_complaint_iff (hc.brief a ha) he htag).mp hp
    have hindex : a.index = i := Option.some.inj (congrArg Diagnostic.ruleIndex heq)
    refine ⟨a, ha, hindex, hs, hd, ?_, hsome.mp hne, mt (hdeclared name).mpr hno⟩
    exact hlead.imp (fun h => ahead_iff.mpr ⟨e, h, htag⟩) fun h => ahead_iff.mpr ⟨e, h, htag⟩
  · rintro ⟨a, ha, rfl, hs, hd, hahead, hdeclares, hno⟩
    obtain ⟨e, hlead, htag⟩ : ∃ e, (Leading a.sources e ∨ Leading a.destinations e) ∧ e.target = .named .tag name :=
      hahead.elim (fun h => (ahead_iff.mp h).imp fun e h => ⟨.inl h.1, h.2⟩)
        fun h => (ahead_iff.mp h).imp fun e h => ⟨.inr h.1, h.2⟩
    have he : classify (.text e.token) = .ok e := hlead.elim Leading.read Leading.read
    have hp := (tag_complaint_iff (m := m) (hc.brief a ha) he htag).mpr
      ⟨hs, hd, hlead, hsome.mpr hdeclares, mt (hdeclared name).mp hno⟩
    exact ⟨e.token, e, he, htag, List.mem_filter.mpr ⟨hc.mem_entries.mpr ⟨a, ha, _, hp, rfl⟩, rfl⟩⟩

/-- The rules that are warned about a tag are those that report it, and each error of a result is
    about an empty side, a token that cannot be read, or a group. There is a result if the reading
    of no token stops. -/
theorem undeclared_tags_warned (hd : d.WellFormed) (o : Options) :
    ((o.ruleDebug = true → d.Textual) → ((∃ res, (compile d o).1 = .ok res) ↔ BriefRules d)) ∧
      ∀ res, (compile d o).1 = .ok res →
        (∀ i name, Warned res i name ↔ ∃ a ∈ d.rules, a.index = i ∧ Reports d a name) ∧
        ∀ x ∈ res.errors, ∃ a ∈ d.rules, ∃ p, Cause d.groups.toList a p ∧
          x = ⟨p.severity, p.message, some a.index, p.token⟩ := by
  obtain ⟨m, declared, ht⟩ := tables_iff.mpr hd
  refine ⟨compile_ok_iff ht, fun res h => ⟨fun i name => warned_iff ht h, fun x hx => ?_⟩⟩
  have hc := (compile_spec ht h).1
  rw [errors_eq ht h] at hx
  obtain ⟨hx, herr⟩ := List.mem_filter.mp hx
  obtain ⟨a, ha, p, hp, rfl⟩ := hc.mem_entries.mp hx
  have hcause := cause_of_error (Membership.merged_ofTable ht.membership) (hc.brief a ha) hp (of_decide_eq_true herr)
  exact ⟨a, ha, p, hcause, rfl⟩

theorem classify_tagDb : classify (.text "tag:db") = .ok ⟨.named .tag "db", none, "tag:db"⟩ := rfl

theorem classify_tagWeb : classify (.text "tag:web") = .ok ⟨.named .tag "web", none, "tag:web"⟩ := rfl

def fromDb : AccessRule :=
  { index := 0, action := .accept, sources := [.text "tag:db"], destinations := [.text "tag:web"] }

theorem intact_single {t : Value} {e : Endpoint} (h : classify t = .ok e) : Intact [t] :=
  ⟨List.cons_ne_nil _ _, fun _ hu => ⟨e, List.mem_singleton.mp hu ▸ h⟩⟩

def owned : Document := { tagOwners := Table.ofList [("tag:web", [.text "group:dev"])], rules := [fromDb] }

theorem wellFormed_owned : owned.WellFormed where
  groups line hline := by cases hline
  tagOwners name hname _ := by
    obtain rfl : name = "tag:web" := List.mem_singleton.mp hname
    exact ⟨_, rfl⟩

theorem reports_owned : Reports owned fromDb "db" where
  sources := intact_single classify_tagDb
  destinations := intact_single classify_tagWeb
  ahead := .inl (.here classify_tagDb rfl)
  declares := ⟨"web", "tag:web", List.mem_singleton_self _, rfl, _, rfl, rfl⟩
  undeclared := by
    rintro ⟨entry, hentry, -, e, he, hname⟩
    obtain rfl : entry = "tag:web" := List.mem_singleton.mp hentry
    cases he
    exact absurd hname (by decide)

/-- Nothing but tags stands in the rule, so no error is about it. -/
theorem no_cause_of_fromDb {lines : List Membership.Line} {p : Complaint} : ¬ Cause lines fromDb p := by
  have htags : ∀ t ∈ fromDb.sources ++ fromDb.destinations,
      ∃ e name, classify t = .ok e ∧ e.target = .named .tag name := by
    intro t ht
    have hcases : t = .text "tag:db" ∨ t = .text "tag:web" := by simpa [fromDb] using ht
    rcases hcases with rfl | rfl
    · exact ⟨_, _, classify_tagDb, rfl⟩
    · exact ⟨_, _, classify_tagWeb, rfl⟩
  intro h
  cases h with
  | @empty side h => cases side <;> cases h
  | malformed ht hu =>
    obtain ⟨e, name, he, -⟩ := htags _ ht
    cases he.symm.trans hu
  | undefined ht hc hgroup =>
    obtain ⟨e, name, he, htag⟩ := htags _ ht
    cases he.symm.trans hc
    cases htag.symm.trans hgroup

theorem warned_of_owned : owned.WellFormed ∧ ∃ res, (compile owned).1 = .ok res ∧ Warned res 0 "db" ∧
    ¬ Warned res 0 "web" ∧ res.errors = [] := by
  obtain ⟨hsome, hall⟩ := undeclared_tags_warned wellFormed_owned {}
  obtain ⟨res, h⟩ := (hsome fun hdebug => by cases hdebug).mpr (by decide +kernel)
  obtain ⟨hwarned, herrors⟩ := hall res h
  have hdb : Warned res 0 "db" := (hwarned 0 "db").mpr ⟨fromDb, List.mem_singleton_self _, rfl, reports_owned⟩
  refine ⟨wellFormed_owned, res, h, hdb, fun hweb => ?_, List.eq_nil_iff_forall_not_mem.mpr fun x hx => ?_⟩
  · obtain ⟨a, -, -, hreports⟩ := (hwarned 0 "web").mp hweb
    exact hreports.undeclared ⟨"tag:web", List.mem_singleton_self _, rfl, _, rfl, rfl⟩
  · obtain ⟨a, ha, p, hcause, -⟩ := herrors x hx
    obtain rfl : a = fromDb := List.mem_singleton.mp ha
    exact no_cause_of_fromDb hcause

/-! ## Tags that are missed -/

structure Undeclared (d : Document) (a : AccessRule) (name : String) : Prop where
  entries : d.tagOwners.keys ≠ []
  sources : Intact a.sources
  destinations : Intact a.destinations
  tag : ∃ t ∈ a.sources ++ a.destinations, ∃ e, classify t = .ok e ∧ e.target = .named .tag name
  undeclared : ¬ DeclaresTag d.tagOwners.keys name

theorem exists_not_warned {name : String} (hd : d.WellFormed) (hb : BriefRules d) (hno : ∀ a ∈ d.rules, ¬ Reports d a name) :
    ∃ res, (compile d).1 = .ok res ∧ ¬ Warned res 0 name := by
  obtain ⟨m, declared, ht⟩ := (tables_iff (o := {})).mpr hd
  obtain ⟨res, h⟩ := (compile_ok_iff ht nofun).mpr hb
  refine ⟨res, h, fun hwarned => ?_⟩
  obtain ⟨a, ha, -, hreports⟩ := (warned_iff ht h).mp hwarned
  exact hno a ha hreports

def unmarked : Document := { tagOwners := Table.ofList [("web", [.text "group:dev"])], rules := [fromDb] }

theorem wellFormed_unmarked : unmarked.WellFormed where
  groups line hline := by cases hline
  tagOwners name hname hmarker := by
    obtain rfl : name = "web" := List.mem_singleton.mp hname
    cases hmarker

theorem no_tag_of_unmarked (name : String) : ¬ DeclaresTag unmarked.tagOwners.keys name := by
  rintro ⟨entry, hentry, hmarker, -⟩
  obtain rfl : entry = "web" := List.mem_singleton.mp hentry
  cases hmarker

theorem undeclared_unmarked : Undeclared unmarked fromDb "db" where
  entries := List.cons_ne_nil _ _
  sources := intact_single classify_tagDb
  destinations := intact_single classify_tagWeb
  tag := ⟨.text "tag:db", List.mem_cons_self, _, classify_tagDb, rfl⟩
  undeclared := no_tag_of_unmarked "db"

def fromBoth : AccessRule :=
  { index := 0, action := .accept, sources := [.text "group:x", .text "tag:x"], destinations := [.text "tag:web"] }

def grouped : Document :=
  { groups := Table.ofList [("x", [])], tagOwners := Table.ofList [("tag:web", [])], rules := [fromBoth] }

theorem wellFormed_grouped : grouped.WellFormed where
  groups line hline := by
    obtain rfl : line = ("x", []) := List.mem_singleton.mp hline
    exact ⟨⟨_, rfl⟩, by simp⟩
  tagOwners name hname _ := by
    obtain rfl : name = "tag:web" := List.mem_singleton.mp hname
    exact ⟨_, rfl⟩

theorem undeclared_grouped : Undeclared grouped fromBoth "x" where
  entries := List.cons_ne_nil _ _
  sources := by
    refine ⟨List.cons_ne_nil _ _, fun t ht => ?_⟩
    have hcases : t = .text "group:x" ∨ t = .text "tag:x" := by simpa [fromBoth] using ht
    rcases hcases with rfl | rfl
    · exact ⟨_, classify_groupX⟩
    · exact ⟨_, classify_tagX⟩
  destinations := intact_single classify_tagWeb
  tag := ⟨.text "tag:x", by simp [fromBoth], _, classify_tagX, rfl⟩
  undeclared := by
    rintro ⟨entry, hentry, -, e, he, hname⟩
    obtain rfl : entry = "tag:web" := List.mem_singleton.mp hentry
    cases he
    exact absurd hname (by decide)

theorem not_ahead_of_grouped : ¬ Ahead "x" fromBoth.sources ∧ ¬ Ahead "x" fromBoth.destinations := by
  constructor
  · intro h
    cases h with
    | here h htag =>
      cases classify_groupX.symm.trans h
      cases htag
    | later hno _ => exact hno _ classify_groupX rfl
  · intro h
    cases h with
    | here h htag =>
      cases classify_tagWeb.symm.trans h
      exact absurd htag (by decide)
    | later _ h => cases h

/-- With bare entries no tag is looked up, and behind a group of its name a tag is not. -/
theorem an_undeclared_tag_is_missed :
    (unmarked.WellFormed ∧ Undeclared unmarked fromDb "db" ∧
      ∃ res, (compile unmarked).1 = .ok res ∧ ¬ Warned res 0 "db") ∧
    (grouped.WellFormed ∧ Undeclared grouped fromBoth "x" ∧
      ∃ res, (compile grouped).1 = .ok res ∧ ¬ Warned res 0 "x") := by
  refine ⟨⟨wellFormed_unmarked, undeclared_unmarked,
      exists_not_warned wellFormed_unmarked (by decide +kernel) fun a _ h => ?_⟩,
    wellFormed_grouped, undeclared_grouped, exists_not_warned wellFormed_grouped (by decide +kernel) fun a ha h => ?_⟩
  · obtain ⟨name, hname⟩ := h.declares
    exact no_tag_of_unmarked name hname
  · obtain rfl : a = fromBoth := List.mem_singleton.mp ha
    exact h.ahead.elim not_ahead_of_grouped.1 not_ahead_of_grouped.2

end Portcullis.Compiler
