/-
  Portcullis.Proofs.GroupTable — the group table, told by its lines.

  An entry of the table is a name, behind the marker of a group or a tag or bare, and what may
  stand behind it; ports mean nothing there (`Denotes`). So several lines may be about one
  group. A table that was read has a group for each key that some line is about, in the order
  of the first lines about them, under the name in the first of these lines, and lists there the
  members of all lines about the key, each where its key occurs first (`Laid`).
  - `classifyMemberText_eq_ok_iff`: which names can be read, and as what.
  - `stuck_iff`: which entries make the reading stop, so that no fault is given for them.
  - `laid_insert`: so the table is after each line.
  - `exact_ofTable`: a table is refused with the first of the faults of its entries, in the order
    in which they are written, or it is as its lines say.
  - `table_of_lines`: this without the reader.
  - `a_member_stops_the_reading`: a number of too many digits behind a member is no fault of the
    table.
-/

import Portcullis.Proofs.Exact
import Portcullis.Proofs.Expansion
import Portcullis.Proofs.Storing
import Portcullis.Proofs.TokenGrammar

namespace Portcullis

/-- A name ends where a port list may begin. -/
theorem before_of_tail {Item : List Char → Prop} {name tail : List Char} (hcolon : ':' ∉ name) (h : Tail Item tail) :
    Text.before ':' (name ++ tail) = name := by
  cases h with
  | none => rw [List.append_nil, Text.before_of_not_mem hcolon]
  | ports _ => exact Text.before_append hcolon _

namespace Membership

open Portcullis.Text Classify Compiler

/-! ## Entries -/

/-- What an entry of the table is read as. A bare entry is the name of a group. -/
inductive Denotes (s : String) : Endpoint → Prop
  | marked (space : Space) {name tail : List Char} (hne : name ≠ []) (hcolon : ':' ∉ name)
      (htail : Tail BrokenPort tail) (hs : s.toList = marker space ++ (name ++ tail)) :
      Denotes s ⟨.named space (String.ofList (replace '*' star name)), none, s⟩
  | bare {name tail : List Char} (hne : name ≠ []) (hcolon : ':' ∉ name) (htail : Tail BrokenPort tail)
      (hs : s.toList = name ++ tail) (hno : ∀ space, ¬ marker space <+: s.toList) :
      Denotes s ⟨.named .group (String.ofList (replace '*' star name)), none, String.ofList (marker .group ++ s.toList)⟩

/-- A name and what may stand behind it are read as a reference, and its ports are dropped. -/
theorem named_map_eq_ok_iff {token : String} {space : Space} {body : List Char} {e : Endpoint} :
    (named token space body).map (·.withPorts none) = .ok e ↔
      ∃ name tail, body = name ++ tail ∧ name ≠ [] ∧ ':' ∉ name ∧ Tail BrokenPort tail ∧
        e = ⟨.named space (String.ofList (replace '*' star name)), none, token⟩ := by
  have hread : (named token space body).map (·.withPorts none) = .ok e ↔
      (before ':' body ≠ [] ∧ Listed BrokenPort (after? ':' body)) ∧
        e = ⟨.named space (String.ofList (replace '*' star (before ':' body))), none, token⟩ := by
    rw [← ports_of_parse?_iff]
    constructor
    · intro h
      cases hn : named token space body with
      | error u => rw [hn] at h; cases h
      | ok d =>
        rw [hn] at h
        obtain ⟨hne, ports, hp, rfl⟩ := named_eq_ok_iff.mp hn
        cases h
        exact ⟨⟨hne, ports, hp⟩, rfl⟩
    · rintro ⟨⟨hne, ports, hp⟩, rfl⟩
      rw [named_eq_ok_iff.mpr ⟨hne, ports, hp, rfl⟩]
      rfl
  rw [hread]
  constructor
  · rintro ⟨h, rfl⟩
    obtain ⟨name, tail, hbody, hne, hcolon, htail⟩ := (cut_iff (· ≠ [])).mpr h
    refine ⟨name, tail, hbody, hne, hcolon, htail, ?_⟩
    rw [hbody, before_of_tail hcolon htail]
  · rintro ⟨name, tail, rfl, hne, hcolon, htail, rfl⟩
    rw [before_of_tail hcolon htail]
    exact ⟨⟨hne, ((cut_iff (· ≠ [])).mp ⟨name, tail, rfl, hne, hcolon, htail⟩).2⟩, rfl⟩

theorem reference?_eq_none_iff {cs : List Char} : reference? cs = none ↔ ∀ space, ¬ marker space <+: cs := by
  constructor
  · rintro h space ⟨body, rfl⟩
    rw [reference?_eq_some_iff.mpr rfl] at h
    cases h
  · intro h
    cases href : reference? cs with
    | none => rfl
    | some sb => exact absurd ⟨sb.2, (reference?_eq_some_iff.mp href).symm⟩ (h sb.1)

theorem classifyMemberText_eq_ok_iff {s : String} {e : Endpoint} : classifyMemberText s = .ok e ↔ Denotes s e := by
  unfold classifyMemberText
  by_cases hempty : s.toList = []
  · rw [if_pos hempty]
    constructor
    · intro h
      cases h
    · rintro (⟨_, _, _, _, hs⟩ | ⟨hne, _, _, hs, _⟩)
      · rw [hempty] at hs
        simp [marker] at hs
      · rw [hempty] at hs
        exact absurd (List.append_eq_nil_iff.mp hs.symm).1 hne
  rw [if_neg hempty]
  cases href : reference? s.toList with
  | some sb =>
    obtain ⟨space, body⟩ := sb
    have htext := reference?_eq_some_iff.mp href
    simp only [named_map_eq_ok_iff]
    constructor
    · rintro ⟨name, tail, rfl, hne, hcolon, htail, rfl⟩
      exact .marked space hne hcolon htail htext
    · rintro (⟨space', hne, hcolon, htail, hs⟩ | ⟨_, _, _, _, hno⟩)
      · rw [reference?_eq_some_iff.mpr hs] at href
        cases href
        exact ⟨_, _, rfl, hne, hcolon, htail, rfl⟩
      · exact absurd ⟨body, htext.symm⟩ (hno space)
  | none =>
    have hno := reference?_eq_none_iff.mp href
    simp only [named_map_eq_ok_iff]
    constructor
    · rintro ⟨name, tail, hs, hne, hcolon, htail, rfl⟩
      exact .bare hne hcolon htail hs hno
    · rintro (⟨space, _, _, _, hs⟩ | ⟨hne, hcolon, htail, hs, _⟩)
      · exact absurd ⟨_, hs.symm⟩ (hno space)
      · exact ⟨_, _, hs, hne, hcolon, htail, rfl⟩

def Legal (v : Value) : Prop := ∃ s e, v = .text s ∧ Denotes s e

/-- An entry is read if and only if it is the text of a name. -/
theorem legal_iff {v : Value} : Legal v ↔ ∃ e, classifyMember v = .ok e := by
  cases v with
  | text s => simp [Legal, classifyMember, classifyMemberText_eq_ok_iff]
  | _ => simp [Legal, classifyMember]

/-- Ports mean nothing in a table. -/
theorem ports_of_classifyMember {v : Value} {e : Endpoint} (h : classifyMember v = .ok e) : e.ports = none := by
  obtain ⟨token, space, body, d, -, rfl⟩ := named_of_classifyMember h
  rfl

/-! ## Where reading stops -/

/-- Entries that make the reading stop: a number of too many digits stands in the ports behind a
    name, or the text of a value that is no name cannot be written. -/
def Stuck : Value → Prop
  | .text s => Overrun (unmarked s.toList)
  | v => v.writable = false

theorem halts_of_decides {α : Type} {token : String} {P S : Prop} {x : Except Unclassified α}
    (h : Decides token P S x) : halts x = true ↔ S := by
  cases x with
  | ok a => exact iff_of_false Bool.false_ne_true h.2
  | error u => rw [← h.2.2, halts, Bool.not_eq_true']

theorem stuck_iff {v : Value} : halts (classifyMember v) = true ↔ Stuck v := by
  have hvalue : ∀ v, halts (α := Endpoint) (.error (noToken v .emptyMember)) = true ↔ v.writable = false := fun v => by
    unfold noToken
    cases hv : v.writable <;> simp [halts, Malformation.isReported]
  cases v with
  | text s =>
    show halts (classifyMemberText s) = true ↔ Overrun (unmarked s.toList)
    unfold classifyMemberText
    by_cases hempty : s.toList = []
    · rw [if_pos hempty, hempty]
      exact iff_of_false Bool.false_ne_true fun h => h.1 rfl
    · rw [if_neg hempty]
      unfold unmarked
      cases reference? s.toList with
      | none => exact (halts_map _ _ ▸ halts_of_decides (decides_named _ _ _) :)
      | some sb => exact (halts_map _ _ ▸ halts_of_decides (decides_named _ _ _) :)
  | _ => exact hvalue _

/-- Texts make the reading stop by long numbers only. -/
theorem Stuck.not_short {s : String} (h : Stuck (.text s)) : ¬ ShortNumbers s.toList := fun hshort =>
  Overrun.not_short h (hshort.of_infix (unmarked_suffix _).isInfix)

/-- A number of too many digits behind a bare name makes the reading stop. -/
theorem stuck_of_long {name ds : List Char} (hne : name ≠ []) (hcolon : ':' ∉ name)
    (hno : ∀ space, ¬ marker space <+: name ++ ':' :: ds) (hds : ∀ c ∈ ds, isDigit c = true)
    (hlong : Number.longest < ds.length) : Stuck (.text (String.ofList (name ++ ':' :: ds))) := by
  show Overrun (unmarked (String.ofList (name ++ ':' :: ds)).toList)
  unfold unmarked
  rw [String.toList_ofList, reference?_eq_none_iff.mpr hno]
  exact overrun_of_long hne hcolon hds hlong

/-! ## The first fault -/

abbrev Line := String × List Value

def entriesOf (lines : List Line) : List Value := lines.flatMap fun line => .text line.1 :: line.2

def fault? (v : Value) : Option Unclassified :=
  match classifyMember v with
  | .error u => some u
  | .ok _ => none

theorem fault?_eq_some_iff {v : Value} {u : Unclassified} : fault? v = some u ↔ classifyMember v = .error u := by
  unfold fault?
  cases classifyMember v <;> simp

theorem fault?_eq_none_iff {v : Value} : fault? v = none ↔ Legal v := by
  rw [legal_iff]
  unfold fault?
  cases classifyMember v <;> simp

def faults (lines : List Line) : List Unclassified := (entriesOf lines).filterMap fault?

theorem faults_cons (line : Line) (lines : List Line) :
    faults (line :: lines) = (Value.text line.1 :: line.2).filterMap fault? ++ faults lines := by
  rw [faults, entriesOf, List.flatMap_cons, List.filterMap_append]
  rfl

/-! ## The first entry of each key -/

theorem eraseDupsBy_concat {α : Type} (r : α → α → Bool) (xs : List α) (x : α) :
    (xs ++ [x]).eraseDupsBy r = if (xs.eraseDupsBy r).any (r x) then xs.eraseDupsBy r else xs.eraseDupsBy r ++ [x] := by
  -- The same of the entries that were kept before.
  have hloop : ∀ kept, List.eraseDupsBy.loop r (xs ++ [x]) kept =
      if (List.eraseDupsBy.loop r xs kept).any (r x) then List.eraseDupsBy.loop r xs kept
        else List.eraseDupsBy.loop r xs kept ++ [x] := by
    induction xs with
    | nil =>
      intro kept
      cases h : kept.any (r x) <;> simp [List.eraseDupsBy.loop, h]
    | cons y xs ih =>
      intro kept
      rw [List.cons_append, List.eraseDupsBy.loop, List.eraseDupsBy.loop]
      split
      · exact ih kept
      · exact ih (y :: kept)
  exact hloop []

theorem eraseDups_concat (xs : List String) (x : String) :
    (xs ++ [x]).eraseDups = if x ∈ xs then xs.eraseDups else xs.eraseDups ++ [x] := by
  have hany : xs.eraseDups.any (x == ·) = true ↔ x ∈ xs := by
    rw [List.any_beq, List.elem_iff, List.mem_eraseDups]
  unfold List.eraseDups at hany ⊢
  rw [eraseDupsBy_concat]
  simp only [hany]

/-- The entries of a list that are the first of their key. -/
def firsts (es : List Endpoint) : List Endpoint := es.eraseDupsBy fun e d => decide (d.key = e.key)

theorem firsts_concat (es : List Endpoint) (e : Endpoint) : firsts (es ++ [e]) =
    if (firsts es).any (fun d => decide (d.key = e.key)) then firsts es else firsts es ++ [e] :=
  eraseDupsBy_concat _ es e

theorem mem_of_mem_firsts {es : List Endpoint} {d : Endpoint} (h : d ∈ firsts es) : d ∈ es := by
  induction es using List.reverseRecOn with
  | nil => exact h
  | append_singleton es e ih =>
    rw [firsts_concat] at h
    split at h
    · exact List.mem_append_left _ (ih h)
    · exact List.mem_append.mpr ((List.mem_append.mp h).imp_left ih)

/-- Adding a member keeps each where its key occurs first. -/
theorem members_addMembers {g : Group} {ds : List Endpoint} (h : g.members = firsts ds) (es : List Endpoint) :
    (es.foldl Group.addMember g).members = firsts (ds ++ es) := by
  induction es generalizing g ds with
  | nil => rw [List.append_nil]; exact h
  | cons e es ih =>
    have hadd : (g.addMember e).members = firsts (ds ++ [e]) := by
      rw [firsts_concat, ← h]
      unfold Group.addMember
      split <;> rfl
    rw [List.foldl_cons, ih hadd, List.append_assoc]
    rfl

/-- What tells the keys of a list apart tells its first entries. -/
theorem map_firsts {f : Endpoint → String} {es : List Endpoint}
    (hf : ∀ d ∈ es, ∀ e ∈ es, d.key = e.key ↔ f d = f e) : (firsts es).map f = (es.map f).eraseDups := by
  induction es using List.reverseRecOn with
  | nil => rfl
  | append_singleton es e ih =>
    have ih := ih fun d hd d' hd' => hf d (List.mem_append_left _ hd) d' (List.mem_append_left _ hd')
    have hthere : (firsts es).any (fun d => decide (d.key = e.key)) = true ↔ f e ∈ es.map f := by
      rw [← List.mem_eraseDups, ← ih]
      simp only [List.any_eq_true, decide_eq_true_eq, List.mem_map]
      exact exists_congr fun d => and_congr_right fun hd =>
        hf d (List.mem_append_left _ (mem_of_mem_firsts hd)) e (List.mem_append_right _ (List.mem_singleton_self e))
    rw [firsts_concat, List.map_append, List.map_singleton, eraseDups_concat]
    simp only [hthere]
    split
    · exact ih
    · rw [List.map_append, ih, List.map_singleton]

/-! ## The table after each line -/

def nameOf? (line : Line) : Option Endpoint := (classifyMemberText line.1).toOption

def headOf? (line : Line) : Option String := (classifyMemberText line.1).toOption.map Endpoint.key

def memberOf? (v : Value) : Option Endpoint := (classifyMember v).toOption

/-- The members that the lines about a key list, in order. -/
def referencesOf (lines : List Line) (k : String) : List Endpoint :=
  (lines.filter fun line => headOf? line = some k).flatMap fun line => line.2.filterMap memberOf?

structure Laid (lines : List Line) (groups : Table Group) : Prop where
  keys : groups.keys = (lines.filterMap headOf?).eraseDups
  self : ∀ {k g}, groups.get? k = some g → (lines.filterMap nameOf?).find? (fun e => e.key = k) = some g.self
  members : ∀ {k g}, groups.get? k = some g → g.members = firsts (referencesOf lines k)

theorem nameOf?_eq_some_iff {line : Line} {e : Endpoint} : nameOf? line = some e ↔ classifyMemberText line.1 = .ok e := by
  unfold nameOf?
  cases classifyMemberText line.1 <;> simp [Except.toOption]

theorem memberOf?_eq_some_iff {v : Value} {e : Endpoint} : memberOf? v = some e ↔ classifyMember v = .ok e := by
  unfold memberOf?
  cases classifyMember v <;> simp [Except.toOption]

theorem headOf?_of_ok {line : Line} {e : Endpoint} (h : classifyMemberText line.1 = .ok e) :
    headOf? line = some e.key := by
  rw [headOf?, h]
  rfl

theorem exact_readMembers (vs : List Value) :
    Exact (readMembers vs) (vs.filterMap fault?) (vs.filterMap memberOf? = ·) := by
  induction vs with
  | nil => exact ⟨rfl, rfl⟩
  | cons v vs ih =>
    simp only [readMembers, fault?, memberOf?, List.filterMap_cons]
    cases classifyMember v with
    | error u => rfl
    | ok e => exact ih.map fun es hes => congrArg (e :: ·) hes

theorem referencesOf_concat (lines : List Line) (line : Line) (k : String) :
    referencesOf (lines ++ [line]) k = referencesOf lines k ++
      if headOf? line = some k then line.2.filterMap memberOf? else [] := by
  unfold referencesOf
  by_cases hk : headOf? line = some k <;> simp [List.filter_append, List.flatMap_append, hk]

/-- No line is about a key that has no group, and so nothing is listed for it. -/
theorem referencesOf_of_not_mem {lines : List Line} {k : String} (h : k ∉ lines.filterMap headOf?) :
    referencesOf lines k = [] := by
  unfold referencesOf
  rw [List.filter_eq_nil_iff.mpr]
  · rfl
  · exact fun line hline hk => h (List.mem_filterMap.mpr ⟨line, hline, of_decide_eq_true hk⟩)

theorem find?_of_not_mem {lines : List Line} {k : String} (h : k ∉ lines.filterMap headOf?) :
    (lines.filterMap nameOf?).find? (fun e => e.key = k) = none := by
  rw [List.find?_eq_none]
  intro e he hk
  obtain ⟨line, hline, hname⟩ := List.mem_filterMap.mp he
  refine h (List.mem_filterMap.mpr ⟨line, hline, ?_⟩)
  rw [← of_decide_eq_true hk]
  exact congrArg (Option.map Endpoint.key) hname

theorem laid_nil : Laid [] ∅ where
  keys := rfl
  self hk := by cases hk
  members hk := by cases hk

variable {lines : List Line} {groups : Table Group}

theorem Laid.not_mem_of_none (h : Laid lines groups) {k : String} (hk : groups.get? k = none) :
    k ∉ lines.filterMap headOf? := fun hmem => by
  rw [← List.mem_eraseDups, ← h.keys] at hmem
  obtain ⟨g, hg⟩ := Table.mem_keys_iff.mp hmem
  rw [hk] at hg
  cases hg

/-- One more line. -/
theorem laid_insert (h : Laid lines groups) {line : Line} {parent : Endpoint} {es : List Endpoint}
    (hp : classifyMemberText line.1 = .ok parent) (hes : line.2.filterMap memberOf? = es) :
    Laid (lines ++ [line]) (groups.insert parent.key
      (es.foldl Group.addMember ((groups.get? parent.key).getD ⟨parent, []⟩))) := by
  have hhead : headOf? line = some parent.key := headOf?_of_ok hp
  have hname : nameOf? line = some parent := nameOf?_eq_some_iff.mpr hp
  -- The group as it was before the line, which may be the first one about it.
  obtain ⟨g, hg, hself, hmembers⟩ : ∃ g, (groups.get? parent.key).getD ⟨parent, []⟩ = g ∧
      ((lines ++ [line]).filterMap nameOf?).find? (fun e => e.key = parent.key) = some g.self ∧
      g.members = firsts (referencesOf lines parent.key) := by
    cases hget : groups.get? parent.key with
    | some g => exact ⟨g, rfl, by rw [List.filterMap_append, List.find?_append, h.self hget]; rfl, h.members hget⟩
    | none =>
      have hno := h.not_mem_of_none hget
      refine ⟨⟨parent, []⟩, rfl, ?_, ?_⟩
      · rw [List.filterMap_append, List.find?_append, find?_of_not_mem hno]
        simp [hname]
      · rw [referencesOf_of_not_mem hno]
        rfl
  rw [hg]
  refine ⟨?_, fun {k g'} hk => ?_, fun {k g'} hk => ?_⟩
  · rw [Table.keys_insert, h.keys, List.filterMap_append, List.filterMap_cons_some hhead, List.filterMap_nil,
      eraseDups_concat]
    simp only [List.mem_eraseDups]
  · rcases Table.get?_insert_cases hk with ⟨rfl, rfl⟩ | ⟨hkey, hk⟩
    · rw [self_addMembers]
      exact hself
    · rw [List.filterMap_append, List.find?_append, h.self hk]
      rfl
  · rcases Table.get?_insert_cases hk with ⟨rfl, rfl⟩ | ⟨hkey, hk⟩
    · rw [referencesOf_concat, if_pos hhead, hes]
      exact members_addMembers hmembers es
    · rw [referencesOf_concat, if_neg (by simpa [hhead] using Ne.symm hkey), List.append_nil]
      exact h.members hk

theorem exact_addEntry (h : Laid lines groups) (line : Line) :
    Exact (addEntry groups line.1 line.2) ((Value.text line.1 :: line.2).filterMap fault?) (Laid (lines ++ [line])) := by
  simp only [addEntry, List.filterMap_cons, fault?, classifyMember]
  cases hp : classifyMemberText line.1 with
  | error u => rfl
  | ok parent => exact (exact_readMembers line.2).map fun es hes => laid_insert h hp hes

theorem exact_addEntries (h : Laid lines groups) (more : List Line) :
    Exact (addEntries groups more) (faults more) (Laid (lines ++ more)) := by
  induction more generalizing lines groups with
  | nil => exact ⟨rfl, by rwa [List.append_nil]⟩
  | cons line more ih =>
    have hbind : addEntries groups (line :: more) = addEntry groups line.1 line.2 >>= fun g => addEntries g more := by
      simp only [addEntries]
      cases addEntry groups line.1 line.2 <;> rfl
    rw [hbind, faults_cons]
    refine (exact_addEntry h line).bind fun between hbetween => ?_
    rw [← List.singleton_append, ← List.append_assoc]
    exact ih hbetween

/-- A table is refused with its first fault, or it is as its lines say. -/
theorem exact_ofTable (table : NameTable) (depth : Option Nat) :
    Exact (ofTable table depth) (faults table.toList) fun m => Laid table.toList m.groups :=
  (exact_addEntries laid_nil table.toList).map fun _ hlaid => hlaid

/-! ## The table as a whole -/

theorem ports_of_find? {k : String} {e : Endpoint} (h : (lines.filterMap nameOf?).find? (fun e => e.key = k) = some e) :
    e.ports = none := by
  obtain ⟨line, -, hname⟩ := List.mem_filterMap.mp (List.mem_of_find?_eq_some h)
  exact ports_of_classifyMember (v := .text line.1) (nameOf?_eq_some_iff.mp hname)

theorem ports_of_mem_referencesOf {k : String} {e : Endpoint} (h : e ∈ referencesOf lines k) : e.ports = none := by
  obtain ⟨line, -, he⟩ := List.mem_flatMap.mp h
  obtain ⟨v, -, hv⟩ := List.mem_filterMap.mp he
  exact ports_of_classifyMember (memberOf?_eq_some_iff.mp hv)

/-- The merged form of the lines of a table: a group for each key some line is about, under the
    first of its names, with the first of its members for each key. -/
structure Normal (lines : List Line) (m : Membership) : Prop where
  keys : m.groups.keys = (lines.filterMap headOf?).eraseDups
  hasGroup : ∀ e, m.hasGroup e = true ↔ e.key ∈ lines.filterMap headOf?
  self : ∀ k g, m.groups.get? k = some g →
    (lines.filterMap nameOf?).find? (fun e => e.key = k) = some g.self ∧ g.self.ports = none
  members : ∀ k, m.membersOf k = firsts (referencesOf lines k)
  bare : ∀ k, ∀ e ∈ m.membersOf k, e.ports = none

theorem Laid.normal {m : Membership} (h : Laid lines m.groups) : Normal lines m := by
  have hmembers : ∀ k, m.membersOf k = firsts (referencesOf lines k) := fun k => by
    unfold membersOf
    cases hget : m.groups.get? k with
    | some g => exact h.members hget
    | none =>
      rw [referencesOf_of_not_mem (h.not_mem_of_none hget)]
      rfl
  refine ⟨h.keys, fun e => ?_, fun k g hk => ⟨h.self hk, ports_of_find? (h.self hk)⟩, hmembers, fun k e he => ?_⟩
  · rw [hasGroup, Table.contains_iff, h.keys, List.mem_eraseDups]
  · rw [hmembers] at he
    exact ports_of_mem_referencesOf (mem_of_mem_firsts he)

/-- A table is refused with the fault of the first entry that is no name, each name before its
    members; the reading stops there instead if it stops at that entry, which takes a number of too
    many digits in a text. A table can be read if all entries are names, and is then the merged form
    of its lines. -/
theorem table_of_lines (table : NameTable) (depth : Option Nat) :
    (∀ u, ofTable table depth = .error u ↔ ∃ before v after, entriesOf table.toList = before ++ v :: after ∧
      classifyMember v = .error u ∧ ∀ w ∈ before, Legal w) ∧
    ((∃ u, u.cause.isReported = false ∧ ofTable table depth = .error u) ↔
      ∃ before v after, entriesOf table.toList = before ++ v :: after ∧ Stuck v ∧ ∀ w ∈ before, Legal w) ∧
    (∀ s, Stuck (.text s) → ¬ ShortNumbers s.toList) ∧
    ((∃ m, ofTable table depth = .ok m) ↔ ∀ v ∈ entriesOf table.toList, Legal v) ∧
    ∀ m, ofTable table depth = .ok m → Normal table.toList m := by
  have hexact := exact_ofTable table depth
  have hfirst : ∀ u, ofTable table depth = .error u ↔ ∃ before v after, entriesOf table.toList = before ++ v :: after ∧
      classifyMember v = .error u ∧ ∀ w ∈ before, Legal w := fun u => by
    simp only [hexact.error_iff_first, fault?_eq_some_iff, fault?_eq_none_iff]
  refine ⟨hfirst, ?_, fun s h => h.not_short, ?_, fun m h => (hexact.of_ok h).normal⟩
  · simp only [hfirst]
    constructor
    · rintro ⟨u, hu, before, v, after, hentries, hv, hbefore⟩
      exact ⟨before, v, after, hentries, stuck_iff.mp (by rw [hv, halts, hu]; rfl), hbefore⟩
    · rintro ⟨before, v, after, hentries, hv, hbefore⟩
      obtain ⟨u, hu, hstops⟩ := halts_eq_true_iff.mp (stuck_iff.mpr hv)
      exact ⟨u, hstops, before, v, after, hentries, hu, hbefore⟩
  · simp only [hexact.ok_iff_forall, fault?_eq_none_iff]

def spellings : NameTable := Table.ofList
  [("dev", [.text "alice", .text "group:bob:22"]), ("tag:qa", []), ("group:dev:22", [.text "tag:alice", .text "ops*"])]

theorem table_of_spellings : ∃ m, ofTable spellings none = .ok m ∧ m.groups.keys = ["group-dev", "group-qa"] ∧
    m.membersOf "group-dev" = [⟨.named .group "alice", none, "group:alice"⟩, ⟨.named .group "bob", none, "group:bob:22"⟩,
      ⟨.named .group "opsstar", none, "group:ops*"⟩] := by
  have hnormal := (table_of_lines spellings none).2.2.2.2 _ rfl
  exact ⟨_, rfl, hnormal.keys.trans (by decide), (hnormal.members "group-dev").trans (by decide)⟩

def groupOfLong (length : Nat) : NameTable :=
  Table.ofList [("g", [.text (String.ofList (['a'] ++ ':' :: List.replicate length '9'))])]

theorem stops_of_groupOfLong {n : Nat} (h : Number.longest < n) :
    ∃ u, ofTable (groupOfLong n) none = .error u ∧ u.cause.isReported = false := by
  have hno : ∀ ds space, ¬ marker space <+: ['a'] ++ ':' :: ds := fun ds space => by
    cases space <;> simp [marker, Space.text]
  have hstuck := stuck_of_long (List.cons_ne_nil 'a' []) (by decide) (hno _)
    (fun c hc => List.eq_of_mem_replicate hc ▸ by decide) (List.length_replicate (n := n) (a := '9') ▸ h)
  obtain ⟨u, hu, hstops⟩ := halts_eq_true_iff.mp (stuck_iff.mpr hstuck)
  refine ⟨u, ?_, hstops⟩
  show (addEntries ∅ [("g", [_])]).map _ = _
  simp only [addEntries, addEntry, readMembers, hu]
  rfl

/-- A member with a port of 4301 digits is no name, but a table with it is not refused with a fault
    of it. -/
theorem a_member_stops_the_reading :
    ∃ u, ofTable (groupOfLong 4301) none = .error u ∧ u.cause.isReported = false :=
  stops_of_groupOfLong (by decide)

end Membership

end Portcullis
